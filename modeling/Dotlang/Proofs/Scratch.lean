import Dotlang.Proofs.Assignments
import Dotlang.Proofs.Targets

/-!
# Values by way of scratch variables

The arguments of a call that prints, and the left side of a condition, are accumulated in scratch variables before they
are read. All of them have the values they would have had before, and the variables of the source are as they were.

* `IsScratch name` : the names that the emitter keeps for itself;
* `Operand.IsLexed` : an operand as a lexer makes it, which never reads a scratch variable;
* `Store.Kept s t` : the variables of a source are in `t` what they are in `s`;
* `kept_of_effects` : so they are behind lines that change scratch variables;
* `evaluateAll_of_values`, `evaluateAll_of_fault` : arguments have values, or the fault of the first that has none;
* `computes_call`, `computes_compare` : what the lines before a call and a comparison compute;
* `scratch_preserves_values` : what is printed and compared, in the store before the first of these lines.
-/

namespace Dotlang

open Assembly (Line lines operand operands accumulate)
open Machine (Program Scene IsOperand)
open Machine.Program (Goes)

/-! ## Scratch names -/

/-- The names that the emitter keeps for itself start as no name in a source does. -/
def IsScratch (name : String) : Prop := name.toList.head? = some '$'

theorem isScratch_numbered (n : Nat) : IsScratch ("$t" ++ toString n) := by
  have hstem : "$t".toList = ['$', 't'] := by decide
  unfold IsScratch
  rw [String.toList_append, hstem]
  rfl

/-- No literal and no name starts like a scratch variable. -/
theorem head?_ne_of_form {kind : TokenKind} {w : List Char} (hkind : kind.isOperand = true) (h : Lexer.Form kind w) :
    w.head? ≠ some '$' := by
  have hdigits : ∀ ds after, Text.isDigits ds = true → (ds ++ after).head? ≠ some '$' := by
    intro ds after hds hhead
    obtain ⟨c, cs, rfl⟩ := List.exists_cons_of_ne_nil (l := ds) (by rintro rfl; cases hds)
    cases hhead
    simp [Text.isDigits] at hds
  cases kind <;> simp only [TokenKind.isOperand, Bool.false_eq_true] at hkind
  case number =>
    rcases h with h | ⟨whole, fraction, hwhole, -, rfl⟩
    · have hw := hdigits w [] h
      rwa [List.append_nil] at hw
    · exact hdigits whole _ hwhole
  case string =>
    obtain ⟨body, -, rfl⟩ := h
    rintro ⟨⟩
  case boolean => rcases h with rfl | rfl <;> decide
  case identifier =>
    obtain ⟨c, cs, rfl, hc⟩ := h.head
    rintro ⟨⟩
    exact absurd hc (by decide)

theorem not_isScratch_of_reads {w name : String} (hw : w.toList.head? ≠ some '$') (h : Reads w name) :
    ¬ IsScratch name := by
  intro hname
  obtain ⟨rfl, -⟩ := h
  apply hw
  rcases Machine.withoutComma_cases w with hsame | hcomma
  · rw [hsame] at hname
    exact hname
  · rw [hcomma, String.toList_append, List.head?_append, hname]
    rfl

/-- An operand as a lexer makes it. -/
def Operand.IsLexed (o : Operand) : Prop := o.kind.isOperand = true ∧ Lexer.Form o.kind o.lexeme.toList

theorem Operand.IsLexed.isOperand {o : Operand} (h : o.IsLexed) : IsOperand o.lexeme.toList :=
  Machine.isOperand_of_form h.1 h.2

/-- An operand of a source reads no scratch variable. -/
theorem Operand.IsLexed.settled {o : Operand} (h : o.IsLexed) (n : Nat) : Settled "$t" n o.lexeme := by
  rintro name hreads ⟨k, -, rfl⟩
  exact not_isScratch_of_reads (head?_ne_of_form h.1 h.2) hreads (isScratch_numbered k)

/-- All operands of the chain are as a lexer makes them. -/
def Chain.IsLexed (c : Chain) : Prop := ∀ o ∈ c.operands, o.IsLexed

/-! ## Variables of the source -/

/-- The variables of a source are in `t` what they are in `s`. -/
def Store.Kept (s t : Store) : Prop := ∀ name, ¬ IsScratch name → t.get? name = s.get? name

/-- The variable that a line changes. -/
def Assembly.Line.changed? : Line → Option String
  | .move target _ | .arith _ target _ => some target
  | _ => none

namespace Assembly

theorem kept_of_effect {l : Line} (hl : ∀ name, l.changed? = some name → IsScratch name) {s t : Store}
    (h : l.effect s = .ok t) : s.Kept t := by
  have hset : ∀ target v, l.changed? = some target → s.Kept (s.set target v) := by
    intro target v htarget name hname
    rw [Store.get?_set, if_neg]
    rintro rfl
    exact hname (hl name htarget)
  cases l with
  | move target source =>
    cases h
    exact hset target _ rfl
  | arith op target source =>
    rw [Line.effect] at h
    cases hvalue : (s.get target).apply op (s.resolve source) with
    | error f =>
      rw [hvalue] at h
      cases h
    | ok v =>
      rw [hvalue] at h
      cases h
      exact hset target v rfl
  | _ =>
    cases h
    exact fun _ _ => rfl

/-- Lines that change scratch variables keep those of the source. -/
theorem kept_of_effects {code : List Line} (hcode : ∀ l ∈ code, ∀ name, l.changed? = some name → IsScratch name)
    {s t : Store} (h : code.foldlM Line.effect s = .ok t) : s.Kept t := by
  induction code generalizing s with
  | nil =>
    cases h
    exact fun _ _ => rfl
  | cons l code ih =>
    obtain ⟨hl, hrest⟩ := List.forall_mem_cons.mp hcode
    rw [List.foldlM_cons] at h
    cases heffect : l.effect s with
    | error f =>
      rw [heffect] at h
      cases h
    | ok u =>
      rw [heffect] at h
      intro name hname
      exact (ih hrest h name hname).trans (kept_of_effect hl heffect name hname)

theorem changed?_accumulate {target : String} {c : Chain} : ∀ l ∈ accumulate target c, l.changed? = some target := by
  intro l hl
  rcases List.mem_cons.mp hl with rfl | hl
  · rfl
  · obtain ⟨term, -, rfl⟩ := List.mem_map.mp hl
    rfl

theorem isScratch_of_changed? (n : Nat) (c : Chain) :
    ∀ l ∈ accumulate ("$t" ++ toString n) c, ∀ name, l.changed? = some name → IsScratch name := by
  intro l hl name hname
  cases (changed?_accumulate l hl).symm.trans hname
  exact isScratch_numbered n

end Assembly

/-! ## Values of arguments -/

section Values

variable {s : Store} {cs before after : List Chain} {c : Chain}

theorem evaluateAll_of_values {vs : List Value} (h : List.Forall₂ (fun c v => c.value s = .ok v) cs vs) :
    evaluateAll s (cs.map .value) = .ok vs := by
  induction h with
  | nil => rfl
  | cons hc _ ih =>
    rw [List.map_cons, evaluateAll, Argument.evaluate, hc, ih]
    rfl

/-- The first chain without a value decides how the arguments fault. -/
theorem evaluateAll_of_fault {f : Fault} (hbefore : ∀ b ∈ before, ∃ v, b.value s = .ok v) (hc : c.value s = .error f) :
    evaluateAll s ((before ++ c :: after).map .value) = .error f := by
  induction before with
  | nil =>
    rw [List.nil_append, List.map_cons, evaluateAll, Argument.evaluate, hc]
    rfl
  | cons b before ih =>
    obtain ⟨⟨v, hv⟩, hrest⟩ := List.forall_mem_cons.mp hbefore
    rw [List.cons_append, List.map_cons, evaluateAll, Argument.evaluate, hv, ih hrest]
    rfl

end Values

/-! ## Calls and comparisons -/

/-- The right side of a condition is an operand of the chain, or the zero that there always is. -/
theorem Chain.IsLexed.rhs {c : Chain} (h : c.IsLexed) : (Condition.ofChain c).rhs.IsLexed := by
  rcases Condition.rhs_ofChain c with hmem | hzero
  · exact h _ hmem
  · rw [hzero]
    exact ⟨rfl, Or.inl (by decide)⟩

theorem Chain.IsLexed.lhs {c : Chain} (h : c.IsLexed) : (Condition.ofChain c).lhs.IsLexed :=
  fun o ho => h o (Condition.mem_operands_of_lhs ho)

theorem settled_of_isLexed {cs : List Chain} (h : ∀ c ∈ cs, c.IsLexed) (n : Nat) :
    ∀ arg ∈ cs.map Argument.value, ∀ w ∈ arg.words, Settled "$t" n w := by
  intro arg harg w hw
  obtain ⟨c, hc, rfl⟩ := List.mem_map.mp harg
  obtain ⟨o, ho, rfl⟩ := List.mem_map.mp hw
  exact (h c hc o ho).settled n

/-- From `a`, the program faults before it has taken `n` steps, and prints and asks for nothing until then. -/
def Machine.Program.FaultsWithin (p : Program) (n : Nat) (a : Scene) (f : Fault) : Prop :=
  ∃ m b, m < n ∧ Goes p m a b ∧ p.step b.state = .fault f ∧ b.seen = a.seen ∧ b.replies = a.replies

theorem Machine.Program.Computes.faultsWithin {p : Program} {m n : Nat} {a : Scene} {f : Fault}
    (h : p.Computes m a (.error f)) (hle : m ≤ n) : p.FaultsWithin n a f := by
  obtain ⟨j, b, hj, hend⟩ := h
  exact ⟨j, b, Nat.lt_of_lt_of_le hj hle, hend⟩

section Text

variable {text : String} {k n : Nat} {a : Scene}

/-- Before a call that prints, the lines compute its arguments. -/
theorem computes_call {name : String} {cs : List Chain}
    (hcode : Machine.WrittenAt text k ((lines (.call name (cs.map .value) none)).run n).1) (ha : a.state.pc = k)
    (hname : name ∈ Machine.printNames) (hcs : ∀ c ∈ cs, c.IsLexed) :
    (Program.ofText text).lines[k + ((operands (cs.map .value)).run n).1.1.length]? =
        some (.ok (.call name ((operands (cs.map .value)).run n).1.2)) ∧
      (Program.ofText text).Computes ((operands (cs.map .value)).run n).1.1.length a
        (((operands (cs.map .value)).run n).1.1.foldlM Line.effect a.state.store) := by
  subst ha
  have hwords : ∀ arg ∈ cs.map Argument.value, Assembly.ArgumentWords arg := by
    intro arg harg
    obtain ⟨c, hc, rfl⟩ := List.mem_map.mp harg
    exact fun o ho => (hcs c hc o ho).isOperand
  obtain ⟨hbefore, haddresses⟩ := Assembly.proper_operands hwords n
  have hreadable : ∀ l ∈ ((operands (cs.map .value)).run n).1.1 ++
      [.call name ((operands (cs.map .value)).run n).1.2], l.Readable := by
    intro l hl
    rcases List.mem_append.mp hl with hl | hl
    · exact (hbefore l hl).readable
    · rw [List.mem_singleton.mp hl]
      exact Line.readable_instruction rfl
        (List.forall_mem_cons.mpr ⟨isOperand_of_plain (by decide) name hname, haddresses⟩)
  exact (Program.computes_of_writtenAt hcode hreadable (Assembly.isEffect_operands _ n)).imp_left Program.Holds.head

/-- Before a comparison, the lines compute its left side. -/
theorem computes_compare {c : Chain} {r : Relation} {label : Label}
    (hcode : Machine.WrittenAt text k ((lines (.compare (Condition.ofChain c) r label)).run n).1)
    (ha : a.state.pc = k) (hc : c.IsLexed) :
    (Program.ofText text).Holds (k + ((operand (Condition.ofChain c).lhs).run n).1.1.length)
        [.compare ((operand (Condition.ofChain c).lhs).run n).1.2 (Condition.ofChain c).rhs.lexeme,
          .jumpIf r label.name] ∧
      (Program.ofText text).Computes ((operand (Condition.ofChain c).lhs).run n).1.1.length a
        (((operand (Condition.ofChain c).lhs).run n).1.1.foldlM Line.effect a.state.store) := by
  subst ha
  obtain ⟨hbefore, hleft⟩ := Assembly.proper_operand (fun o ho => (hc.lhs o ho).isOperand) n
  have hreadable : ∀ l ∈ ((operand (Condition.ofChain c).lhs).run n).1.1 ++
      [.compare ((operand (Condition.ofChain c).lhs).run n).1.2 (Condition.ofChain c).rhs.lexeme,
        .jumpIf r label.name], l.Readable := by
    intro l hl
    rcases List.mem_append.mp hl with hl | hl
    · exact (hbefore l hl).readable
    · rcases List.mem_cons.mp hl with rfl | hl
      · exact Line.readable_instruction rfl
          (List.forall_mem_cons.mpr ⟨hleft, List.forall_mem_singleton.mpr hc.rhs.isOperand⟩)
      · rw [List.mem_singleton.mp hl]
        exact Line.readable_instruction rfl (List.forall_mem_singleton.mpr (isOperand_labelName label))
  exact Program.computes_of_writtenAt hcode hreadable (Assembly.isEffect_operand _ n)

/-- A call prints the values that its arguments have before its first line. -/
theorem call_prints_values {name : String} {cs : List Chain} {vs : List Value}
    (hcode : Machine.WrittenAt text k ((lines (.call name (cs.map .value) none)).run n).1) (ha : a.state.pc = k)
    (hname : name ∈ Machine.printNames) (hcs : ∀ c ∈ cs, c.IsLexed)
    (hvs : List.Forall₂ (fun c v => c.value a.state.store = .ok v) cs vs) :
    ∃ t, a.state.store.Kept t ∧
      Goes (.ofText text) ((lines (.call name (cs.map .value) none)).run n).1.length a
        { a with
          state := { a.state with
            pc := k + ((lines (.call name (cs.map .value) none)).run n).1.length, store := t }
          seen := .print (String.intercalate " " (vs.map Value.display)) :: a.seen } := by
  obtain ⟨hcall, hcomputes⟩ := computes_call hcode ha hname hcs
  have halike := Assembly.alike_operands (settled_of_isLexed hcs n) a.state.store
  rw [evaluateAll_of_values hvs] at halike
  obtain ⟨t, hfold, -, hvalues⟩ := halike.exists_of_ok
  rw [hfold] at hcomputes
  subst ha
  refine ⟨t, Assembly.kept_of_effects (Assembly.forall_mem_operands Assembly.isScratch_of_changed? _ n) hfold, ?_⟩
  have hprint := Goes.print (a := { a with state := { a.state with
    pc := a.state.pc + ((operands (cs.map .value)).run n).1.1.length, store := t } }) hcall
    (List.contains_iff_mem.mpr hname)
  have hshown : ((operands (cs.map .value)).run n).1.2.map (fun w => (t.resolve w).display) =
      vs.map Value.display := by
    rw [← hvalues, List.map_map]
    rfl
  have hgoes := Goes.trans hcomputes hprint
  have hlength : ((lines (.call name (cs.map .value) none)).run n).1.length =
      ((operands (cs.map .value)).run n).1.1.length + 1 := List.length_append
  rw [hlength, ← hshown]
  exact hgoes

/-- A call faults as the first of its arguments that has no value. -/
theorem call_faults {name : String} {before after : List Chain} {c : Chain} {f : Fault}
    (hcode : Machine.WrittenAt text k ((lines (.call name ((before ++ c :: after).map .value) none)).run n).1)
    (ha : a.state.pc = k) (hname : name ∈ Machine.printNames) (hcs : ∀ d ∈ before ++ c :: after, d.IsLexed)
    (hbefore : ∀ b ∈ before, ∃ v, b.value a.state.store = .ok v) (hc : c.value a.state.store = .error f) :
    (Program.ofText text).Computes ((operands ((before ++ c :: after).map .value)).run n).1.1.length a (.error f) := by
  obtain ⟨-, hcomputes⟩ := computes_call hcode ha hname hcs
  have halike := Assembly.alike_operands (settled_of_isLexed hcs n) a.state.store
  rw [evaluateAll_of_fault hbefore hc] at halike
  rwa [halike.eq_of_error] at hcomputes

/-- A comparison fills the register with the values that both sides have before its first line. -/
theorem compare_holds_values {c : Chain} {r : Relation} {label : Label} {v : Value}
    (hcode : Machine.WrittenAt text k ((lines (.compare (Condition.ofChain c) r label)).run n).1)
    (ha : a.state.pc = k) (hc : c.IsLexed) (hv : (Condition.ofChain c).lhs.value a.state.store = .ok v) :
    ∃ m t, ((lines (.compare (Condition.ofChain c) r label)).run n).1.length = m + 1 ∧ a.state.store.Kept t ∧
      Goes (.ofText text) m a
        { a with state := { a.state with
          pc := k + m, register := some (v, a.state.store.resolve (Condition.ofChain c).rhs.lexeme), store := t } } ∧
      (Program.ofText text).lines[k + m]? = some (.ok (.jumpIf r label.name)) := by
  obtain ⟨hholds, hcomputes⟩ := computes_compare hcode ha hc
  have halike := (Assembly.alike_operand (fun o ho => (hc.lhs o ho).settled n) a.state.store).1
  rw [hv] at halike
  obtain ⟨t, hfold, heq, hleft⟩ := halike.exists_of_ok
  rw [hfold] at hcomputes
  subst ha
  refine ⟨((operand (Condition.ofChain c).lhs).run n).1.1.length + 1, t, List.length_append,
    Assembly.kept_of_effects (Assembly.forall_mem_operand Assembly.isScratch_of_changed? _ n) hfold, ?_,
    hholds.tail.head⟩
  have hcompare := Goes.compare (a := { a with state := { a.state with
    pc := a.state.pc + ((operand (Condition.ofChain c).lhs).run n).1.1.length, store := t } }) hholds.head
  have hright : t.resolve (Condition.ofChain c).rhs.lexeme = a.state.store.resolve (Condition.ofChain c).rhs.lexeme :=
    (heq.resolve (hc.rhs.settled n)).symm
  rw [hleft, hright] at hcompare
  exact Goes.trans hcomputes hcompare

theorem compare_faults {c : Chain} {r : Relation} {label : Label} {f : Fault}
    (hcode : Machine.WrittenAt text k ((lines (.compare (Condition.ofChain c) r label)).run n).1)
    (ha : a.state.pc = k) (hc : c.IsLexed) (hf : (Condition.ofChain c).lhs.value a.state.store = .error f) :
    (Program.ofText text).Computes ((operand (Condition.ofChain c).lhs).run n).1.1.length a (.error f) := by
  obtain ⟨-, hcomputes⟩ := computes_compare hcode ha hc
  have halike := (Assembly.alike_operand (fun o ho => (hc.lhs o ho).settled n) a.state.store).1
  rw [hf] at halike
  rwa [halike.eq_of_error] at hcomputes

/-- **Main result.** Wherever the lines of a call that prints stand in a text, they print the values of its arguments
with a space between any two, all taken in the store before the first line, and keep the variables of the source. If an
argument has no value, they fault as the first such argument and print nothing. The lines of a condition fill the
register with the value of its left side and that of its right side, taken in the store before the first line, or fault
as the left side does. -/
theorem scratch_preserves_values {text : String} {k n : Nat} {a : Scene} (ha : a.state.pc = k) :
    (∀ name cs code, name ∈ Machine.printNames → (∀ c ∈ cs, c.IsLexed) →
      code = ((lines (.call name (cs.map .value) none)).run n).1 → Machine.WrittenAt text k code →
      (∀ vs, List.Forall₂ (fun c v => c.value a.state.store = .ok v) cs vs → ∃ t, a.state.store.Kept t ∧
        Goes (.ofText text) code.length a
          { a with
            state := { a.state with pc := k + code.length, store := t }
            seen := .print (String.intercalate " " (vs.map Value.display)) :: a.seen }) ∧
      ∀ before c after f, cs = before ++ c :: after → (∀ b ∈ before, ∃ v, b.value a.state.store = .ok v) →
        c.value a.state.store = .error f → (Program.ofText text).FaultsWithin code.length a f) ∧
    ∀ c r label code, c.IsLexed → code = ((lines (.compare (Condition.ofChain c) r label)).run n).1 →
      Machine.WrittenAt text k code →
      (∀ v, (Condition.ofChain c).lhs.value a.state.store = .ok v → ∃ m t, code.length = m + 1 ∧
        a.state.store.Kept t ∧
        Goes (.ofText text) m a
          { a with state := { a.state with
            pc := k + m, register := some (v, a.state.store.resolve (Condition.ofChain c).rhs.lexeme), store := t } } ∧
        (Program.ofText text).lines[k + m]? = some (.ok (.jumpIf r label.name))) ∧
      ∀ f, (Condition.ofChain c).lhs.value a.state.store = .error f →
        (Program.ofText text).FaultsWithin code.length a f := by
  refine ⟨fun name cs code hname hcs hlines hcode => ?_, fun c r label code hc hlines hcode => ?_⟩
  · subst hlines
    refine ⟨fun vs hvs => call_prints_values hcode ha hname hcs hvs, ?_⟩
    rintro before c after f rfl hbefore hc
    exact (call_faults hcode ha hname hcs hbefore hc).faultsWithin (List.length_append ▸ Nat.le_add_right ..)
  · subst hlines
    refine ⟨fun v hv => compare_holds_values hcode ha hc hv, fun f hf => ?_⟩
    exact (compare_faults hcode ha hc hf).faultsWithin (List.length_append ▸ Nat.le_add_right ..)

end Text

/-- The lines of `printO(a +. x, a)`, and behind them those of the condition `a +. x <. x`. -/
def sumPrintedAndTested : String :=
  "MOV $t1, a\nADD $t1, x\nCALL printO, $t1, a\nMOV $t2, a\nADD $t2, x\nCMP $t2, x\nJGE L1"

/-- The chain `a +. x`. -/
def sumOfTwo : Chain := ⟨⟨.identifier, "a"⟩, [(.arith .add, ⟨.identifier, "x"⟩)]⟩

theorem scratch_preserves_values_sumPrintedAndTested :
    (∃ t, fiveAndTwo.Kept t ∧ Goes (.ofText sumPrintedAndTested) 3 (.holding fiveAndTwo)
      ⟨⟨3, none, [], t⟩, [], [.print "7 2"]⟩) ∧
    ∃ t, fiveAndTwo.Kept t ∧ Goes (.ofText sumPrintedAndTested) 3 ⟨⟨3, none, [], fiveAndTwo⟩, [], []⟩
      ⟨⟨6, some (.int 7, .int 5), [], t⟩, [], []⟩ := by
  have ha : Operand.IsLexed ⟨.identifier, "a"⟩ :=
    ⟨rfl, ⟨'a', [], by decide, by decide⟩, List.all_eq_true.mp (by decide), by decide +kernel,
      by decide +kernel, by decide⟩
  have hx : Operand.IsLexed ⟨.identifier, "x"⟩ :=
    ⟨rfl, ⟨'x', [], by decide, by decide⟩, List.all_eq_true.mp (by decide), by decide +kernel,
      by decide +kernel, by decide⟩
  have hsum : sumOfTwo.IsLexed := List.forall_mem_cons.mpr ⟨ha, List.forall_mem_singleton.mpr hx⟩
  have hprinted := (scratch_preserves_values (n := 0) (a := .holding fiveAndTwo) rfl).1 "printO"
    [sumOfTwo, ⟨⟨.identifier, "a"⟩, []⟩] _ (by decide)
    (List.forall_mem_cons.mpr ⟨hsum, List.forall_mem_singleton.mpr (List.forall_mem_singleton.mpr ha)⟩) rfl
    (by decide +kernel : Machine.WrittenAt sumPrintedAndTested 0 _)
  have htested := (scratch_preserves_values (n := 1) (a := ⟨⟨3, none, [], fiveAndTwo⟩, [], []⟩) rfl).2
    ⟨⟨.identifier, "a"⟩, [(.arith .add, ⟨.identifier, "x"⟩), (.compare .lt, ⟨.identifier, "x"⟩)]⟩ .ge ⟨1⟩ _
    (List.forall_mem_cons.mpr ⟨ha, List.forall_mem_cons.mpr ⟨hx, List.forall_mem_singleton.mpr hx⟩⟩) rfl
    (by decide +kernel : Machine.WrittenAt sumPrintedAndTested 3 _)
  obtain ⟨t, hkept, hgoes⟩ := hprinted.1 [.int 7, .int 2]
    (.cons (by decide +kernel) (.cons (by decide +kernel) .nil))
  obtain ⟨m, u, hlength, hkept', hgoes', -⟩ := htested.1 (.int 7) (by decide +kernel)
  have hm : m = 3 := Nat.succ.inj hlength.symm
  subst hm
  have hshown : String.intercalate " " ([Value.int 7, .int 2].map Value.display) = "7 2" := by decide +kernel
  rw [hshown] at hgoes
  exact ⟨⟨t, hkept, hgoes⟩, u, hkept', hgoes'⟩

end Dotlang
