import Dotlang.Proofs.Backends
import Dotlang.Proofs.Checks

/-!
# Temporaries and names of the source

The three-address code numbers its temporaries `t1`, `t2` and so on, and a source may use such names as well. Where it
uses none of those that are numbered, every instruction does in three-address code what it does in the source.

* `temporaries` : the names that the code of some instructions gives its temporaries;
* `Instruction.meaning`, `Quad.observe` : what an instruction does to variables, and the values that it compares or
  passes, in the source and in three-address code;
* `alike_quads` : the code of an instruction does what it means, if it reads no temporaries;
* `temporaries_apart_iff` : temporaries are no names of the table, just if they are no names in the source;
* `code_means_source` : so then the code means what the source means.
-/

namespace Dotlang

open ThreeAddress (Quad quads quadsAll Between Apart)
open Store (EqOff)

namespace ThreeAddress

/-! ## Numbers -/

/-- How many temporaries the code of some instructions numbers. -/
def temporaryCount (is : List Instruction) : Nat := ((quadsAll is).run 0).2

/-- The names of the temporaries in the code of some instructions. -/
def temporaries (is : List Instruction) : List String :=
  (List.range (temporaryCount is)).map fun k => "t" ++ toString (k + 1)

theorem mem_temporaries {is : List Instruction} {name : String} :
    name ∈ temporaries is ↔ Between 0 (temporaryCount is) name := by
  unfold temporaries
  rw [List.mem_map]
  constructor
  · rintro ⟨k, hk, rfl⟩
    exact ⟨k + 1, Nat.succ_pos k, List.mem_range.mp hk, rfl⟩
  · rintro ⟨k, hpos, hle, rfl⟩
    refine ⟨k - 1, List.mem_range.mpr (by omega), ?_⟩
    rw [Nat.sub_add_cancel hpos]

theorem le_quads (i : Instruction) (n : Nat) : n ≤ ((quads i).run n).2 := by
  cases i with
  | assign target c => exact le_reduce c n
  | step target op o => exact Nat.le_succ n
  | compare cond relation label => exact le_reduceInPlace cond.lhs n
  | call name args params => exact le_reduceAll args n
  | _ => exact Nat.le_refl n

theorem le_quadsAll (is : List Instruction) (n : Nat) : n ≤ ((quadsAll is).run n).2 := by
  induction is generalizing n with
  | nil => exact Nat.le_refl n
  | cons i is ih => exact (le_quads i n).trans (ih _)

/-- The temporaries of an instruction are among those of the program. -/
theorem le_temporaryCount (before after : List Instruction) (i : Instruction) :
    ((quads i).run (temporaryCount before)).2 ≤ temporaryCount (before ++ i :: after) := by
  unfold temporaryCount
  rw [quadsAll_append]
  exact le_quadsAll after _

/-- An instruction numbers on from those before. -/
theorem temporaryCount_concat (before : List Instruction) (i : Instruction) :
    temporaryCount (before ++ [i]) = ((quads i).run (temporaryCount before)).2 := by
  rw [temporaryCount, quadsAll_append]
  rfl

/-- The code of a program is that of the instructions before, that of an instruction, and that of the instructions after
it, each numbered on from there. -/
theorem generate_split (before after : List Instruction) (i : Instruction) :
    generate (before ++ i :: after) =
      generate before ++ ((quads i).run (temporaryCount before)).1 ++
        ((quadsAll after).run (temporaryCount (before ++ [i]))).1 := by
  rw [temporaryCount_concat]
  exact quads_split rfl

/-! ## What code shows -/

/-- What an instruction of three-address code does to variables, with the values compared or passed until then. -/
def Quad.observe (x : Store × List Value) : Quad → Except Fault (Store × List Value)
  | .compare left right => .ok (x.1, x.2 ++ [x.1.resolve left, x.1.resolve right])
  | .param value => .ok (x.1, x.2 ++ [x.1.resolve value])
  | q => (·, x.2) <$> q.effect x.1

theorem foldlM_observe {qs : List Quad} (h : ∀ q ∈ qs, q.isEffect = true) (s : Store) (shown : List Value) :
    qs.foldlM Quad.observe (s, shown) = (·, shown) <$> qs.foldlM Quad.effect s := by
  induction qs generalizing s with
  | nil => rfl
  | cons q qs ih =>
    obtain ⟨hq, hqs⟩ := List.forall_mem_cons.mp h
    have hfirst : q.observe (s, shown) = (·, shown) <$> q.effect s := by
      cases q <;> first | rfl | cases hq
    rw [List.foldlM_cons, List.foldlM_cons, hfirst, bind_map_left, map_bind]
    exact bind_congr fun s' => ih hqs s'

theorem foldlM_observe_params (addresses : List String) (s : Store) (shown : List Value) :
    (addresses.map Quad.param).foldlM Quad.observe (s, shown) = .ok (s, shown ++ addresses.map s.resolve) := by
  induction addresses generalizing shown with
  | nil => exact congrArg Except.ok (congrArg (s, ·) (List.append_nil shown).symm)
  | cons a addresses ih =>
    rw [List.map_cons, List.foldlM_cons]
    show (addresses.map Quad.param).foldlM Quad.observe (s, shown ++ [s.resolve a]) = _
    rw [ih, List.map_cons, List.append_assoc, List.singleton_append]

end ThreeAddress

/-! ## What instructions mean -/

namespace Instruction

/-- The operands that an instruction reads. Data types among arguments are none. -/
def words : Instruction → List String
  | .assign _ c => c.operands.map Operand.lexeme
  | .step target _ o => [target, o.lexeme]
  | .compare cond _ _ => cond.rhs.lexeme :: cond.lhs.operands.map Operand.lexeme
  | .call _ args _ => (args.filter fun a => a.chain?.isSome).flatMap Argument.words
  | _ => []

/-- What an instruction does to the variables, with the values that it compares or passes. -/
def meaning (s : Store) : Instruction → Except Fault (Store × List Value)
  | .assign target c => do return (s.set target (← c.value s), [])
  | .step target op o => do
    return (s.set target (← (s.resolve target).apply op.accumulator (s.resolve o.lexeme)), [])
  | .compare cond _ _ => do return (s, [← cond.lhs.value s, s.resolve cond.rhs.lexeme])
  | .call _ args _ => do return (s, ← evaluateAll s (args.filter fun a => a.chain?.isSome))
  | _ => return (s, [])

end Instruction

/-- The same values are shown, and the variables differ in hidden names only. -/
def ShownAlike (hidden : String → Prop) (x y : Store × List Value) : Prop := EqOff hidden x.1 y.1 ∧ x.2 = y.2

namespace ThreeAddress

theorem isEffect_reduce (c : Chain) (n : Nat) : ∀ q ∈ ((reduce c).run n).1.1, q.isEffect = true :=
  isEffect_reduceTerms c.rest c.first.lexeme n

/-! ## Code and meaning -/

section Code

variable {n N : Nat} (s : Store)

theorem alike_quads_assign {target : String} {c : Chain} (hN : ((quads (.assign target c)).run n).2 ≤ N)
    (hc : ∀ o ∈ c.operands, Apart n N o.lexeme) :
    Alike (ShownAlike (Between n N)) (Instruction.meaning s (.assign target c))
      (((quads (.assign target c)).run n).1.foldlM Quad.observe (s, [])) := by
  have hreduce := alike_reduce_between hN hc s
  show Alike _ (c.value s >>= fun v => .ok (s.set target v, []))
    ((((reduce c).run n).1.1 ++ [Quad.assign ((reduce c).run n).1.2 target]).foldlM Quad.observe (s, []))
  rw [List.foldlM_append, foldlM_observe (isEffect_reduce c n), bind_map_left]
  refine hreduce.bind fun v s' hv => ⟨?_, rfl⟩
  show EqOff _ (s.set target v) (s'.set target (s'.resolve _))
  rw [hv.2]
  exact hv.1.set target v

theorem alike_quads_step {target : String} {op : Operator} {o : Operand} (hN : n + 1 ≤ N) (ho : Apart n N o.lexeme) :
    Alike (ShownAlike (Between n N)) (Instruction.meaning s (.step target op o))
      (((quads (.step target op o)).run n).1.foldlM Quad.observe (s, [])) := by
  have hreads := reads_temporary (n + 1)
  have hbetween := between_next hN
  show Alike _ ((s.resolve target).apply op.accumulator (s.resolve o.lexeme) >>= fun v => .ok (s.set target v, []))
    (List.foldlM Quad.observe (s, []) [.assign target ("t" ++ toString (n + 1)),
      .binary op ("t" ++ toString (n + 1)) o.lexeme ("t" ++ toString (n + 1)),
      .assign ("t" ++ toString (n + 1)) target])
  generalize "t" ++ toString (n + 1) = temporary at hreads hbetween
  have hmoved := Store.eqOff_set hbetween s (s.resolve target)
  have hleft : (s.set temporary (s.resolve target)).resolve temporary = s.resolve target := by
    rw [Store.resolve_of_reads hreads, Store.get_set_self]
  rw [hmoved.resolve ho, foldlM_observe (by simp [Quad.isEffect])]
  show Alike _ _ ((·, []) <$> ((Store.set (s.set temporary (s.resolve target)) temporary <$>
    ((s.set temporary (s.resolve target)).resolve temporary).apply op.accumulator (Store.resolve _ o.lexeme)) >>=
      fun s' => .ok (s'.set target (s'.resolve temporary))))
  generalize s.set temporary (s.resolve target) = moved at hmoved hleft ⊢
  rw [hleft, bind_map_left, map_bind]
  refine (Alike.refl _).bind fun v v' hv => ⟨?_, rfl⟩
  subst hv
  show EqOff _ (s.set target v) ((moved.set temporary v).set target (Store.resolve _ temporary))
  rw [Store.resolve_of_reads hreads, Store.get_set_self]
  exact (hmoved.trans (Store.eqOff_set hbetween moved v)).set target v

theorem alike_quads_compare {cond : Condition} {relation : Relation} {label : Label}
    (hN : ((quads (.compare cond relation label)).run n).2 ≤ N) (hlhs : ∀ o ∈ cond.lhs.operands, Apart n N o.lexeme)
    (hrhs : Apart n N cond.rhs.lexeme) :
    Alike (ShownAlike (Between n N)) (Instruction.meaning s (.compare cond relation label))
      (((quads (.compare cond relation label)).run n).1.foldlM Quad.observe (s, [])) := by
  have hreduce := alike_reduceInPlace_between hN hlhs s
  show Alike _ (cond.lhs.value s >>= fun v => .ok (s, [v, s.resolve cond.rhs.lexeme]))
    ((((reduceInPlace cond.lhs).run n).1.1 ++
      [Quad.compare ((reduceInPlace cond.lhs).run n).1.2 cond.rhs.lexeme, .jumpIf relation label.name]).foldlM
        Quad.observe (s, []))
  rw [List.foldlM_append, foldlM_observe (isEffect_reduceInPlace cond.lhs n), bind_map_left]
  refine hreduce.bind fun v s' hv => ⟨hv.1, ?_⟩
  show [v, s.resolve cond.rhs.lexeme] = [s'.resolve _, s'.resolve cond.rhs.lexeme]
  rw [hv.2, hv.1.resolve hrhs]

theorem alike_quads_call {name : String} {args : List Argument} {params : Option (List String)}
    (hN : ((quads (.call name args params)).run n).2 ≤ N)
    (hargs : ∀ a ∈ args, a.chain?.isSome = true → ∀ w ∈ a.words, Apart n N w) :
    Alike (ShownAlike (Between n N)) (Instruction.meaning s (.call name args params))
      (((quads (.call name args params)).run n).1.foldlM Quad.observe (s, [])) := by
  have hreduce := alike_reduceAll_between hN hargs s
  show Alike _ (evaluateAll s (args.filter fun a => a.chain?.isSome) >>= fun vs => .ok (s, vs))
    ((((reduceAll args).run n).1.1 ++ ((reduceAll args).run n).1.2.map Quad.param ++
      [Quad.call name ((reduceAll args).run n).1.2.length]).foldlM Quad.observe (s, []))
  rw [List.append_assoc, List.foldlM_append, foldlM_observe (isEffect_reduceAll args n), bind_map_left]
  refine hreduce.bind fun vs s' hvs => ?_
  rw [List.foldlM_append, foldlM_observe_params]
  exact ⟨hvs.1, hvs.2.symm⟩

/-- **The code of an instruction that reads no temporaries does what it means**, up to the temporaries themselves. -/
theorem alike_quads {i : Instruction} (hN : ((quads i).run n).2 ≤ N) (hwords : ∀ w ∈ i.words, Apart n N w) :
    Alike (ShownAlike (Between n N)) (i.meaning s) (((quads i).run n).1.foldlM Quad.observe (s, [])) := by
  cases i with
  | assign target c =>
    exact alike_quads_assign s hN fun o ho => hwords _ (List.mem_map_of_mem ho)
  | step target op o =>
    exact alike_quads_step s hN (hwords _ (List.mem_cons_of_mem _ List.mem_cons_self))
  | compare cond relation label =>
    obtain ⟨hrhs, hlhs⟩ := List.forall_mem_cons.mp hwords
    exact alike_quads_compare s hN (fun o ho => hlhs _ (List.mem_map_of_mem ho)) hrhs
  | call name args params =>
    refine alike_quads_call s hN fun a ha hchain w hw => hwords w ?_
    exact List.mem_flatMap.mpr ⟨a, List.mem_filter.mpr ⟨ha, hchain⟩, hw⟩
  | _ => exact ⟨.refl _ s, rfl⟩

end Code

end ThreeAddress

/-! ## Sources -/

section Source

variable {tokens : List Token}

/-- The operands of an instruction are operands of the source, but for the zero that a condition is compared with. -/
theorem words_of_yields {table : SymbolTable} {s : Statement} (hs : s.ReadIn tokens) {i : Instruction}
    (hi : s.Yields table i) {w : String} (hw : w ∈ i.words) :
    (∃ t ∈ tokens, t.kind.isOperand = true ∧ t.lexeme = w) ∨ w = Condition.zero.lexeme := by
  have hchain : ∀ {c : Chain}, c.ReadIn tokens → ∀ o ∈ c.operands,
      ∃ t ∈ tokens, t.kind.isOperand = true ∧ t.lexeme = o.lexeme := by
    rintro c ⟨ts, hts, hc⟩ o ho
    obtain ⟨t, ht, hkind, hoperand⟩ := Chain.exists_of_mem_operands hc ho
    exact ⟨t, hts.subset ht, hkind, congrArg Operand.lexeme hoperand⟩
  have hassigned : ∀ {target : String} {c : Chain}, AssignedIn tokens target c →
      w ∈ (Instruction.assign target c).words → ∃ t ∈ tokens, t.kind.isOperand = true ∧ t.lexeme = w := by
    intro target c hc hw
    obtain ⟨o, ho, rfl⟩ := List.mem_map.mp hw
    exact hchain hc.readIn o ho
  cases hi with
  | declare hvalue => exact Or.inl (hassigned (hs.2 _ hvalue) hw)
  | assign => exact Or.inl (hassigned (hs _ rfl) hw)
  | call =>
    obtain ⟨a, ha, hw⟩ := List.mem_flatMap.mp hw
    obtain ⟨ha, hsome⟩ := List.mem_filter.mp ha
    cases a with
    | type word => cases hsome
    | value c =>
      obtain ⟨o, ho, rfl⟩ := List.mem_map.mp hw
      exact Or.inl (hchain (hs.2 _ ha) o ho)
  | functionBegin | functionEnd | jump | label => exact absurd hw List.not_mem_nil
  | @test _ c jump label hc =>
    have hread := hs.of_mem_conds hc
    rcases List.mem_cons.mp hw with rfl | hw
    · rcases Condition.rhs_ofChain c with hrhs | hrhs
      · exact Or.inl (hchain hread _ hrhs)
      · exact Or.inr (by rw [hrhs])
    · obtain ⟨o, ho, rfl⟩ := List.mem_map.mp hw
      exact Or.inl (hchain hread o (Condition.mem_operands_of_lhs ho))
  | init hvalue => exact Or.inl (hassigned ((hs.1 _ rfl).2 _ hvalue) hw)
  | @step pos init cond step body i hstep =>
    have hread : step.ReadIn tokens := hs.2.2 _ rfl
    cases step with
    | assign target value =>
      obtain ⟨c, hc, rfl⟩ := Instruction.mem_ofValue? hstep
      exact Or.inl (hassigned (hread c hc) hw)
    | compound target op operand =>
      obtain ⟨a, o, b, hin, hkind, rfl, -, -, hb, rfl⟩ := hread
      rw [List.mem_singleton.mp hstep] at hw
      rcases List.mem_cons.mp hw with rfl | hw
      · exact Or.inl ⟨a, hin.subset (by simp), by rw [hkind]; rfl, rfl⟩
      · rw [List.mem_singleton.mp hw]
        exact Or.inl ⟨b, hin.subset (by simp), hb, rfl⟩

theorem apart_of_word (htokens : Scanned tokens) {n N : Nat}
    (hnames : ∀ t ∈ tokens, t.kind = .identifier → ¬ Between 0 N t.lexeme) {w : String}
    (hw : (∃ t ∈ tokens, t.kind.isOperand = true ∧ t.lexeme = w) ∨ w = Condition.zero.lexeme) : Apart n N w := by
  intro name hreads hbetween
  rcases hw with ⟨t, ht, hkind, rfl⟩ | rfl
  · obtain ⟨rfl, hidentifier⟩ := eq_of_reads htokens ht hkind hreads
    exact hnames t ht hidentifier (hbetween.mono (Nat.zero_le n))
  · obtain ⟨rfl, hliteral⟩ := hreads
    exact absurd hliteral (by decide +kernel)

end Source

/-- The instructions of a source. -/
def Analysis.instructions (a : Analysis) : List Instruction := lower a.symbols a.body

open ThreeAddress (temporaries temporaryCount mem_temporaries)

/-- A built-in function is no temporary. -/
theorem not_mem_temporaries_of_builtin {is : List Instruction} {name : String} (hname : name ∈ builtinNames) :
    name ∉ temporaries is := by
  intro hmem
  obtain ⟨k, -, -, rfl⟩ := mem_temporaries.mp hmem
  obtain ⟨d, hlast, hdigit⟩ := getLast?_numbered "t" k
  have hnone : ∀ b ∈ builtinNames, (b.toList.getLast?.any Char.isDigit) = false := by decide
  have hfalse := hnone _ hname
  rw [hlast, Option.any_some, hdigit] at hfalse
  cases hfalse

/-- **Temporaries are no names of the table just if they are no names in the source**, where every name is declared. -/
theorem temporaries_apart_iff {source : String} (hclean : (analyze source).diagnostics = [])
    (is : List Instruction) :
    (∀ name ∈ temporaries is, (analyze source).symbols.contains name = false) ↔
      ∀ t ∈ (analyze source).tokens, t.kind = .identifier → t.lexeme ∉ temporaries is := by
  have hcheck : Typing.check (analyze source).symbols (analyze source).tokens = [] :=
    (List.append_eq_nil_iff.mp hclean).2
  constructor
  · intro htable t ht hkind hmem
    have hcontains := contains_of_identifierIn hcheck ⟨t, ht, hkind, rfl⟩
    rw [htable _ hmem] at hcontains
    cases hcontains
  · intro hnames name hmem
    rw [← Bool.not_eq_true]
    intro hcontains
    obtain ⟨s, hs⟩ := Option.isSome_iff_exists.mp hcontains
    rcases readIn_of_get? hs with ⟨⟨t, ht, hkind, hlexeme⟩, -⟩ | ⟨b, hb, hbuiltin⟩
    · rw [SymbolTable.name_of_get? hs] at hlexeme
      exact hnames t ht hkind (hlexeme ▸ hmem)
    · have hname : b = name := by rw [← SymbolTable.name_of_get? hs, hbuiltin]; rfl
      exact not_mem_temporaries_of_builtin (hname ▸ hb) hmem

/-- **Where no name in an accepted source is that of a temporary, the temporaries are no names of its table, and its
three-address code means what the source means.** The code of each instruction stands between the codes of those before
and of those after it, each numbered on from there. Whatever the variables hold, temporaries included, it compares and
passes the values that the instruction means to, and leaves every variable that is no temporary as the instruction means
to, or faults as it does. -/
theorem code_means_source {source : String} (hclean : (analyze source).diagnostics = [])
    (hnames : ∀ t ∈ (analyze source).tokens, t.kind = .identifier →
      t.lexeme ∉ temporaries (analyze source).instructions) :
    (∀ name ∈ temporaries (analyze source).instructions, (analyze source).symbols.contains name = false) ∧
      ∀ before i after, (analyze source).instructions = before ++ i :: after →
        (analyze source).code.threeAddress =
          ThreeAddress.generate before ++ ((quads i).run (temporaryCount before)).1 ++
            ((quadsAll after).run (temporaryCount (before ++ [i]))).1 ∧
        ∀ s : Store, Alike (ShownAlike fun name => name ∈ temporaries (analyze source).instructions) (i.meaning s)
          (((quads i).run (temporaryCount before)).1.foldlM Quad.observe (s, [])) := by
  refine ⟨(temporaries_apart_iff hclean _).mpr hnames, fun before i after hsplit => ⟨?_, fun s => ?_⟩⟩
  · show ThreeAddress.generate (analyze source).instructions = _
    rw [hsplit]
    exact ThreeAddress.generate_split before after i
  · have hi : i ∈ (analyze source).instructions := hsplit ▸ List.mem_append_right before List.mem_cons_self
    obtain ⟨statement, hstatement, hyields⟩ := exists_yields_of_mem_lower hi
    have hread := readIn_of_mem_parse (tokenize source) hstatement
    have hapart : ∀ w ∈ i.words,
        Apart (temporaryCount before) (temporaryCount (analyze source).instructions) w := fun w hw =>
      apart_of_word (scanned_tokenize source) (fun t ht hkind hbetween =>
        hnames t ht hkind (mem_temporaries.mpr hbetween)) (words_of_yields hread hyields hw)
    have hcount : ((quads i).run (temporaryCount before)).2 ≤ temporaryCount (analyze source).instructions := by
      rw [hsplit]
      exact ThreeAddress.le_temporaryCount before after i
    refine (ThreeAddress.alike_quads s hcount hapart).mono fun x y hxy => ⟨hxy.1.mono fun name hname => ?_, hxy.2⟩
    exact mem_temporaries.mpr (hname.mono (Nat.zero_le _))

/-- The variable `t3` beside two temporaries. -/
def besideTemporaries : String := "nmb t3 =. 5; nmb x =. t3 +. 2 *. t3; printO(t3, x);"

theorem code_means_source_besideTemporaries :
    (analyze besideTemporaries).diagnostics = [] ∧
      temporaries (analyze besideTemporaries).instructions = ["t1", "t2"] ∧
      (analyze besideTemporaries).symbols.contains "t2" = false := by
  have hclean : (analyze besideTemporaries).diagnostics = [] := by decide +kernel
  have hmade : temporaries (analyze besideTemporaries).instructions = ["t1", "t2"] := by decide +kernel
  have hnames : ∀ t ∈ (analyze besideTemporaries).tokens, t.kind = .identifier →
      t.lexeme ∉ temporaries (analyze besideTemporaries).instructions := by
    rw [hmade]
    decide +kernel
  refine ⟨hclean, hmade, (code_means_source hclean hnames).1 "t2" ?_⟩
  rw [hmade]
  decide

/-- A variable called as the first temporary. -/
def namedLikeTemporary : String := "nmb t1 =. 5; nmb x =. t1 +. 2; printO(t1);"

/-- **A variable that is called as a temporary is overwritten**: the three-address code prints another value of it than
the assembly. -/
theorem temporary_overwrites_variable :
    (analyze namedLikeTemporary).diagnostics = [] ∧
      temporaries (analyze namedLikeTemporary).instructions = ["t1"] ∧
      (analyze namedLikeTemporary).symbols.contains "t1" = true ∧
      (analyze namedLikeTemporary).code.threeAddress =
        [.assign "5" "t1", .binary (.arith .add) "t1" "2" "t1", .assign "t1" "x", .param "t1", .call "printO" 1] ∧
      ThreeAddress.run (analyze namedLikeTemporary).code.threeAddress 6 = some (["7"], .ok ()) ∧
      ((Machine.run (analyze namedLikeTemporary).code.assembly 5).replay []).events = [.print "5"] := by
  decide +kernel

end Dotlang
