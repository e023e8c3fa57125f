import Dotlang.Proofs.Checks

/-!
# Texts stay in text variables

The checks look at neighbouring tokens only, and the machine knows no types. That they fit together is an
invariant of every line by itself, so it does not matter in which order lines are executed.

* `Line.Sound table` : a line that stores texts in variables declared as texts only, and counts with none;
* `sound_of_mem_lines` : the lines of a checked source are sound;
* `texts_are_declared` : every reachable store is typed, and no run faults on a text.
-/

namespace Dotlang

/-! ## Words without texts -/

/-- An operand that has no text as its value in a typed store. -/
def NeverText (table : SymbolTable) (w : String) : Prop :=
  ∀ s : Store, s.Typed table → (s.resolve w).isText = false

/-- A variable declared as a text. -/
def Textual (table : SymbolTable) (name : String) : Prop := ValueType.ofName? table name = some (.data .text)

/-- A chain that can be accumulated: if it has terms at all, nothing in it is a text. -/
structure Countable (table : SymbolTable) (c : Chain) : Prop where
  numeric : c.rest ≠ [] → (ValueType.ofLexeme table c.first.lexeme).isNumeric = true
  first : c.rest ≠ [] → NeverText table c.first.lexeme
  terms : ∀ t ∈ c.rest, NeverText table t.2.lexeme

/-- Arithmetic terms only. -/
def Chain.IsArithmetic (c : Chain) : Prop := ∀ t ∈ c.rest, t.1.isArithmetic = true

instance (c : Chain) : Decidable c.IsArithmetic := inferInstanceAs (Decidable (∀ t ∈ c.rest, t.1.isArithmetic = true))

section Checked

variable {tokens : List Token} {table : SymbolTable} (hcheck : Typing.check table tokens = [])
  (htokens : Scanned tokens)

theorem neverText_of_isNumeric {o : Operand} (hform : o.kind.isOperand = true ∧ Lexer.Form o.kind o.lexeme.toList)
    (h : (ValueType.ofLexeme table o.lexeme).isNumeric = true) : NeverText table o.lexeme := by
  intro s hs
  rw [Bool.eq_false_iff]
  intro htext
  rw [hs.ofLexeme_of_isText hform.1 hform.2 htext] at h
  exact absurd h (by decide)

include hcheck htokens

/-- The arithmetic terms at the start of a chain can be accumulated. -/
theorem Chain.ReadIn.countable {c : Chain} (h : c.ReadIn tokens) {terms : List (Operator × Operand)}
    (hterms : terms <+: c.rest) (harith : ∀ t ∈ terms, t.1.isArithmetic = true) :
    Countable table ⟨c.first, terms⟩ := by
  have hnumeric : terms ≠ [] → (ValueType.ofLexeme table c.first.lexeme).isNumeric = true := by
    intro hne
    obtain ⟨⟨op, o⟩, rest, rfl⟩ := List.exists_cons_of_ne_nil hne
    obtain ⟨more, hmore⟩ := hterms
    cases op with
    | compare r => exact absurd (harith _ List.mem_cons_self) (by simp [Operator.isArithmetic])
    | arith op =>
      have hrest : c.rest = (.arith op, o) :: (rest ++ more) := hmore.symm
      exact Chain.ReadIn.numeric_first hcheck htokens h hrest
  refine ⟨hnumeric, fun hne => ?_, fun t ht => ?_⟩
  · exact neverText_of_isNumeric (h.form htokens List.mem_cons_self) (hnumeric hne)
  · obtain ⟨op, o⟩ := t
    have hmem : (op, o) ∈ c.rest := hterms.subset ht
    cases op with
    | compare r => exact absurd (harith _ ht) (by simp [Operator.isArithmetic])
    | arith op =>
      have hform := h.form htokens (List.mem_cons_of_mem _ (List.mem_map_of_mem (f := Prod.snd) hmem))
      exact neverText_of_isNumeric hform (Chain.ReadIn.numeric_of_mem hcheck h hmem)

end Checked

namespace Condition

theorem split_isPrefix (terms : List (Operator × Operand)) :
    (split terms).1 <+: terms ∧ ∀ t ∈ (split terms).1, t.1.isArithmetic = true := by
  induction terms with
  | nil => exact ⟨List.nil_prefix, fun t ht => absurd ht List.not_mem_nil⟩
  | cons term terms ih =>
    obtain ⟨op, operand⟩ := term
    rw [split]
    split
    · rename_i hop
      refine ⟨List.cons_prefix_cons.mpr ⟨rfl, ih.1⟩, fun t ht => ?_⟩
      rcases List.mem_cons.mp ht with rfl | ht
      · exact hop
      · exact ih.2 t ht
    · exact ⟨List.nil_prefix, fun t ht => absurd ht List.not_mem_nil⟩

end Condition

/-! ## Sound lines -/

namespace Assembly

/-- A line that stores texts in variables declared as texts only, and counts with none. -/
def Line.Sound (table : SymbolTable) : Line → Prop
  | .move target source =>
    ∀ s : Store, s.Typed table → (s.resolve source).isText = true → Textual table target
  | .arith _ target source => ¬ Textual table target ∧ NeverText table source
  | .call name _ => Machine.printNames.contains name = true
  | _ => True

variable {table : SymbolTable}

theorem sound_accumulate {target : String} {c : Chain}
    (hfirst : ∀ s : Store, s.Typed table → (s.resolve c.first.lexeme).isText = true → Textual table target)
    (htarget : c.rest ≠ [] → ¬ Textual table target) (hterms : ∀ t ∈ c.rest, NeverText table t.2.lexeme) {l : Line}
    (hl : l ∈ accumulate target c) : l.Sound table := by
  rcases List.mem_cons.mp hl with rfl | hl
  · exact hfirst
  · obtain ⟨t, ht, rfl⟩ := List.mem_map.mp hl
    exact ⟨htarget (List.ne_nil_of_mem ht), hterms t ht⟩

/-- No source declares a scratch variable. -/
def NoScratch (table : SymbolTable) : Prop := ∀ n, ¬ Textual table (newScratch.run n).1

theorem sound_operand (hscratch : NoScratch table) {c : Chain} (hc : Countable table c) {n : Nat} {l : Line}
    (hl : l ∈ ((operand c).run n).1.1) : l.Sound table := by
  unfold operand at hl
  split at hl
  · exact absurd hl List.not_mem_nil
  · rename_i hsimple
    have hne : c.rest ≠ [] := fun h => hsimple (by rw [Chain.isSimple, h, List.isEmpty_nil])
    refine sound_accumulate (fun s hs htext => ?_) (fun _ => hscratch n) hc.terms hl
    rw [hc.first hne s hs] at htext
    cases htext

theorem sound_operands (hscratch : NoScratch table) {args : List Argument}
    (hargs : ∀ c ∈ args.filterMap Argument.chain?, Countable table c) {n : Nat} {l : Line}
    (hl : l ∈ ((operands args).run n).1.1) : l.Sound table := by
  induction args generalizing n with
  | nil => exact absurd hl List.not_mem_nil
  | cons a args ih =>
    cases a with
    | type word => exact ih hargs hl
    | value c =>
      obtain ⟨hc, hargs⟩ := List.forall_mem_cons.mp hargs
      rcases List.mem_append.mp hl with hl | hl
      · exact sound_operand hscratch hc hl
      · exact ih hargs hl

end Assembly

/-! ## Lines of a checked source -/

theorem noScratch_ofTokens {tokens : List Token} (htokens : Scanned tokens) {builtins : List String} :
    Assembly.NoScratch (SymbolTable.ofTokens tokens builtins) := by
  intro n htext
  obtain ⟨s, hs, htype⟩ := Option.map_eq_some_iff.mp htext
  rcases readIn_of_get? hs with hread | ⟨b, -, rfl⟩
  · -- the name of a scratch variable begins as no name can
    obtain ⟨c, cs, hname, hstart⟩ := (hread.1.isName htokens).head
    have hscratch : s.name = "$t" ++ toString (n + 1) := SymbolTable.name_of_get? hs
    rw [hscratch, String.toList_append] at hname
    cases hname
    exact absurd hstart (by decide)
  · simp [Symbol.ofBuiltin] at htype

section Checked

variable {tokens : List Token} {table : SymbolTable} (hcheck : Typing.check table tokens = [])
  (htokens : Scanned tokens) (hscratch : Assembly.NoScratch table)
include hcheck htokens

theorem AssignedIn.sound {name : String} {c : Chain} (h : AssignedIn tokens name c) (harith : c.IsArithmetic)
    {l : Assembly.Line} (hl : l ∈ Assembly.accumulate name c) : l.Sound table := by
  have hname := AssignedIn.checked hcheck h
  have hcountable := Chain.ReadIn.countable hcheck htokens h.readIn List.prefix_rfl harith
  refine Assembly.sound_accumulate (fun s hs htext => ?_) (fun hne htext => ?_) hcountable.terms hl
  · have hform := h.readIn.form htokens (List.mem_cons_self (a := c.first))
    rw [Textual, hname, hs.ofLexeme_of_isText hform.1 hform.2 htext]
  · rw [Textual, hname, Option.some.injEq] at htext
    have hnumeric := hcountable.numeric hne
    rw [htext] at hnumeric
    exact absurd hnumeric (by decide)

include hscratch

/-- The lines of an instruction that a statement of a checked source yields are sound. -/
theorem sound_of_yields {s : Statement} (hs : s.ReadIn tokens)
    (hcall : s.isUserCall = false) (hprompt : s.isCallOf Machine.promptName = false)
    (harith : ∀ c ∈ s.values, c.IsArithmetic) {i : Instruction} (hi : s.Yields table i) {n : Nat}
    {l : Assembly.Line} (hl : l ∈ ((Assembly.lines i).run n).1) : l.Sound table := by
  cases hi with
  | declare hvalue => exact (hs.2 _ hvalue).sound hcheck htokens (harith _ (Option.mem_toList.mpr hvalue)) hl
  | assign => exact (hs _ rfl).sound hcheck htokens (harith _ List.mem_cons_self) hl
  | @call pos name args builtin =>
    obtain ⟨hname, hargs⟩ := hs
    obtain rfl : builtin = true := by simpa [Statement.isUserCall] using hcall
    obtain ⟨k, hk, rfl⟩ : ∃ k ∈ Keyword.callable, name = k.word := hname
    have hcountable : ∀ c ∈ args.filterMap Argument.chain?, Countable table c := by
      intro c hc
      obtain ⟨a, ha, hchain⟩ := List.mem_filterMap.mp hc
      cases a with
      | type word => simp [Argument.chain?] at hchain
      | value c' =>
        cases hchain
        exact Chain.ReadIn.countable hcheck htokens (hargs _ ha) List.prefix_rfl (harith c hc)
    rcases List.mem_append.mp hl with hl | hl
    · exact Assembly.sound_operands hscratch hcountable hl
    · rw [List.mem_singleton.mp hl]
      have hprints : ∀ k ∈ Keyword.callable, k.word ≠ Machine.promptName →
          Machine.printNames.contains k.word = true := by decide
      exact hprints k hk (by simpa [Statement.isCallOf] using hprompt)
  | functionBegin | functionEnd => exact absurd hl List.not_mem_nil
  | @test _ c jump label hc =>
    obtain ⟨hterms, hlhs⟩ := Condition.split_isPrefix c.rest
    have hcountable := Chain.ReadIn.countable hcheck htokens (hs.of_mem_conds hc) hterms hlhs
    rcases List.mem_append.mp hl with hl | hl
    · exact Assembly.sound_operand hscratch hcountable hl
    · rcases List.mem_cons.mp hl with rfl | hl
      · trivial
      · rw [List.mem_singleton.mp hl]
        trivial
  | @init pos d c cond step body hvalue =>
    have hmem := List.mem_append_left (step.bind LoopStep.value?).toList (Option.mem_toList.mpr hvalue)
    exact ((hs.1 _ rfl).2 _ hvalue).sound hcheck htokens (harith _ hmem) hl
  | @step pos init cond step body i hstep =>
    have hread : step.ReadIn tokens := hs.2.2 _ rfl
    cases step with
    | assign target value =>
      obtain ⟨c, rfl, rfl⟩ := Instruction.mem_ofValue? hstep
      have hmem := List.mem_append_right (init.bind Declaration.value).toList (List.mem_singleton_self c)
      exact (hread c rfl).sound hcheck htokens (harith c hmem) hl
    | compound target op operand =>
      obtain ⟨a, o, b, hin, hkind, rfl, hop, hopArith, hb, rfl⟩ := hread
      have ho : o.kind = .operator := by
        have hform := htokens o (hin.subset (by simp))
        rw [Lexer.WellFormed, ← Operator.lexeme_of_ofLexeme? hop] at hform
        exact Lexer.kind_of_form_operator hform
      cases op with
      | compare r => simp [Operator.isArithmetic] at hopArith
      | arith op =>
        obtain ⟨hleft, hright⟩ := operands_checked hcheck hin ho hop
        have haName : IdentifierIn tokens a.lexeme := ⟨a, hin.subset (by simp), hkind, rfl⟩
        rw [List.mem_singleton.mp hstep] at hl
        rw [List.mem_singleton.mp hl]
        refine ⟨fun htext => ?_, neverText_of_isNumeric ⟨hb, htokens b (hin.subset (by simp))⟩ hright⟩
        rw [ofLexeme_of_isName (haName.isName htokens), htext] at hleft
        exact absurd hleft (by decide)
  | jump | label =>
    rw [List.mem_singleton.mp hl]
    trivial

end Checked

/-! ## Runs -/

namespace Machine

open Assembly (Line)

variable {table : SymbolTable}

/-- A sound line keeps a store typed. -/
theorem leads_execute {p : Program} {s : State} {l : Line} (hl : l.Sound table) (hs : s.store.Typed table) :
    Program.Leads (fun t => t.store.Typed table) (p.execute s l) := by
  have hjump : ∀ (t : State) (name : String), t.store.Typed table →
      Program.Leads (fun t => t.store.Typed table) (p.jump t name) := by
    intro t name ht
    unfold Program.jump
    split
    · exact ht
    · trivial
  cases l with
  | blank | label => exact hs
  | move target source => exact hs.set (hl s.store hs)
  | arith op target source =>
    obtain ⟨htarget, hsource⟩ := hl
    rw [Program.execute]
    split
    · rename_i v hv
      have hleft : (s.store.get target).isText = false := by
        rw [Bool.eq_false_iff]
        exact fun htext => htarget (hs.ofName?_of_isText htext)
      refine hs.set fun htext => ?_
      rw [Value.isText_of_apply hleft (hsource s.store hs) hv] at htext
      cases htext
    · trivial
  | compare left right => exact hs
  | jump label => exact hjump s label hs
  | jumpIf relation label =>
    simp only [Program.execute]
    split
    · exact hjump _ label hs
    · exact hs
  | call name args =>
    have hprints : printNames.contains name = true := hl
    simp only [Program.execute, hprints, if_true]
    exact hs
  | ret =>
    simp only [Program.execute]
    split
    · trivial
    · exact hs

theorem typed_of_reachable {lines : List Line} (h : ∀ l ∈ lines, l.Sound table) {s : State}
    (hs : (Program.ofLines lines).Reachable s) : s.store.Typed table := by
  refine hs.invariant (I := fun t => t.store.Typed table) Store.typed_empty fun t ht => ?_
  cases hline : lines[t.pc]? with
  | none =>
    rw [step_ofLines_none hline]
    trivial
  | some l =>
    rw [step_ofLines hline]
    exact leads_execute (h l (List.mem_of_getElem? hline)) ht

/-- Sound lines never count with a text. -/
theorem not_nonNumeric {lines : List Line} (h : ∀ l ∈ lines, l.Sound table) (budget : Nat)
    (replies : List (Option String)) (op : Arith) (text : String) :
    (((Program.ofLines lines).run budget).replay replies).result ≠ .error (.nonNumeric op text) := by
  intro hresult
  obtain ⟨name, hf⟩ | hf | ⟨s, op', target, source, hs, hline, happly⟩ := fault_of_run_ofLines hresult
  · cases hf
  · cases hf
  · have htyped := typed_of_reachable h hs
    obtain ⟨htarget, hsource⟩ : (Line.arith op' target source).Sound table := h _ (List.mem_of_getElem? hline)
    obtain hf | hf | ⟨text', -, hleft | hright⟩ := Value.fault_of_apply happly
    · cases hf
    · cases hf
    · exact htarget (htyped.ofName?_of_isText (by rw [hleft]; rfl))
    · have hnone := hsource s.store htyped
      rw [hright] at hnone
      cases hnone

end Machine

theorem sound_of_mem_loaded {source : String} (hclean : (analyze source).diagnostics = [])
    (hcalls : ∀ s ∈ bodyNodes (analyze source).body, s.isUserCall = false)
    (hprompts : ∀ s ∈ bodyNodes (analyze source).body, s.isCallOf Machine.promptName = false)
    (harith : ∀ s ∈ bodyNodes (analyze source).body, ∀ c ∈ s.values, c.IsArithmetic) :
    ∀ l ∈ (analyze source).loaded, l.Sound (analyze source).symbols := by
  have hcheck : Typing.check (analyze source).symbols (tokenize source) = [] := (List.append_eq_nil_iff.mp hclean).2
  have hscanned := scanned_tokenize source
  intro l hl
  unfold Analysis.loaded at hl
  split at hl
  · rw [List.mem_singleton.mp hl]
    trivial
  · obtain rfl | ⟨name, -, rfl⟩ | ⟨i, hi, n, hl⟩ := Assembly.mem_assemble hl
    · trivial
    · trivial
    · obtain ⟨s, hs, hyields⟩ := exists_yields_of_mem_lower hi
      exact sound_of_yields hcheck hscanned (noScratch_ofTokens hscanned) (readIn_of_mem_parse _ hs) (hcalls s hs)
        (hprompts s hs) (harith s hs) hyields hl

/-- **In a source without diagnostics, prompts, calls of its own functions and comparisons in its values, every
variable that ever holds a text is declared as one.** So no run of it counts with a text. -/
theorem texts_are_declared (source : String) (hclean : (analyze source).diagnostics = [])
    (hcalls : ∀ s ∈ bodyNodes (analyze source).body, s.isUserCall = false)
    (hprompts : ∀ s ∈ bodyNodes (analyze source).body, s.isCallOf Machine.promptName = false)
    (harith : ∀ s ∈ bodyNodes (analyze source).body, ∀ c ∈ s.values, c.IsArithmetic) :
    (∀ s, (Machine.Program.ofText (analyze source).code.assembly).Reachable s →
      ∀ name text, s.store.get? name = some (.str text) →
        ∃ symbol initializer, (analyze source).symbols.get? name = some symbol ∧
          symbol.meaning = .variable (some .text) initializer) ∧
    ∀ budget replies op text,
      ((Machine.run (analyze source).code.assembly budget).replay replies).result ≠ .error (.nonNumeric op text) := by
  have hsound := sound_of_mem_loaded hclean hcalls hprompts harith
  refine ⟨fun s hs name text hget => ?_, fun budget replies op text => ?_⟩
  · rw [ofText_analyze] at hs
    have htextual := Machine.typed_of_reachable hsound hs name text hget
    obtain ⟨symbol, hsymbol, htype⟩ := Option.map_eq_some_iff.mp htextual
    refine ⟨symbol, ?_⟩
    split at htype
    · cases htype
    · rename_i type initializer hmeaning
      cases htype
      exact ⟨initializer, hsymbol, hmeaning⟩
    · cases htype
  · rw [Machine.run, ofText_analyze]
    exact Machine.not_nonNumeric hsound budget replies op text

def greeting : String :=
  "Sring s =. \"a\"; nmb x =. 1 +. 2; wish (x <. 9) \x7b x =. x *. 2; \x7d printO(s, x -. 1);"

theorem texts_are_declared_in_greeting :
    (analyze greeting).diagnostics = [] ∧
      ((Machine.run (analyze greeting).code.assembly 100).replay []).result ≠ .error (.nonNumeric .add "a") := by
  have hclean : (analyze greeting).diagnostics = [] := by decide +kernel
  have htexts := (texts_are_declared greeting hclean (by decide +kernel) (by decide +kernel) (by decide +kernel)).2
  exact ⟨hclean, htexts 100 [] .add "a"⟩

end Dotlang
