import Dotlang.Compilation
import Dotlang.Proofs.Decoding
import Dotlang.Proofs.Emission
import Dotlang.Proofs.Execution
import Dotlang.Proofs.Symbols

/-!
# From the emitter to the machine

The emitter writes names, literals and names of its own making, which all are operands, so the machine
reads the lines that were written.

* `Line.Proper` : the label of a plain name, or an instruction whose words are operands;
* `proper_of_mem_lines` : the lines of an instruction whose parts stand in a source are proper;
* `Analysis.lines` : the assembly of a source, line by line.
-/

namespace Dotlang

open Machine (IsOperand isPlain isOperand_of_form)

/-! ## Words that the emitter writes -/

/-- Tokens that a scanner may have produced. -/
def Scanned (tokens : List Token) : Prop := ∀ t ∈ tokens, Lexer.WellFormed t

theorem scanned_tokenize (source : String) : Scanned (tokenize source) := fun _ h => Lexer.form_of_mem_tokenize h

theorem isPlain_of_mem_toString {n : Nat} {c : Char} (h : c ∈ (toString n).toList) : isPlain c = true := by
  rw [Nat.toString_eq_repr, Nat.toList_repr] at h
  exact Machine.isPlain_of_isDigit (Nat.isDigit_of_mem_toDigits (by decide) (by decide) h)

theorem isPlain_of_mem_labelName {label : Label} {c : Char} (h : c ∈ label.name.toList) : isPlain c = true := by
  rw [Label.name, String.toList_append] at h
  rcases List.mem_append.mp h with h | h
  · rw [List.mem_singleton.mp h]
    decide
  · exact isPlain_of_mem_toString h

theorem isOperand_labelName (label : Label) : IsOperand label.name.toList := by
  refine Or.inl ⟨?_, fun c hc => isPlain_of_mem_labelName hc⟩
  rw [Label.name, String.toList_append]
  exact List.append_ne_nil_of_left_ne_nil (by decide) _

theorem isOperand_newScratch (n : Nat) : IsOperand (Assembly.newScratch.run n).1.toList := by
  have hname : (Assembly.newScratch.run n).1 = "$t" ++ toString (n + 1) := rfl
  rw [hname, String.toList_append]
  refine Or.inl ⟨List.append_ne_nil_of_left_ne_nil (by decide) _, fun c hc => ?_⟩
  rcases List.mem_append.mp hc with hc | hc
  · exact List.all_eq_true.mp (by decide : "$t".toList.all isPlain = true) c hc
  · exact isPlain_of_mem_toString hc

section Words

variable {tokens : List Token} (htokens : Scanned tokens)
include htokens

theorem IdentifierIn.isName {name : String} (h : IdentifierIn tokens name) : Lexer.IsName name.toList := by
  obtain ⟨t, ht, hkind, rfl⟩ := h
  have hform := htokens t ht
  rw [Lexer.WellFormed, hkind] at hform
  exact hform

theorem IdentifierIn.isOperand {name : String} (h : IdentifierIn tokens name) : IsOperand name.toList := by
  have hform : Lexer.Form .identifier name.toList := h.isName htokens
  exact isOperand_of_form rfl hform

/-- The operands of a chain are words of their kinds. -/
theorem Chain.ReadIn.form {c : Chain} (h : c.ReadIn tokens) {o : Operand} (ho : o ∈ c.operands) :
    o.kind.isOperand = true ∧ Lexer.Form o.kind o.lexeme.toList := by
  obtain ⟨ts, hts, hc⟩ := h
  obtain ⟨t, ht, hkind, rfl⟩ := Chain.exists_of_mem_operands hc ho
  exact ⟨hkind, htokens t (hts.subset ht)⟩

theorem Chain.ReadIn.isOperand {c : Chain} (h : c.ReadIn tokens) {o : Operand} (ho : o ∈ c.operands) :
    IsOperand o.lexeme.toList := isOperand_of_form (h.form htokens ho).1 (h.form htokens ho).2

end Words

theorem isOperand_typeWord (t : DataType) : IsOperand t.word.toList := by
  cases t <;> exact Or.inl ⟨by decide, List.all_eq_true.mp (by decide)⟩

theorem isOperand_keywordWord {k : Keyword} (h : k ∈ Keyword.callable) : IsOperand k.word.toList := by
  have hcallable : ∀ k ∈ Keyword.callable, k.word.toList ≠ [] ∧ k.word.toList.all isPlain = true := by decide
  exact Or.inl ⟨(hcallable k h).1, List.all_eq_true.mp (hcallable k h).2⟩

/-! ## Lines that the emitter writes -/

namespace Assembly

namespace Line

/-- The label of a plain name, or an instruction whose words are operands. -/
def Proper (l : Line) : Prop :=
  (∃ name, l = label name ∧ ∀ c ∈ name.toList, isPlain c = true) ∨
    ∃ op ws, l.instruction? = some (op, ws) ∧ ∀ w ∈ ws, IsOperand w.toList

theorem Proper.readable {l : Line} (h : l.Proper) : l.Readable := by
  rcases h with ⟨name, rfl, hname⟩ | ⟨op, ws, hl, hws⟩
  · exact readable_label hname
  · exact readable_instruction hl hws

end Line

theorem proper_accumulate {target : String} {c : Chain} (htarget : IsOperand target.toList)
    (hc : ∀ o ∈ c.operands, IsOperand o.lexeme.toList) {l : Line} (h : l ∈ accumulate target c) : l.Proper := by
  rcases List.mem_cons.mp h with rfl | h
  · refine Or.inr ⟨_, _, rfl, List.forall_mem_cons.mpr ⟨htarget, List.forall_mem_singleton.mpr ?_⟩⟩
    exact hc _ List.mem_cons_self
  · obtain ⟨⟨op, o⟩, hmem, rfl⟩ := List.mem_map.mp h
    refine Or.inr ⟨_, _, rfl, List.forall_mem_cons.mpr ⟨htarget, List.forall_mem_singleton.mpr ?_⟩⟩
    exact hc o (List.mem_cons_of_mem _ (List.mem_map_of_mem hmem))

theorem proper_operand {c : Chain} (hc : ∀ o ∈ c.operands, IsOperand o.lexeme.toList) (n : Nat) :
    (∀ l ∈ ((operand c).run n).1.1, l.Proper) ∧ IsOperand ((operand c).run n).1.2.toList := by
  unfold operand
  split
  · exact ⟨fun l hl => absurd hl List.not_mem_nil, hc _ List.mem_cons_self⟩
  · exact ⟨fun l hl => proper_accumulate (isOperand_newScratch n) hc hl, isOperand_newScratch n⟩

/-- The words of an argument are operands. -/
def ArgumentWords (a : Argument) : Prop :=
  match a with
  | .value c => ∀ o ∈ c.operands, IsOperand o.lexeme.toList
  | .type word => IsOperand word.toList

theorem proper_operands {args : List Argument} (h : ∀ a ∈ args, ArgumentWords a) (n : Nat) :
    (∀ l ∈ ((operands args).run n).1.1, l.Proper) ∧ ∀ w ∈ ((operands args).run n).1.2, IsOperand w.toList := by
  induction args generalizing n with
  | nil => exact ⟨fun l hl => absurd hl List.not_mem_nil, fun w hw => absurd hw List.not_mem_nil⟩
  | cons a args ih =>
    obtain ⟨ha, hargs⟩ := List.forall_mem_cons.mp h
    cases a with
    | type word =>
      obtain ⟨hlines, hwords⟩ := ih hargs n
      exact ⟨hlines, List.forall_mem_cons.mpr ⟨ha, hwords⟩⟩
    | value c =>
      obtain ⟨hbefore, hfirst⟩ := proper_operand ha n
      obtain ⟨hlines, hwords⟩ := ih hargs ((operand c).run n).2
      refine ⟨fun l hl => ?_, List.forall_mem_cons.mpr ⟨hfirst, hwords⟩⟩
      exact (List.mem_append.mp hl).elim (hbefore l) (hlines l)

theorem proper_bindAll {params : List String} {args : List Argument} (hparams : ∀ p ∈ params, IsOperand p.toList)
    (hargs : ∀ a ∈ args, ArgumentWords a) {l : Line} (h : l ∈ bindAll params args) : l.Proper := by
  induction params generalizing args with
  | nil => simp [bindAll] at h
  | cons param params ih =>
    obtain ⟨hparam, hparams⟩ := List.forall_mem_cons.mp hparams
    have hmove : ∀ w : String, IsOperand w.toList → (Line.move param w).Proper := fun w hw =>
      Or.inr ⟨_, _, rfl, List.forall_mem_cons.mpr ⟨hparam, List.forall_mem_singleton.mpr hw⟩⟩
    rcases List.mem_append.mp h with h | h
    · cases args with
      | nil =>
        rw [List.mem_singleton.mp h]
        exact hmove "0" (Or.inl ⟨by decide, List.all_eq_true.mp (by decide)⟩)
      | cons a args =>
        have ha := hargs a List.mem_cons_self
        cases a with
        | value c => exact proper_accumulate hparam ha h
        | type word =>
          rw [List.mem_singleton.mp h]
          exact hmove word ha
    · exact ih hparams (fun a ha => hargs a (List.mem_of_mem_tail ha)) h

end Assembly

/-! ## Lines of a source -/

namespace Condition

theorem operands_split (terms : List (Operator × Operand)) :
    (∀ o ∈ (split terms).1.map Prod.snd, o ∈ terms.map Prod.snd) ∧
      ((split terms).2.2 ∈ terms.map Prod.snd ∨ (split terms).2.2 = zero) := by
  induction terms with
  | nil => exact ⟨fun o ho => absurd ho List.not_mem_nil, Or.inr rfl⟩
  | cons term terms ih =>
    obtain ⟨op, operand⟩ := term
    obtain ⟨hlhs, hrhs⟩ := ih
    rw [split]
    split
    · refine ⟨fun o ho => ?_, hrhs.imp_left (List.mem_cons_of_mem _)⟩
      rcases List.mem_cons.mp ho with rfl | ho
      · exact List.mem_cons_self
      · exact List.mem_cons_of_mem _ (hlhs o ho)
    · exact ⟨fun o ho => absurd ho List.not_mem_nil, Or.inl List.mem_cons_self⟩

theorem mem_operands_of_lhs {c : Chain} {o : Operand} (h : o ∈ (ofChain c).lhs.operands) : o ∈ c.operands := by
  rcases List.mem_cons.mp h with rfl | h
  · exact List.mem_cons_self
  · exact List.mem_cons_of_mem _ ((operands_split c.rest).1 o h)

theorem rhs_ofChain (c : Chain) : (ofChain c).rhs ∈ c.operands ∨ (ofChain c).rhs = zero :=
  (operands_split c.rest).2.imp_left (List.mem_cons_of_mem _)

end Condition

section Source

variable {tokens : List Token} (htokens : Scanned tokens)
include htokens

theorem Argument.ReadIn.words {a : Argument} (h : a.ReadIn tokens) : Assembly.ArgumentWords a := by
  cases a with
  | value c => exact fun o ho => Chain.ReadIn.isOperand htokens h ho
  | type word =>
    obtain ⟨t, ht, hkind, rfl⟩ := h
    have hform := htokens t ht
    rw [Lexer.WellFormed, hkind] at hform
    obtain ⟨type, htype⟩ := hform
    show IsOperand t.lexeme.toList
    rw [htype]
    exact isOperand_typeWord type

theorem AssignedIn.proper {name : String} {c : Chain} (h : AssignedIn tokens name c) {l : Assembly.Line}
    (hl : l ∈ Assembly.accumulate name c) : l.Proper :=
  Assembly.proper_accumulate (h.target.isOperand htokens) (fun _ ho => h.readIn.isOperand htokens ho) hl

/-- The lines of an instruction that a statement of the source yields are proper. -/
theorem proper_of_yields {builtins : List String} {s : Statement} (hs : s.ReadIn tokens) {i : Instruction}
    (hi : s.Yields (SymbolTable.ofTokens tokens builtins) i) (n : Nat) {l : Assembly.Line}
    (hl : l ∈ ((Assembly.lines i).run n).1) : l.Proper := by
  have hnil : ∀ {l : Assembly.Line}, l ∈ ([] : List Assembly.Line) → l.Proper := fun h => absurd h List.not_mem_nil
  cases hi with
  | declare hvalue => exact (hs.2 _ hvalue).proper htokens hl
  | assign => exact (hs _ rfl).proper htokens hl
  | @call pos name args builtin =>
    obtain ⟨hname, hargs⟩ := hs
    have hwords : ∀ a ∈ args, Assembly.ArgumentWords a := fun a ha => (hargs a ha).words htokens
    cases builtin with
    | true =>
      obtain ⟨k, hk, rfl⟩ : ∃ k ∈ Keyword.callable, name = k.word := hname
      obtain ⟨hbefore, hoperands⟩ := Assembly.proper_operands hwords n
      rcases List.mem_append.mp hl with hl | hl
      · exact hbefore l hl
      · rw [List.mem_singleton.mp hl]
        exact Or.inr ⟨_, _, rfl, List.forall_mem_cons.mpr ⟨isOperand_keywordWord hk, hoperands⟩⟩
    | false =>
      have hparams : ∀ p ∈ (SymbolTable.ofTokens tokens builtins).params name, IsOperand p.toList :=
        fun p hp => (identifierIn_of_mem_params hp).isOperand htokens
      rcases List.mem_append.mp hl with hl | hl
      · exact Assembly.proper_bindAll hparams hwords hl
      · rw [List.mem_singleton.mp hl]
        have hname : IdentifierIn tokens name := hname
        exact Or.inr ⟨_, _, rfl, List.forall_mem_singleton.mpr (hname.isOperand htokens)⟩
  | functionBegin | functionEnd => exact hnil hl
  | @test _ c jump label hc =>
    have hoperands : ∀ o ∈ c.operands, IsOperand o.lexeme.toList :=
      fun o ho => Chain.ReadIn.isOperand htokens (hs.of_mem_conds hc) ho
    have hrhs : IsOperand (Condition.ofChain c).rhs.lexeme.toList := by
      rcases Condition.rhs_ofChain c with h | h
      · exact hoperands _ h
      · rw [h]
        exact Or.inl ⟨by decide, List.all_eq_true.mp (by decide)⟩
    obtain ⟨hbefore, hleft⟩ := Assembly.proper_operand (c := (Condition.ofChain c).lhs)
      (fun o ho => hoperands o (Condition.mem_operands_of_lhs ho)) n
    rcases List.mem_append.mp hl with hl | hl
    · exact hbefore l hl
    · rcases List.mem_cons.mp hl with rfl | hl
      · exact Or.inr ⟨_, _, rfl, List.forall_mem_cons.mpr ⟨hleft, List.forall_mem_singleton.mpr hrhs⟩⟩
      · rw [List.mem_singleton.mp hl]
        exact Or.inr ⟨_, _, rfl, List.forall_mem_singleton.mpr (isOperand_labelName _)⟩
  | init hvalue => exact ((hs.1 _ rfl).2 _ hvalue).proper htokens hl
  | @step pos init cond step body i hstep =>
    have hread : step.ReadIn tokens := hs.2.2 _ rfl
    cases step with
    | assign target value =>
      obtain ⟨c, hc, rfl⟩ := Instruction.mem_ofValue? hstep
      exact (hread c hc).proper htokens hl
    | compound target op operand =>
      obtain ⟨a, o, b, hin, hkind, rfl, -, -, hb, rfl⟩ := hread
      have ha : IdentifierIn tokens a.lexeme := ⟨a, hin.subset (by simp), hkind, rfl⟩
      have hb : IsOperand b.operand.lexeme.toList := isOperand_of_form hb (htokens b (hin.subset (by simp)))
      rw [List.mem_singleton.mp hstep] at hl
      rw [List.mem_singleton.mp hl]
      exact Or.inr ⟨_, _, rfl, List.forall_mem_cons.mpr ⟨ha.isOperand htokens, List.forall_mem_singleton.mpr hb⟩⟩
  | jump =>
    rw [List.mem_singleton.mp hl]
    exact Or.inr ⟨_, _, rfl, List.forall_mem_singleton.mpr (isOperand_labelName _)⟩
  | label =>
    rw [List.mem_singleton.mp hl]
    exact Or.inl ⟨_, rfl, fun c hc => isPlain_of_mem_labelName hc⟩

end Source

theorem proper_of_mem_assemble {tokens : List Token} (htokens : Scanned tokens) {builtins : List String}
    {l : Assembly.Line}
    (h : l ∈ Assembly.assemble (lower (SymbolTable.ofTokens tokens builtins) (parse tokens).body)) : l.Proper := by
  obtain rfl | ⟨name, hname, rfl⟩ | ⟨i, hi, n, hl⟩ := Assembly.mem_assemble h
  · exact Or.inr ⟨_, _, rfl, fun w hw => absurd hw List.not_mem_nil⟩
  · obtain ⟨s, hs, hyields⟩ := exists_yields_of_mem_lower hname
    refine Or.inl ⟨name, rfl, fun c hc => ?_⟩
    have hread := readIn_of_mem_parse tokens hs
    cases hyields with
    | functionBegin =>
      rcases hread with rfl | hread
      · exact absurd hc List.not_mem_nil
      · exact Machine.isPlain_of_isWordChar ((hread.isName htokens).chars c hc)
    | step hstep =>
      rename_i step _
      cases step <;> simp [Instruction.ofStep, Instruction.ofValue?] at hstep
  · obtain ⟨s, hs, hyields⟩ := exists_yields_of_mem_lower hi
    exact proper_of_yields htokens (readIn_of_mem_parse tokens hs) hyields n hl

/-- The assembly of a source, line by line. -/
def Analysis.lines (a : Analysis) : List Assembly.Line := Assembly.assemble (lower a.symbols a.body)

theorem Analysis.assembly_code (a : Analysis) : a.code.assembly = Assembly.text a.lines := rfl

theorem proper_of_mem_lines {source : String} {l : Assembly.Line} (h : l ∈ (analyze source).lines) : l.Proper :=
  proper_of_mem_assemble (scanned_tokenize source) h

/-- What the machine loads. A text without lines is one blank line. -/
def Analysis.loaded (a : Analysis) : List Assembly.Line := if a.lines = [] then [.blank] else a.lines

/-- Where a line other than a blank one is loaded, the loaded lines are those of the assembly. -/
theorem Analysis.loaded_eq_lines {a : Analysis} {k : Nat} {l : Assembly.Line} (h : a.loaded[k]? = some l)
    (hl : l ≠ .blank) : a.loaded = a.lines := by
  unfold Analysis.loaded at h ⊢
  split_ifs at h ⊢
  · exact absurd (List.mem_singleton.mp (List.mem_of_getElem? h)) hl
  · rfl

theorem ofText_analyze (source : String) :
    Machine.Program.ofText (analyze source).code.assembly = Machine.Program.ofLines (analyze source).loaded := by
  rw [Analysis.assembly_code, Analysis.loaded]
  split
  · rename_i hnil
    rw [hnil]
    rfl
  · rename_i hne
    exact Machine.ofText_text hne fun _ hl => (proper_of_mem_lines hl).readable

namespace Machine

open Assembly (Line)

theorem mem_labels_ofLines {lines : List Line} {name : String} {i : Nat} :
    (name, i) ∈ (Program.ofLines lines).labels ↔ lines[i]? = some (.label name) := by
  rw [Program.ofLines, List.mem_reverse, List.mem_filterMap]
  constructor
  · rintro ⟨⟨decoded, j⟩, hmem, hlabel⟩
    have hline := List.mem_zipIdx_iff_getElem?.mp hmem
    rw [List.getElem?_map, Option.map_eq_some_iff] at hline
    obtain ⟨l, hl, rfl⟩ := hline
    cases l <;> simp only [Program.label?, Option.some.injEq, Prod.mk.injEq, reduceCtorEq] at hlabel
    obtain ⟨rfl, rfl⟩ := hlabel
    exact hl
  · intro h
    refine ⟨(.ok (.label name), i), List.mem_zipIdx_iff_getElem?.mpr ?_, rfl⟩
    rw [List.getElem?_map, h, Option.map_some]

theorem lines_ofLines {lines : List Line} {k : Nat} {l : Line} :
    (Program.ofLines lines).lines[k]? = some (.ok l) ↔ lines[k]? = some l := by
  rw [Program.ofLines, List.getElem?_toArray, List.getElem?_map, Option.map_eq_some_iff]
  constructor
  · rintro ⟨l', hl', heq⟩
    rwa [Except.ok.inj heq] at hl'
  · intro hl
    exact ⟨l, hl, rfl⟩

theorem step_ofLines {lines : List Line} {s : State} {l : Line} (h : lines[s.pc]? = some l) :
    (Program.ofLines lines).step s = (Program.ofLines lines).execute { s with pc := s.pc + 1 } l := by
  have hline : (Program.ofLines lines).lines[s.pc]? = some (.ok l) := by
    rw [Program.ofLines, List.getElem?_toArray, List.getElem?_map, h, Option.map_some]
  rw [Program.step, hline]

theorem step_ofLines_none {lines : List Line} {s : State} (h : lines[s.pc]? = none) :
    (Program.ofLines lines).step s = .halt := by
  have hline : (Program.ofLines lines).lines[s.pc]? = none := by
    rw [Program.ofLines, List.getElem?_toArray, List.getElem?_map, h, Option.map_none]
  rw [Program.step, hline]

/-- The faults of lines that need no decoding. -/
theorem fault_of_run_ofLines {lines : List Line} {budget : Nat} {replies : List (Option String)} {f : Fault}
    (h : (((Program.ofLines lines).run budget).replay replies).result = .error f) :
    (∃ name, f = .unresolvedLabel name) ∨ f = .stepBudgetExceeded budget ∨
      ∃ s op target source, (Program.ofLines lines).Reachable s ∧ lines[s.pc]? = some (.arith op target source) ∧
        (s.store.get target).apply op (s.store.resolve source) = .error f := by
  obtain hf | hf | ⟨s, hs, hfault⟩ := Program.fault_of_run h
  · exact Or.inl hf
  · exact Or.inr (Or.inl hf)
  · cases hline : lines[s.pc]? with
    | none =>
      rw [step_ofLines_none hline] at hfault
      cases hfault
    | some l =>
      rw [step_ofLines hline] at hfault
      obtain hf | ⟨op, target, source, rfl, happly⟩ := Program.fault_of_execute hfault
      · exact Or.inl hf
      · exact Or.inr (Or.inr ⟨s, op, target, source, hs, hline, happly⟩)

/-- **The machine reads the assembly of a source as it was emitted.** The text splits into the emitted lines,
every instruction line into its opcode and the words behind it; the labels are the emitted ones. So a run
never meets an unknown instruction or misses an operand. -/
theorem reads_back (source : String) (hne : (analyze source).lines ≠ []) :
    (analyze source).code.assembly.toList.splitOn '\n' = (analyze source).lines.map (fun l => l.render.toList) ∧
    (∀ l ∈ (analyze source).lines, (∃ name, l = .label name) ∨ ∃ op ws, l.instruction? = some (op, ws) ∧
      split (Text.trim l.render.toList) = (op.mnemonic, ws)) ∧
    (Program.ofText (analyze source).code.assembly).lines = ((analyze source).lines.map Except.ok).toArray ∧
    (∀ name i, (name, i) ∈ (Program.ofText (analyze source).code.assembly).labels ↔
      (analyze source).lines[i]? = some (.label name)) ∧
    ∀ budget replies f, ((run (analyze source).code.assembly budget).replay replies).result = .error f →
      (∀ line, f ≠ .unknownInstruction line) ∧ ∀ op, f ≠ .missingOperand op := by
  refine ⟨?_, fun l hl => ?_, ?_, fun name i => ?_, fun budget replies f hf => ?_⟩
  · rw [Analysis.assembly_code]
    exact splitOn_text hne fun l hl => (proper_of_mem_lines hl).readable
  · have hproper := proper_of_mem_lines hl
    rcases hproper with ⟨name, rfl, -⟩ | ⟨op, ws, hinstruction, -⟩
    · exact Or.inl ⟨name, rfl⟩
    · have hreadable := (proper_of_mem_lines hl).readable
      refine Or.inr ⟨op, ws, hinstruction, ?_⟩
      rw [Line.trim_render hreadable]
      exact Line.split_render hreadable hinstruction
  · rw [ofText_analyze, Analysis.loaded, if_neg hne, Program.ofLines]
  · rw [ofText_analyze, Analysis.loaded, if_neg hne]
    exact mem_labels_ofLines
  · rw [run, ofText_analyze] at hf
    obtain ⟨name, rfl⟩ | rfl | ⟨s, op, target, source', -, -, happly⟩ := fault_of_run_ofLines hf
    · simp
    · simp
    · obtain rfl | rfl | ⟨text, rfl, -⟩ := Value.fault_of_apply happly <;> simp

theorem reads_back_comma_in_string :
    (analyze "printO(\"a, \\\"b: c\", 1 +. 2);").lines ≠ [] ∧
      (analyze "printO(\"a, \\\"b: c\", 1 +. 2);").code.assembly.toList.splitOn '\n' =
        (analyze "printO(\"a, \\\"b: c\", 1 +. 2);").lines.map (fun l => l.render.toList) := by
  have hne : (analyze "printO(\"a, \\\"b: c\", 1 +. 2);").lines ≠ [] := by decide +kernel
  exact ⟨hne, (reads_back _ hne).1⟩

end Machine

end Dotlang
