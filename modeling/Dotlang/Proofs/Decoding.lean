import Dotlang.Machine.Program
import Dotlang.Proofs.Lexemes

/-!
# Decoding what was rendered

* `IsOperand` : a word that an operand list gives back whole;
* `Line.instruction?` : the opcode of a line and the words written after it;
* `Line.Readable` : a line whose words are operands, or whose label is a plain name;
* `split_render`, `decode_render` : the machine reads a readable line as it was written;
* `lines_ofText` : loading the text of readable lines gives those lines.
-/

namespace Dotlang.Machine

open Text (isBlank isWordChar trim trimStart trimEnd withoutComma dropTrailing)
open Lexer (Quotable Form)
open Assembly (Line)

/-! ## Words -/

/-- A character that may stand anywhere in a name or a number. -/
def isPlain (c : Char) : Bool := !isBlank c && c != ',' && c != '"' && c != ':'

/-- Plain characters, or a string. -/
def IsOperand (w : List Char) : Prop :=
  (w ≠ [] ∧ ∀ c ∈ w, isPlain c = true) ∨ ∃ body, Quotable body ∧ w = '"' :: (body ++ ['"'])

theorem isPlain_iff {c : Char} :
    isPlain c = true ↔ isBlank c = false ∧ c ≠ ',' ∧ c ≠ '"' ∧ c ≠ ':' := by
  simp [isPlain, and_assoc]

theorem isPlain_of_isWordChar {c : Char} (h : isWordChar c = true) : isPlain c = true := by
  have hrange : c.toNat = 95 ∨ 48 ≤ c.toNat ∧ c.toNat ≤ 57 ∨ 65 ≤ c.toNat ∧ c.toNat ≤ 90 ∨
      97 ≤ c.toNat ∧ c.toNat ≤ 122 := by
    simp only [isWordChar, Char.isAlphanum, Char.isAlpha, Char.isUpper, Char.isLower, Char.isDigit,
      Bool.or_eq_true, Bool.and_eq_true, decide_eq_true_eq, beq_iff_eq, ge_iff_le, UInt32.le_iff_toNat_le,
      Char.toNat] at h ⊢
    rcases h with ((h | h) | h) | rfl
    · exact Or.inr (Or.inr (Or.inl h))
    · exact Or.inr (Or.inr (Or.inr h))
    · exact Or.inr (Or.inl h)
    · exact Or.inl rfl
  have hne : ∀ d : Char, c.toNat ≠ d.toNat → c ≠ d := fun d hd he => hd (by rw [he])
  refine isPlain_iff.mpr ⟨?_, hne _ ?_, hne _ ?_, hne _ ?_⟩
  · simp only [isBlank, Text.blankRanges, List.any_cons, List.any_nil, Bool.or_false, Bool.or_eq_false_iff,
      Bool.and_eq_false_iff, decide_eq_false_iff_not]
    omega
  all_goals
    simp only [Char.reduceToNat, ne_eq]
    omega

theorem isPlain_of_isDigit {c : Char} (h : c.isDigit = true) : isPlain c = true :=
  isPlain_of_isWordChar (by simp [isWordChar, Char.isAlphanum, h])

theorem Quotable.newline_not_mem {body : List Char} (h : Quotable body) : '\n' ∉ body := by
  induction h with
  | nil => exact List.not_mem_nil
  | plain _ _ hc _ ih => simp [ih, Ne.symm hc]
  | escaped hc _ ih => simp [ih, Ne.symm hc]

theorem newline_not_mem_of_isPlain {w : List Char} (h : ∀ c ∈ w, isPlain c = true) : '\n' ∉ w := by
  intro hn
  have := h _ hn
  revert this
  decide

theorem IsOperand.newline_not_mem {w : List Char} (h : IsOperand w) : '\n' ∉ w := by
  rcases h with ⟨-, hplain⟩ | ⟨body, hbody, rfl⟩
  · exact newline_not_mem_of_isPlain hplain
  · simp [Quotable.newline_not_mem hbody]

theorem IsOperand.ne_nil {w : List Char} (h : IsOperand w) : w ≠ [] := by
  rcases h with ⟨hne, -⟩ | ⟨body, -, rfl⟩
  · exact hne
  · exact List.cons_ne_nil _ _

/-- The ends of an operand are neither blank, comma nor colon. -/
theorem IsOperand.ends {w : List Char} (h : IsOperand w) {c : Char} (hc : w.head? = some c ∨ w.getLast? = some c) :
    isBlank c = false ∧ c ≠ ',' ∧ c ≠ ':' := by
  rcases h with ⟨-, hplain⟩ | ⟨body, -, rfl⟩
  · have hmem : c ∈ w := hc.elim List.mem_of_head? List.mem_of_getLast?
    obtain ⟨h1, h2, -, h3⟩ := isPlain_iff.mp (hplain c hmem)
    exact ⟨h1, h2, h3⟩
  · have hquote : c = '"' := by
      rcases hc with hc | hc
      · simpa using hc.symm
      · rw [← List.cons_append, List.getLast?_concat] at hc
        exact (Option.some.inj hc).symm
    subst hquote
    decide

/-- The words that may stand in a chain are operands. -/
theorem isOperand_of_form {kind : TokenKind} {w : List Char} (hkind : kind.isOperand = true) (h : Form kind w) :
    IsOperand w := by
  cases kind <;> simp only [TokenKind.isOperand, Bool.false_eq_true] at hkind
  case number =>
    have hdigits : ∀ ds, Text.isDigits ds = true → ds ≠ [] ∧ ∀ c ∈ ds, isPlain c = true := by
      intro ds hds
      simp only [Text.isDigits, Bool.and_eq_true, bne_iff_ne, List.all_eq_true] at hds
      exact ⟨hds.1, fun c hc => isPlain_of_isDigit (hds.2 c hc)⟩
    rcases h with h | ⟨whole, fraction, hw, hf, rfl⟩
    · exact Or.inl (hdigits w h)
    · refine Or.inl ⟨by simp, fun c hc => ?_⟩
      rcases List.mem_append.mp hc with hc | hc
      · exact (hdigits whole hw).2 c hc
      · rcases List.mem_cons.mp hc with rfl | hc
        · decide
        · exact (hdigits fraction hf).2 c hc
  case string => exact Or.inr h
  case boolean => rcases h with rfl | rfl <;> exact Or.inl ⟨by decide, List.all_eq_true.mp (by decide)⟩
  case identifier =>
    obtain ⟨c, cs, hw, -⟩ := h.head
    exact Or.inl ⟨by simp [hw], fun d hd => isPlain_of_isWordChar (h.chars d hd)⟩

/-! ## Operand lists -/

theorem foldr_consField (w f : List Char) (fs : List (List Char)) :
    w.foldr consField (f :: fs) = (w ++ f) :: fs := by
  induction w with
  | nil => rfl
  | cons c w ih => rw [List.foldr_cons, ih, consField, List.cons_append]

theorem fields_plain {w : List Char} (h : ∀ c ∈ w, isPlain c = true) (rest : List Char) :
    fields .outside (w ++ rest) = w.foldr consField (fields .outside rest) := by
  induction w with
  | nil => rfl
  | cons c w ih =>
    obtain ⟨-, hcomma, hquote, -⟩ := isPlain_iff.mp (h c List.mem_cons_self)
    rw [List.cons_append, fields, if_neg (by simp [hcomma]), List.foldr_cons, Mode.next, if_neg hquote,
      ih fun d hd => h d (List.mem_cons_of_mem _ hd)]

/-- The machine leaves a string at the quote at which the lexer ended it. -/
theorem fields_quotable {body : List Char} (h : Quotable body) (rest : List Char) :
    fields .inString (body ++ '"' :: rest) = (body ++ ['"']).foldr consField (fields .outside rest) := by
  induction h with
  | nil => simp [fields, Mode.next]
  | plain hquote hescape _ _ ih =>
    rw [List.cons_append, fields, if_neg (by simp), Mode.next, if_neg hquote, if_neg hescape, ih]
    rfl
  | escaped _ _ ih =>
    rw [List.cons_append, List.cons_append, fields, if_neg (by simp), Mode.next, if_neg (by decide), if_pos rfl,
      fields, if_neg (by simp), Mode.next, ih]
    rfl

theorem fields_operand {w : List Char} (h : IsOperand w) (rest : List Char) :
    fields .outside (w ++ rest) = w.foldr consField (fields .outside rest) := by
  rcases h with ⟨-, hplain⟩ | ⟨body, hbody, rfl⟩
  · exact fields_plain hplain rest
  · rw [List.cons_append, List.append_assoc, fields, if_neg (by simp), Mode.next, if_pos rfl]
    exact congrArg (consField '"') (fields_quotable hbody rest)

theorem trim_eq_self {w : List Char} (h : ∀ c, w.head? = some c ∨ w.getLast? = some c → isBlank c = false) :
    trim w = w := by
  have hstart : trimStart w = w := by
    cases w with
    | nil => rfl
    | cons c w => exact List.dropWhile_cons_of_neg (by simp [h c (Or.inl rfl)])
  have hend : trimEnd w = w := by
    unfold trimEnd
    cases hr : w.reverse with
    | nil => simpa using hr.symm
    | cons c r =>
      have hc : isBlank c = false := h c (Or.inr (by rw [List.getLast?_eq_head?_reverse, hr]; rfl))
      rw [List.dropWhile_cons_of_neg (by simp [hc]), ← hr, List.reverse_reverse]
  rw [trim, hstart, hend]

theorem IsOperand.trim_eq {w : List Char} (h : IsOperand w) : trim w = w :=
  trim_eq_self fun _ hc => (h.ends hc).1

theorem trim_space_cons (w : List Char) : trim (' ' :: w) = trim w := by
  rw [trim, trim, trimStart, List.dropWhile_cons_of_pos (by decide), ← trimStart]

/-- Joined operands are read back one by one. -/
theorem trim_fields_intercalate {w : List Char} {ws : List (List Char)} (h : ∀ v ∈ w :: ws, IsOperand v) :
    (fields .outside ([',', ' '].intercalate (w :: ws))).map trim = w :: ws := by
  induction ws generalizing w with
  | nil =>
    have hw := h w List.mem_cons_self
    have hfields := fields_operand hw []
    rw [List.append_nil, fields, foldr_consField, List.append_nil] at hfields
    rw [List.intercalate_singleton, hfields, List.map_singleton, hw.trim_eq]
  | cons v ws ih =>
    have hw := h w List.mem_cons_self
    rw [List.intercalate_cons_cons, List.append_assoc, fields_operand hw]
    have hcomma : ∀ cs, fields .outside ([',', ' '] ++ cs) = [] :: consField ' ' (fields .outside cs) := by
      intro cs
      simp [fields, Mode.next]
    have hrest := ih fun u hu => h u (List.mem_cons_of_mem _ hu)
    rw [hcomma, foldr_consField, List.append_nil, List.map_cons, hw.trim_eq]
    congr 1
    cases hf : fields .outside ([',', ' '].intercalate (v :: ws)) with
    | nil => simp [hf] at hrest
    | cons f fs => rw [hf] at hrest; rwa [consField, List.map_cons, trim_space_cons, ← List.map_cons]

end Dotlang.Machine

/-! ## Lines -/

namespace Dotlang.Assembly.Line

open Text (isBlank trim)
open Machine (IsOperand isPlain split decode ofOperands isBuiltin)

/-- The opcode of an instruction line and the words written after it. -/
def instruction? : Line → Option (Opcode × List String)
  | blank | label _ => none
  | move target source => some (.move, [target, source])
  | arith op target source => some (.arith op, [target, source])
  | compare left right => some (.compare, [left, right])
  | jump target => some (.jump, [target])
  | jumpIf r target => some (.jumpIf r, [target])
  | call name args => some (.call, name :: args)
  | ret => some (.ret, [])

/-- The name on a label line. -/
def labelName? : Line → Option String
  | label name => some name
  | _ => none

/-- The label that a line jumps to or calls. -/
def target? : Line → Option String
  | jump target | jumpIf _ target => some target
  | call name _ => if isBuiltin name then none else some name
  | _ => none

structure Readable (l : Line) : Prop where
  words : ∀ op ws, l.instruction? = some (op, ws) → ∀ w ∈ ws, IsOperand w.toList
  label : ∀ name, l.labelName? = some name → ∀ c ∈ name.toList, isPlain c = true

theorem readable_label {name : String} (h : ∀ c ∈ name.toList, isPlain c = true) : Readable (.label name) :=
  ⟨fun _ _ hi => by simp [instruction?] at hi, fun _ hn => by cases hn; exact h⟩

theorem readable_instruction {l : Line} {op : Opcode} {ws : List String} (hl : l.instruction? = some (op, ws))
    (h : ∀ w ∈ ws, IsOperand w.toList) : Readable l := by
  refine ⟨fun op' ws' hi => ?_, fun name hn => ?_⟩
  · rw [hl] at hi
    cases hi
    exact h
  · cases l <;> simp [labelName?, instruction?] at hn hl

theorem mnemonic_chars (op : Opcode) : ∀ c ∈ op.mnemonic.toList, isBlank c = false ∧ c ≠ ':' := by
  have h : op.mnemonic.toList.all (fun c => !isBlank c && c != ':') = true := by
    cases op with
    | arith op => cases op <;> decide
    | jumpIf r => cases r <;> decide
    | _ => decide
  intro c hc
  simpa using List.all_eq_true.mp h c hc

theorem mnemonic_ne_nil (op : Opcode) : op.mnemonic.toList ≠ [] := by
  cases op with
  | arith op => cases op <;> decide
  | jumpIf r => cases r <;> decide
  | _ => decide

theorem render_of_instruction? {l : Line} {op : Opcode} {w : String} {ws : List String}
    (h : l.instruction? = some (op, w :: ws)) :
    l.render.toList = op.mnemonic.toList ++ ' ' :: [',', ' '].intercalate (w.toList :: ws.map String.toList) := by
  have hrender : l.render = instruction op (w :: ws) := by
    cases l <;> simp only [instruction?, Option.some.injEq, Prod.mk.injEq, reduceCtorEq] at h
    all_goals
      obtain ⟨rfl, hw⟩ := h
      first
        | cases hw; rfl
        | simp at hw
  simp [hrender, instruction]

theorem eq_ret_of_instruction? {l : Line} {op : Opcode} (h : l.instruction? = some (op, [])) :
    l = ret ∧ op = .ret := by
  cases l <;> simp_all [instruction?]

theorem getLast?_intercalate {sep w : List Char} {ws : List (List Char)} {c : Char} (hne : ∀ v ∈ w :: ws, v ≠ [])
    (h : (sep.intercalate (w :: ws)).getLast? = some c) : ∃ v ∈ w :: ws, v.getLast? = some c := by
  induction ws generalizing w with
  | nil => exact ⟨w, List.mem_cons_self, by simpa using h⟩
  | cons v ws ih =>
    have htail : sep.intercalate (v :: ws) ≠ [] := by
      have hv := hne v (by simp)
      cases ws with
      | nil => simpa using hv
      | cons u us => rw [List.intercalate_cons_cons]; simp [hv]
    rw [List.intercalate_cons_cons, List.getLast?_append_of_ne_nil _ htail] at h
    obtain ⟨u, hu, hc⟩ := ih (fun u hu => hne u (List.mem_cons_of_mem _ hu)) h
    exact ⟨u, List.mem_cons_of_mem _ hu, hc⟩

/-- A line begins and ends in characters that trimming keeps, and an instruction ends in no colon. -/
theorem render_ends {l : Line} (h : l.Readable) {op : Opcode} {ws : List String}
    (hl : l.instruction? = some (op, ws)) {c : Char}
    (hc : l.render.toList.head? = some c ∨ l.render.toList.getLast? = some c) :
    isBlank c = false ∧ c ≠ ':' := by
  cases ws with
  | nil =>
    obtain ⟨rfl, -⟩ := eq_ret_of_instruction? hl
    exact mnemonic_chars .ret c (hc.elim List.mem_of_head? List.mem_of_getLast?)
  | cons w ws =>
    have hwords : ∀ v ∈ w.toList :: ws.map String.toList, IsOperand v := by
      intro v hv
      rw [← List.map_cons] at hv
      obtain ⟨u, hu, rfl⟩ := List.mem_map.mp hv
      exact h.words op _ hl u hu
    rw [render_of_instruction? hl] at hc
    rcases hc with hc | hc
    · rw [List.head?_append_of_ne_nil _ (mnemonic_ne_nil op)] at hc
      exact mnemonic_chars op c (List.mem_of_head? hc)
    · have hjoined : [',', ' '].intercalate (w.toList :: ws.map String.toList) ≠ [] := by
        have hw := (hwords w.toList List.mem_cons_self).ne_nil
        cases ws with
        | nil => simpa using hw
        | cons v ws => rw [List.map_cons, List.intercalate_cons_cons]; simp
      rw [List.getLast?_append_of_ne_nil _ (List.cons_ne_nil _ _), ← List.singleton_append,
        List.getLast?_append_of_ne_nil _ hjoined] at hc
      obtain ⟨v, hv, hlast⟩ := getLast?_intercalate (fun v hv => (hwords v hv).ne_nil) hc
      have hends := (hwords v hv).ends (Or.inr hlast)
      exact ⟨hends.1, hends.2.2⟩

theorem render_ne_nil {l : Line} {op : Opcode} {ws : List String} (hl : l.instruction? = some (op, ws)) :
    l.render.toList ≠ [] := by
  cases ws with
  | nil =>
    obtain ⟨rfl, -⟩ := eq_ret_of_instruction? hl
    exact mnemonic_ne_nil .ret
  | cons w ws => rw [render_of_instruction? hl]; simp [mnemonic_ne_nil op]

/-- Trimming leaves a readable line as it is. -/
theorem trim_render {l : Line} (h : l.Readable) : trim l.render.toList = l.render.toList := by
  cases hl : l.instruction? with
  | some found => exact Machine.trim_eq_self fun c hc => (render_ends h hl hc).1
  | none =>
    cases l <;> simp only [instruction?, reduceCtorEq] at hl
    case blank => rfl
    case label name =>
      refine Machine.trim_eq_self fun c hc => ?_
      have hmem : c ∈ name.toList ++ [':'] := by
        have h' : (render (.label name)).toList = name.toList ++ [':'] := by simp [render]
        rw [h'] at hc
        exact hc.elim List.mem_of_head? List.mem_of_getLast?
      rcases List.mem_append.mp hmem with hc | hc
      · exact (Machine.isPlain_iff.mp (h.label name rfl c hc)).1
      · rw [List.mem_singleton.mp hc]
        decide

/-- **The machine splits an instruction line into the opcode and the words that were written.** -/
theorem split_render {l : Line} (h : l.Readable) {op : Opcode} {ws : List String}
    (hl : l.instruction? = some (op, ws)) : split l.render.toList = (op.mnemonic, ws) := by
  cases ws with
  | nil =>
    obtain ⟨rfl, rfl⟩ := eq_ret_of_instruction? hl
    decide
  | cons w ws =>
    have hwords : ∀ v ∈ w.toList :: ws.map String.toList, IsOperand v := by
      intro v hv
      rw [← List.map_cons] at hv
      obtain ⟨u, hu, rfl⟩ := List.mem_map.mp hv
      exact h.words op _ hl u hu
    have hblank : ∀ c ∈ op.mnemonic.toList, (!isBlank c) = true := fun c hc => by simp [(mnemonic_chars op c hc).1]
    have htake : (op.mnemonic.toList ++ ' ' :: [',', ' '].intercalate (w.toList :: ws.map String.toList)).takeWhile
        (!isBlank ·) = op.mnemonic.toList := by
      rw [List.takeWhile_append_of_pos hblank, List.takeWhile_cons_of_neg (by decide), List.append_nil]
    have hdrop : (op.mnemonic.toList ++ ' ' :: [',', ' '].intercalate (w.toList :: ws.map String.toList)).dropWhile
        (!isBlank ·) = ' ' :: [',', ' '].intercalate (w.toList :: ws.map String.toList) := by
      rw [List.dropWhile_append_of_pos hblank, List.dropWhile_cons_of_neg (by decide)]
    have hfilter : (w.toList :: ws.map String.toList).filter (· ≠ []) = w.toList :: ws.map String.toList :=
      List.filter_eq_self.mpr fun v hv => by simpa using (hwords v hv).ne_nil
    rw [render_of_instruction? hl, split, htake, hdrop, List.drop_one, List.tail_cons,
      Machine.trim_fields_intercalate hwords, hfilter, String.ofList_toList, ← List.map_cons, List.map_map]
    congr 1
    exact List.map_id'' (fun s => String.ofList_toList) _

theorem withoutComma_operand {w : String} (h : IsOperand w.toList) : Text.withoutComma w = w := by
  have hlast : w.toList.getLast? ≠ some ',' := fun hc => (h.ends (Or.inr hc)).2.1 rfl
  rw [Text.withoutComma, Text.dropTrailing, if_neg hlast, String.ofList_toList]

theorem ofOperands_words {l : Line} (h : l.Readable) {op : Opcode} {ws : List String}
    (hl : l.instruction? = some (op, ws)) : ofOperands op ws = .ok l := by
  have hwords := h.words op ws hl
  cases l <;> simp only [instruction?, Option.some.injEq, Prod.mk.injEq, reduceCtorEq] at hl
  all_goals
    obtain ⟨rfl, rfl⟩ := hl
    first
      | rfl
      | rw [ofOperands, withoutComma_operand (hwords _ List.mem_cons_self)]

/-- **The machine decodes a readable line to itself.** -/
theorem decode_render {l : Line} (h : l.Readable) : decode l.render.toList = .ok l := by
  cases hl : l.instruction? with
  | some found =>
    obtain ⟨op, ws⟩ := found
    have hlast : l.render.toList.getLast? ≠ some ':' := fun hc => (render_ends h hl (Or.inr hc)).2 rfl
    rw [decode, if_neg (render_ne_nil hl), if_neg hlast, split_render h hl]
    simp only [Opcode.ofMnemonic?_mnemonic]
    exact ofOperands_words h hl
  | none =>
    cases l <;> simp only [instruction?, reduceCtorEq] at hl
    case blank => rfl
    case label name => simp [decode, render]

/-- No opcode ends in a colon, so a label is never taken for a jump. -/
theorem ofMnemonic?_label (name : String) : Opcode.ofMnemonic? (name ++ ":") = none := by
  refine List.find?_eq_none.mpr fun op _ hop => ?_
  have hlast : op.mnemonic.toList.getLast? = some ':' := by
    rw [beq_iff_eq.mp hop, String.toList_append]
    exact List.getLast?_concat
  exact (mnemonic_chars op ':' (List.mem_of_getLast? hlast)).2 rfl

theorem split_label {name : String} (h : ∀ c ∈ name.toList, isPlain c = true) :
    (split (render (.label name)).toList).1 = name ++ ":" := by
  have hblank : ∀ c ∈ (name ++ ":").toList, (!isBlank c) = true := by
    intro c hc
    rw [String.toList_append] at hc
    rcases List.mem_append.mp hc with hc | hc
    · simp [(Machine.isPlain_iff.mp (h c hc)).1]
    · rw [List.mem_singleton.mp hc]
      decide
  rw [split, render, List.takeWhile_eq_self_iff.mpr hblank, String.ofList_toList]

theorem target?_render {l : Line} (h : l.Readable) : Machine.target? l.render.toList = l.target? := by
  cases hl : l.instruction? with
  | some found =>
    obtain ⟨op, ws⟩ := found
    rw [Machine.target?, split_render h hl]
    cases l <;> simp only [instruction?, Option.some.injEq, Prod.mk.injEq, reduceCtorEq] at hl
    all_goals
      obtain ⟨rfl, rfl⟩ := hl
      simp only [Opcode.ofMnemonic?_mnemonic, target?, List.head?_cons]
    case call name args => cases hb : isBuiltin name <;> simp [hb, Option.filter]
  | none =>
    cases l <;> simp only [instruction?, reduceCtorEq] at hl
    case blank => decide
    case label name =>
      rw [Machine.target?]
      simp only [split_label (h.label name rfl), ofMnemonic?_label]
      rfl

theorem not_mem_intercalate {α : Type} {a : α} {sep : List α} {ws : List (List α)} (hsep : a ∉ sep)
    (h : ∀ w ∈ ws, a ∉ w) : a ∉ sep.intercalate ws := by
  induction ws with
  | nil => exact List.not_mem_nil
  | cons w ws ih =>
    have hw := h w List.mem_cons_self
    have hrest := ih fun v hv => h v (List.mem_cons_of_mem _ hv)
    cases ws with
    | nil => simpa using hw
    | cons v ws =>
      rw [List.intercalate_cons_cons, List.mem_append, List.mem_append]
      exact not_or.mpr ⟨not_or.mpr ⟨hw, hsep⟩, hrest⟩

theorem newline_not_mem_render {l : Line} (h : l.Readable) : '\n' ∉ l.render.toList := by
  cases hl : l.instruction? with
  | some found =>
    obtain ⟨op, ws⟩ := found
    have hmnemonic : '\n' ∉ op.mnemonic.toList := fun hn => absurd (mnemonic_chars op _ hn).1 (by decide)
    cases ws with
    | nil =>
      obtain ⟨rfl, rfl⟩ := eq_ret_of_instruction? hl
      exact hmnemonic
    | cons w ws =>
      have hwords : '\n' ∉ [',', ' '].intercalate (w.toList :: ws.map String.toList) := by
        refine not_mem_intercalate (by decide) fun v hv => ?_
        rw [← List.map_cons] at hv
        obtain ⟨u, hu, rfl⟩ := List.mem_map.mp hv
        exact (h.words op _ hl u hu).newline_not_mem
      rw [render_of_instruction? hl, List.mem_append, List.mem_cons]
      exact not_or.mpr ⟨hmnemonic, not_or.mpr ⟨by decide, hwords⟩⟩
  | none =>
    cases l <;> simp only [instruction?, reduceCtorEq] at hl
    case blank => decide
    case label name =>
      have hname := Machine.newline_not_mem_of_isPlain (h.label name rfl)
      simp [render, hname]

end Dotlang.Assembly.Line

/-! ## Programs -/

namespace Dotlang.Machine

open Assembly (Line)

/-- The program of lines that need no decoding. -/
def Program.ofLines (lines : List Line) : Program where
  lines := (lines.map Except.ok).toArray
  labels := ((lines.map Except.ok).zipIdx.filterMap Program.label?).reverse
  targets := lines.filterMap Line.target?

/-- The text of readable lines splits at its line feeds into those lines. -/
theorem splitOn_text {lines : List Line} (hne : lines ≠ []) (h : ∀ l ∈ lines, l.Readable) :
    (Assembly.text lines).toList.splitOn '\n' = lines.map fun l => l.render.toList := by
  have htext : (Assembly.text lines).toList = ['\n'].intercalate (lines.map fun l => l.render.toList) := by
    simp [Assembly.text, String.toList_intercalate, Function.comp_def]
  rw [htext]
  refine List.splitOn_intercalate '\n' (fun cs hcs => ?_) (by simpa using hne)
  obtain ⟨l, hl, rfl⟩ := List.mem_map.mp hcs
  exact Line.newline_not_mem_render (h l hl)

/-- **Loading the text of readable lines gives those lines, their labels and their targets.** -/
theorem ofText_text {lines : List Line} (hne : lines ≠ []) (h : ∀ l ∈ lines, l.Readable) :
    Program.ofText (Assembly.text lines) = Program.ofLines lines := by
  have htexts : ((Assembly.text lines).toList.splitOn '\n').map Text.trim = lines.map fun l => l.render.toList := by
    rw [splitOn_text hne h, List.map_map]
    exact List.map_congr_left fun l hl => Line.trim_render (h l hl)
  have hdecode : (lines.map fun l => l.render.toList).map decode = lines.map Except.ok := by
    rw [List.map_map]
    exact List.map_congr_left fun l hl => Line.decode_render (h l hl)
  have htargets : (lines.map fun l => l.render.toList).filterMap target? = lines.filterMap Line.target? := by
    rw [List.filterMap_map]
    exact List.filterMap_congr fun l hl => Line.target?_render (h l hl)
  rw [Program.ofText, Program.ofLines]
  simp only [htexts, hdecode, htargets]

end Dotlang.Machine
