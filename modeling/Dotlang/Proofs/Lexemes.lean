import Dotlang.Text.Literal
import Dotlang.Token.Lexer
import Mathlib

/-!
# The words that tokens are made of

* `Quotable` : what may stand between the quotes of a string;
* `Form` : the words of each kind of token;
* `form_of_mem_tokenize` : every token of a source is a word of its kind.
-/

namespace Dotlang.Lexer

open Text (isBlank isWordStart isWordChar isDigits)

/-! ## Forms -/

/-- The text of a string: a quote stands in it only behind a backslash, and no line ends in it. -/
inductive Quotable : List Char → Prop where
  | nil : Quotable []
  | plain {c : Char} {cs : List Char} : c ≠ '"' → c ≠ '\\' → c ≠ '\n' → Quotable cs → Quotable (c :: cs)
  | escaped {c : Char} {cs : List Char} : c ≠ '\n' → Quotable cs → Quotable ('\\' :: c :: cs)

/-- A name that is not reserved. -/
structure IsName (w : List Char) : Prop where
  head : ∃ c cs, w = c :: cs ∧ isWordStart c = true
  chars : ∀ c ∈ w, isWordChar c = true
  noType : DataType.ofWord? (String.ofList w) = none
  noKeyword : Keyword.ofWord? (String.ofList w) = none
  noTruth : String.ofList w ≠ "true" ∧ String.ofList w ≠ "false"

/-- Digits, with at most one point among them. -/
def IsNumber (w : List Char) : Prop :=
  isDigits w = true ∨
    ∃ whole fraction, isDigits whole = true ∧ isDigits fraction = true ∧ w = whole ++ '.' :: fraction

/-- The words of a kind of token. -/
def Form : TokenKind → List Char → Prop
  | .dataType, w => ∃ t : DataType, w = t.word.toList
  | .keyword, w => ∃ k : Keyword, w = k.word.toList
  | .number, w => IsNumber w
  | .string, w => ∃ body, Quotable body ∧ w = '"' :: (body ++ ['"'])
  | .boolean, w => w = "true".toList ∨ w = "false".toList
  | .operator, w => ∃ op : Operator, w = op.lexeme.toList
  | .assign, w => w = "=.".toList
  | .identifier, w => IsName w
  | .lcurly, w => w = ['\x7b']
  | .rcurly, w => w = ['\x7d']
  | .lparen, w => w = ['(']
  | .rparen, w => w = [')']
  | .semicolon, w => w = [';']
  | .comma, w => w = [',']
  | .unknown, w => ∃ c, w = [c]

/-- A token whose text is a word of its kind. -/
def WellFormed (t : Token) : Prop := Form t.kind t.lexeme.toList

/-- No word but that of an operator is spelled as one. -/
theorem kind_of_form_operator {kind : TokenKind} {op : Operator} (h : Form kind op.lexeme.toList) :
    kind = .operator := by
  obtain ⟨c, cs, hop, hdigit, hstart, hquote, hlong, hassign⟩ : ∃ c cs, op.lexeme.toList = c :: cs ∧
      c.isDigit = false ∧ isWordStart c = false ∧ c ≠ '"' ∧ cs ≠ [] ∧ c :: cs ≠ "=.".toList := by
    cases op with
    | arith op => cases op <;> exact ⟨_, _, rfl, by decide⟩
    | compare r => cases r <;> exact ⟨_, _, rfl, by decide⟩
  have hdigits : ∀ ds, isDigits (c :: ds) = false := fun ds => by simp [isDigits, hdigit]
  rw [hop] at h
  cases kind with
  | operator => rfl
  | dataType =>
    obtain ⟨t, ht⟩ := h
    have hword : t.word.toList.head?.any isWordStart = true := by cases t <;> decide
    simp [← ht, hstart] at hword
  | keyword =>
    obtain ⟨k, hk⟩ := h
    have hword : k.word.toList.head?.any isWordStart = true := by cases k <;> decide
    simp [← hk, hstart] at hword
  | number =>
    obtain h | ⟨whole, fraction, hwhole, -, h⟩ := h
    · rw [hdigits] at h
      cases h
    · cases whole with
      | nil => exact absurd hwhole (by decide)
      | cons d ds =>
        cases h
        rw [hdigits] at hwhole
        cases hwhole
  | string =>
    obtain ⟨body, -, h⟩ := h
    cases h
    exact absurd rfl hquote
  | boolean =>
    obtain h | h := h
    all_goals
      cases h
      exact absurd hstart (by decide)
  | assign => exact absurd h hassign
  | identifier =>
    obtain ⟨d, ds, h, hd⟩ := h.head
    cases h
    rw [hstart] at hd
    cases hd
  | unknown =>
    obtain ⟨d, h⟩ := h
    cases h
    exact absurd rfl hlong
  | _ =>
    cases h
    exact absurd rfl hlong

/-! ## One token -/

theorem word_of_ofWord? {w : String} {t : DataType} (h : DataType.ofWord? w = some t) : t.word = w := by
  simpa using List.find?_some h

theorem word_of_keyword? {w : String} {k : Keyword} (h : Keyword.ofWord? w = some k) : k.word = w := by
  simpa using List.find?_some h

theorem form_wordKind {w : List Char} (hhead : ∃ c cs, w = c :: cs ∧ isWordStart c = true)
    (hchars : ∀ c ∈ w, isWordChar c = true) : Form (wordKind (String.ofList w)) w := by
  unfold wordKind
  split_ifs with htype hkeyword htruth
  · obtain ⟨t, ht⟩ := Option.isSome_iff_exists.mp htype
    exact ⟨t, by rw [word_of_ofWord? ht, String.toList_ofList]⟩
  · obtain ⟨k, hk⟩ := Option.isSome_iff_exists.mp hkeyword
    exact ⟨k, by rw [word_of_keyword? hk, String.toList_ofList]⟩
  · rcases htruth with h | h
    · exact Or.inl (by rw [← h, String.toList_ofList])
    · exact Or.inr (by rw [← h, String.toList_ofList])
  · exact ⟨hhead, hchars, by simpa using htype, by simpa using hkeyword, not_or.mp htruth⟩

theorem isDigits_takeWhile {cs : List Char} (h : cs.takeWhile Char.isDigit ≠ []) :
    isDigits (cs.takeWhile Char.isDigit) = true := by
  simp only [isDigits, Bool.and_eq_true, bne_iff_ne, ne_eq, h, not_false_eq_true, true_and, List.all_eq_true]
  intro c hc
  exact List.mem_takeWhile_imp hc

theorem isNumber_of_number? {c : Char} {cs w : List Char} (hc : c.isDigit = true)
    (h : number? (c :: cs) = some w) : IsNumber w := by
  have hwhole : isDigits ((c :: cs).takeWhile Char.isDigit) = true :=
    isDigits_takeWhile (by rw [List.takeWhile_cons_of_pos hc]; exact List.cons_ne_nil _ _)
  simp only [number?] at h
  split_ifs at h with hpoint hend
  · cases h
    exact Or.inr ⟨_, _, hwhole, isDigits_takeWhile hpoint.2.1, rfl⟩
  · cases h
    exact Or.inl hwhole

/-- The closing quote that is found is the first one that no backslash precedes. -/
theorem quotable_of_closeQuote? {cs q : List Char} (hline : '\n' ∉ cs) (h : closeQuote? cs = some q) :
    ∃ body, Quotable body ∧ q = body ++ ['"'] := by
  fun_induction closeQuote? cs generalizing q with
  | case1 => simp at h
  | case2 cs => exact ⟨[], .nil, by simpa using h.symm⟩
  | case3 c cs ih =>
    obtain ⟨r, hr, rfl⟩ := Option.map_eq_some_iff.mp h
    obtain ⟨body, hbody, rfl⟩ := ih (fun hn => hline (by simp [hn])) hr
    exact ⟨'\\' :: c :: body, .escaped (fun hc => hline (by simp [hc])) hbody, rfl⟩
  | case4 c cs hquote hescape ih =>
    obtain ⟨r, hr, rfl⟩ := Option.map_eq_some_iff.mp h
    obtain ⟨body, hbody, rfl⟩ := ih (fun hn => hline (by simp [hn])) hr
    refine ⟨c :: body, .plain hquote (fun hc => ?_) (fun hc => hline (by simp [hc])) hbody, rfl⟩
    -- a backslash at the very end of a line closes nothing
    cases cs with
    | nil => simp [closeQuote?] at hr
    | cons d ds => exact hescape d ds hc rfl

theorem form_of_mem_signs {s : String} {kind : TokenKind} (h : (s, kind) ∈ signs) : Form kind s.toList := by
  rcases List.mem_append.mp h with h | h
  · obtain ⟨op, -, heq⟩ := List.mem_map.mp h
    cases heq
    exact ⟨op, rfl⟩
  · simp only [List.mem_cons, Prod.mk.injEq, List.not_mem_nil, or_false] at h
    rcases h with ⟨rfl, rfl⟩ | ⟨rfl, rfl⟩ | ⟨rfl, rfl⟩ | ⟨rfl, rfl⟩ | ⟨rfl, rfl⟩ | ⟨rfl, rfl⟩ | ⟨rfl, rfl⟩ <;> rfl

theorem form_of_token? {cs w : List Char} {kind : TokenKind} (hline : '\n' ∉ cs)
    (h : token? cs = some (kind, w)) : Form kind w := by
  cases cs with
  | nil => simp [token?] at h
  | cons c cs =>
    simp only [token?] at h
    split_ifs at h with hword hdigit hquote
    · cases h
      refine form_wordKind ⟨c, cs.takeWhile isWordChar, ?_, hword⟩ fun d hd => List.mem_takeWhile_imp hd
      rw [List.takeWhile_cons_of_pos (Text.isWordChar_of_isWordStart hword)]
    · obtain ⟨ds, hds, heq⟩ := Option.map_eq_some_iff.mp h
      cases heq
      exact isNumber_of_number? hdigit hds
    · obtain ⟨q, hq, heq⟩ := Option.map_eq_some_iff.mp h
      cases heq
      obtain ⟨body, hbody, rfl⟩ := quotable_of_closeQuote? (fun hn => hline (by simp [hn])) hq
      exact ⟨body, hbody, rfl⟩
    · obtain ⟨⟨s, k⟩, hs, heq⟩ := Option.map_eq_some_iff.mp h
      cases heq
      exact form_of_mem_signs (List.mem_of_find?_eq_some hs)

/-! ## All tokens -/

theorem wellFormed_of_mem_scanLine {line column skip : Nat} {cs : List Char} {t : Token} (hline : '\n' ∉ cs)
    (h : t ∈ scanLine line column skip cs) : WellFormed t := by
  fun_induction scanLine line column skip cs with
  | case1 => simp at h
  | case2 column skip c cs ih => exact ih (fun hn => hline (by simp [hn])) h
  | case3 column c cs hblank ih => exact ih (fun hn => hline (by simp [hn])) h
  | case4 => simp at h
  | case5 column c cs hblank hcomment kind text htoken ih =>
    rcases List.mem_cons.mp h with rfl | h
    · unfold WellFormed
      rw [String.toList_ofList]
      cases hread : token? (c :: cs) with
      | some found =>
        obtain ⟨k, w⟩ := found
        rw [hread] at htoken
        cases htoken
        exact form_of_token? hline hread
      | none =>
        rw [hread] at htoken
        cases htoken
        exact ⟨c, rfl⟩
    · exact ih (fun hn => hline (by simp [hn])) h

theorem not_mem_of_mem_splitOn {α : Type} [BEq α] [LawfulBEq α] {a : α} {xs piece : List α}
    (h : piece ∈ xs.splitOn a) : a ∉ piece := by
  induction xs generalizing piece with
  | nil => simp_all
  | cons x xs ih =>
    rw [List.splitOn_cons_eq_if_modifyHead] at h
    split_ifs at h with hx
    · rcases List.mem_cons.mp h with rfl | h
      · exact List.not_mem_nil
      · exact ih h
    · cases hsplit : xs.splitOn a with
      | nil => simp [hsplit] at h
      | cons first others =>
        rw [hsplit] at ih h
        rcases List.mem_cons.mp h with rfl | h
        · have hfirst := ih (List.mem_cons_self)
          have hne : a ≠ x := fun he => hx (by simp [he])
          simp [hfirst, hne]
        · exact ih (List.mem_cons_of_mem _ h)

/-- **Every token of a source is a word of its kind.** -/
theorem form_of_mem_tokenize {source : String} {t : Token} (h : t ∈ tokenize source) : WellFormed t := by
  obtain ⟨⟨cs, line⟩, hcs, ht⟩ := List.mem_flatMap.mp h
  exact wellFormed_of_mem_scanLine (not_mem_of_mem_splitOn (List.fst_mem_of_mem_zipIdx hcs)) ht

end Dotlang.Lexer
