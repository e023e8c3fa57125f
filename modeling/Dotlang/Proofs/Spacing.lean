import Dotlang.Proofs.Columns
import Dotlang.Proofs.Words

/-!
# Words with blanks between them

* `Ended cs` : a text that goes on with nothing or with a blank, so that no word goes on in it;
* `token?_of_form` : a word of any kind is read whole, if the text behind it is ended;
* `tokensFrom line column cs` : the tokens of a text that begins in a line at a column;
* `Spaced words cs` : the text `cs` is the given words with blanks between them;
* `tokenize_spaced` : these words are read, and nothing but words of their kinds is ever read.
-/

namespace Dotlang

namespace Lexer

open Text (isBlank isWordStart isWordChar isDigits)

/-! ## Words -/

/-- Nothing follows, or a blank. -/
def Ended (cs : List Char) : Prop := ∀ c ∈ cs.head?, isBlank c = true

theorem ended_nil : Ended [] := fun c hc => by cases hc

theorem Ended.head {c : Char} {cs : List Char} (h : Ended (c :: cs)) : isBlank c = true := h c rfl

section Scan

variable {w rest : List Char} {p : Char → Bool} (hp : ∀ c, isBlank c = true → p c = false) (hrest : Ended rest)
include hp hrest

theorem takeWhile_ended (hw : ∀ c ∈ w, p c = true) :
    (w ++ rest).takeWhile p = w ∧ (w ++ rest).dropWhile p = rest := by
  rw [List.takeWhile_append_of_pos hw, List.dropWhile_append_of_pos hw]
  cases rest with
  | nil => exact ⟨List.append_nil w, rfl⟩
  | cons c cs =>
    have hc : ¬p c = true := by simp [hp c hrest.head]
    rw [List.takeWhile_cons_of_neg hc, List.dropWhile_cons_of_neg hc, List.append_nil]
    exact ⟨rfl, rfl⟩

end Scan

theorem isWordChar_of_isBlank {c : Char} (h : isBlank c = true) : isWordChar c = false := by
  rw [Bool.eq_false_iff]
  intro hword
  rw [(Machine.isPlain_iff.mp (Machine.isPlain_of_isWordChar hword)).1] at h
  cases h

theorem isDigit_of_isBlank {c : Char} (h : isBlank c = true) : c.isDigit = false := by
  have hword := isWordChar_of_isBlank h
  simp only [isWordChar, Char.isAlphanum, Bool.or_eq_false_iff] at hword
  exact hword.1.2

theorem atBoundary_of_ended {cs : List Char} (h : Ended cs) : atBoundary cs = true := by
  cases cs with
  | nil => rfl
  | cons c cs => rw [atBoundary, isWordChar_of_isBlank h.head, Bool.not_false]

section Token

variable {w rest : List Char} (hrest : Ended rest)
include hrest

theorem token?_of_word (hhead : ∃ c cs, w = c :: cs ∧ isWordStart c = true) (hchars : ∀ c ∈ w, isWordChar c = true) :
    token? (w ++ rest) = some (wordKind (String.ofList w), w) := by
  obtain ⟨c, cs, rfl, hc⟩ := hhead
  have htake := (takeWhile_ended (fun _ => isWordChar_of_isBlank) hrest hchars).1
  rw [List.cons_append] at htake ⊢
  rw [token?, if_pos hc]
  simp only [htake]

theorem number?_of_isNumber (h : IsNumber w) : number? (w ++ rest) = some w := by
  rcases h with h | ⟨whole, fraction, hwhole, hfraction, rfl⟩
  · obtain ⟨-, -, -, -, hw⟩ := isDigits_cons h
    obtain ⟨htake, hdrop⟩ := takeWhile_ended (fun _ => isDigit_of_isBlank) hrest hw
    have hpoint : rest.head? ≠ some '.' := fun hp => absurd (hrest '.' hp) (by decide)
    simp only [number?, htake, hdrop, hpoint, false_and, if_false, atBoundary_of_ended hrest, if_true]
  · obtain ⟨-, -, -, -, hwhole⟩ := isDigits_cons hwhole
    obtain ⟨d, ds, rfl, -, hfraction⟩ := isDigits_cons hfraction
    obtain ⟨htake, hdrop⟩ := takeWhile_ended (fun _ => isDigit_of_isBlank) hrest hfraction
    have hpoint : ¬ Char.isDigit '.' = true := by decide
    rw [List.append_assoc, List.cons_append, number?, List.takeWhile_append_of_pos hwhole,
      List.dropWhile_append_of_pos hwhole, List.takeWhile_cons_of_neg hpoint, List.dropWhile_cons_of_neg hpoint]
    simp only [List.head?_cons, List.drop_one, List.tail_cons, htake, hdrop, atBoundary_of_ended hrest,
      List.append_nil, ne_eq, reduceCtorEq, not_false_eq_true, and_self, if_true]

omit hrest in
/-- A string ends at the first quote that may not stand in it. -/
theorem closeQuote?_of_quotable {body : List Char} (h : Quotable body) (rest : List Char) :
    closeQuote? (body ++ '"' :: rest) = some (body ++ ['"']) := by
  induction h with
  | nil => rfl
  | @plain c cs hquote hescape _ _ ih =>
    rw [List.cons_append, closeQuote?, ih]
    · rfl
    · exact hquote
    · exact fun _ _ hc _ => hescape hc
  | escaped _ _ ih =>
    rw [List.cons_append, List.cons_append, closeQuote?, ih]
    rfl

omit hrest in
/-- No sign begins another one, so the order in which they are tried does not matter. -/
theorem sign?_of_mem {s : String} {kind : TokenKind} (h : (s, kind) ∈ signs) (rest : List Char) :
    sign? (s.toList ++ rest) = some (kind, s.toList) := by
  have honly : ∀ x ∈ signs, ∀ y ∈ signs, x.1.toList <+: y.1.toList → x = y := by decide
  have hself : s.toList.isPrefixOf (s.toList ++ rest) = true :=
    List.isPrefixOf_iff_prefix.mpr (List.prefix_append _ _)
  have hfirst : sign? (s.toList ++ rest) = (signs.find? fun x => x.1.toList.isPrefixOf (s.toList ++ rest)).map fun x =>
      (x.2, x.1.toList) := rfl
  rw [hfirst]
  cases hfind : signs.find? fun x => x.1.toList.isPrefixOf (s.toList ++ rest) with
  | none => exact absurd hself (List.find?_eq_none.mp hfind _ h)
  | some found =>
    have hsign := List.find?_some hfind
    have hfound : found.1.toList <+: s.toList ++ rest := List.isPrefixOf_iff_prefix.mp hsign
    have hmem := List.mem_of_find?_eq_some hfind
    have heq : found = (s, kind) := by
      rcases List.prefix_or_prefix_of_prefix hfound (List.prefix_append s.toList rest) with hp | hp
      · exact honly _ hmem _ h hp
      · exact (honly _ h _ hmem hp).symm
    rw [heq]
    rfl

omit hrest in
theorem token?_of_sign {s : String} {kind : TokenKind} (h : (s, kind) ∈ signs) (rest : List Char) :
    token? (s.toList ++ rest) = some (kind, s.toList) := by
  have hheads : ∀ x ∈ signs, x.1.toList.head?.any (fun c => !isWordStart c && !c.isDigit && c != '"') = true := by
    decide
  have hhead := hheads _ h
  have hsign := sign?_of_mem h rest
  cases hs : s.toList with
  | nil =>
    rw [hs] at hhead
    cases hhead
  | cons c cs =>
    rw [hs] at hhead hsign
    simp only [List.head?_cons, Option.any_some, Bool.and_eq_true, Bool.not_eq_true', bne_iff_ne] at hhead
    obtain ⟨⟨hstart, hdigit⟩, hquote⟩ := hhead
    rw [List.cons_append] at hsign ⊢
    simp only [token?, hstart, hdigit, hquote, Bool.false_eq_true, if_false]
    exact hsign

theorem token?_of_reserved {word : String} (hhead : word.toList.head?.any isWordStart = true)
    (hchars : word.toList.all isWordChar = true) :
    token? (word.toList ++ rest) = some (wordKind word, word.toList) := by
  have htoken := token?_of_word (w := word.toList) hrest ?_ (List.all_eq_true.mp hchars)
  · rwa [String.ofList_toList] at htoken
  · cases hword : word.toList with
    | nil =>
      rw [hword] at hhead
      cases hhead
    | cons c cs =>
      rw [hword] at hhead
      exact ⟨c, cs, rfl, hhead⟩

/-- **A word of any kind is read whole.** -/
theorem token?_of_form {kind : TokenKind} (h : Form kind w) (hkind : kind ≠ .unknown) :
    token? (w ++ rest) = some (kind, w) := by
  cases kind with
  | dataType =>
    obtain ⟨t, rfl⟩ := h
    rw [token?_of_reserved hrest (by cases t <;> decide) (by cases t <;> decide)]
    cases t <;> rfl
  | keyword =>
    obtain ⟨k, rfl⟩ := h
    rw [token?_of_reserved hrest (by cases k <;> decide) (by cases k <;> decide)]
    cases k <;> rfl
  | boolean =>
    rcases h with rfl | rfl
    · exact token?_of_reserved hrest (by decide) (by decide)
    · exact token?_of_reserved hrest (by decide) (by decide)
  | identifier =>
    have hword : wordKind (String.ofList w) = .identifier := by
      simp [wordKind, h.noType, h.noKeyword, h.noTruth]
    rw [token?_of_word hrest h.head h.chars, hword]
  | number =>
    have hnumber := number?_of_isNumber hrest h
    obtain ⟨c, cs, hw, hc⟩ : ∃ c cs, w = c :: cs ∧ c.isDigit = true := by
      rcases h with h | ⟨whole, fraction, hwhole, -, rfl⟩
      · obtain ⟨c, cs, hw, hc, -⟩ := isDigits_cons h
        exact ⟨c, cs, hw, hc⟩
      · obtain ⟨c, cs, rfl, hc, -⟩ := isDigits_cons hwhole
        exact ⟨c, cs ++ '.' :: fraction, rfl, hc⟩
    subst hw
    have hstart : ¬isWordStart c = true := fun hs => by
      rw [(isWordStart_ne hs).1] at hc
      cases hc
    rw [List.cons_append] at hnumber ⊢
    rw [token?, if_neg hstart, if_pos hc, hnumber]
    rfl
  | string =>
    obtain ⟨body, hbody, rfl⟩ := h
    have hclose := closeQuote?_of_quotable hbody rest
    rw [List.cons_append, List.append_assoc, List.singleton_append, token?, if_neg (by decide), if_neg (by decide),
      if_pos rfl, hclose]
    rfl
  | operator =>
    obtain ⟨op, rfl⟩ := h
    refine token?_of_sign ?_ rest
    cases op with
    | arith op => cases op <;> decide
    | compare r => cases r <;> decide
  | assign =>
    obtain rfl := h
    exact token?_of_sign (by decide) rest
  | lcurly =>
    obtain rfl := h
    exact token?_of_sign (s := "\x7b") (by decide) rest
  | rcurly =>
    obtain rfl := h
    exact token?_of_sign (s := "\x7d") (by decide) rest
  | lparen =>
    obtain rfl := h
    exact token?_of_sign (s := "(") (by decide) rest
  | rparen =>
    obtain rfl := h
    exact token?_of_sign (s := ")") (by decide) rest
  | semicolon =>
    obtain rfl := h
    exact token?_of_sign (s := ";") (by decide) rest
  | comma =>
    obtain rfl := h
    exact token?_of_sign (s := ",") (by decide) rest
  | unknown => exact absurd rfl hkind

end Token

theorem token?_of_isBlank {c : Char} (h : isBlank c = true) (cs : List Char) : token? (c :: cs) = none := by
  have hword := isWordChar_of_isBlank h
  have hstart : ¬isWordStart c = true := fun hstart => by
    rw [Text.isWordChar_of_isWordStart hstart] at hword
    cases hword
  have hquote : c ≠ '"' := by
    rintro rfl
    exact absurd h (by decide)
  have hsigns : ∀ x ∈ signs, x.1.toList.head?.any (fun c => !isBlank c) = true := by decide
  rw [token?, if_neg hstart, if_neg (by simp [isDigit_of_isBlank h]), if_neg hquote, sign?, Option.map_eq_none_iff]
  refine List.find?_eq_none.mpr fun x hx hp => ?_
  have hhead := hsigns x hx
  have hp : x.1.toList <+: c :: cs := List.isPrefixOf_iff_prefix.mp hp
  cases hs : x.1.toList with
  | nil =>
    rw [hs] at hhead
    cases hhead
  | cons d ds =>
    rw [hs] at hhead hp
    obtain ⟨rfl, -⟩ := List.cons_prefix_cons.mp hp
    simp [h] at hhead

theorem token?_of_comment (cs : List Char) : token? ('/' :: '/' :: cs) = none := rfl

/-- Neither a blank nor a comment begins a token. -/
theorem starts_of_token? {cs : List Char} {found : TokenKind × List Char} (h : token? cs = some found) :
    (∀ c ∈ cs.head?, isBlank c = false) ∧ ['/', '/'].isPrefixOf cs = false := by
  constructor
  · intro c hc
    obtain ⟨cs, rfl⟩ := List.head?_eq_some_iff.mp hc
    rw [Bool.eq_false_iff]
    intro hblank
    rw [token?_of_isBlank hblank] at h
    cases h
  · rw [Bool.eq_false_iff]
    intro hcomment
    obtain ⟨cs, rfl⟩ := List.isPrefixOf_iff_prefix.mp hcomment
    cases (token?_of_comment cs).symm.trans h

theorem Quotable.newline_not_mem {cs : List Char} (h : Quotable cs) : '\n' ∉ cs := by
  induction h with
  | nil => exact List.not_mem_nil
  | plain _ _ hc _ ih => simp [hc.symm, ih]
  | escaped hc _ ih => simp [hc.symm, ih]

/-- No line ends in a word. -/
theorem Form.newline_not_mem {kind : TokenKind} {w : List Char} (h : Form kind w) (hkind : kind ≠ .unknown) :
    '\n' ∉ w := by
  have hdigits {ds : List Char} (hds : isDigits ds = true) : '\n' ∉ ds := fun hn => by
    obtain ⟨-, -, -, -, hall⟩ := isDigits_cons hds
    exact absurd (hall _ hn) (by decide)
  cases kind with
  | dataType =>
    obtain ⟨t, rfl⟩ := h
    cases t <;> decide
  | keyword =>
    obtain ⟨k, rfl⟩ := h
    cases k <;> decide
  | boolean => rcases h with rfl | rfl <;> decide
  | identifier => exact fun hn => absurd (h.chars _ hn) (by decide)
  | number =>
    rcases h with h | ⟨whole, fraction, hwhole, hfraction, rfl⟩
    · exact hdigits h
    · simp [hdigits hwhole, hdigits hfraction]
  | string =>
    obtain ⟨body, hbody, rfl⟩ := h
    simp [hbody.newline_not_mem]
  | operator =>
    obtain ⟨op, rfl⟩ := h
    cases op with
    | arith op => cases op <;> decide
    | compare r => cases r <;> decide
  | unknown => exact absurd rfl hkind
  | _ =>
    obtain rfl := h
    decide

/-! ## Texts -/

theorem scanLine_skip (line column skip : Nat) (cs : List Char) :
    scanLine line column skip cs = scanLine line (column + skip) 0 (cs.drop skip) := by
  induction skip generalizing column cs with
  | zero => rfl
  | succ skip ih =>
    cases cs with
    | nil => simp only [List.drop_nil, scanLine]
    | cons c cs => rw [scanLine, ih, List.drop_succ_cons, Nat.add_right_comm, Nat.add_assoc]

/-- Behind a word the line is read on. -/
theorem scanLine_of_token? {line column : Nat} {kind : TokenKind} {w rest : List Char} (hw : w ≠ [])
    (h : token? (w ++ rest) = some (kind, w)) :
    scanLine line column 0 (w ++ rest) =
      ⟨kind, String.ofList w, line, column, column + w.length⟩ :: scanLine line (column + w.length) 0 rest := by
  obtain ⟨hblank, hcomment⟩ := starts_of_token? h
  cases w with
  | nil => exact absurd rfl hw
  | cons c w =>
    have hcolumn : column + 1 + w.length = column + (c :: w).length := by
      rw [List.length_cons]
      omega
    rw [List.cons_append] at h hblank hcomment ⊢
    rw [scanLine, if_neg (by simp [hblank c rfl]), if_neg (by simp [hcomment]), h]
    simp only [Option.getD_some]
    rw [scanLine_skip, List.length_cons, Nat.add_sub_cancel, List.drop_left, hcolumn, List.length_cons]

/-- The tokens of a text that begins in a line at a column. -/
def tokensFrom (line column : Nat) (cs : List Char) : List Token :=
  match cs.splitOn '\n' with
  | [] => []
  | first :: others =>
    scanLine line column 0 first ++ (others.zipIdx (line + 1)).flatMap fun (cs, line) => scanLine line 1 0 cs

theorem tokensFrom_of_splitOn {line column : Nat} {cs first : List Char} {others : List (List Char)}
    (h : cs.splitOn '\n' = first :: others) : tokensFrom line column cs =
      scanLine line column 0 first ++ (others.zipIdx (line + 1)).flatMap fun (cs, line) => scanLine line 1 0 cs := by
  rw [tokensFrom, h]

theorem splitOn_newline (cs : List Char) : ('\n' :: cs).splitOn '\n' = [] :: cs.splitOn '\n' := by
  rw [List.splitOn_cons_eq_if_modifyHead, if_pos (beq_self_eq_true _)]

theorem splitOn_cons {c : Char} {cs first : List Char} {others : List (List Char)} (hc : c ≠ '\n')
    (h : cs.splitOn '\n' = first :: others) : (c :: cs).splitOn '\n' = (c :: first) :: others := by
  rw [List.splitOn_cons_eq_if_modifyHead, if_neg (by simpa using hc), h]
  rfl

theorem splitOn_append {w cs first : List Char} {others : List (List Char)} (hw : '\n' ∉ w)
    (h : cs.splitOn '\n' = first :: others) : (w ++ cs).splitOn '\n' = (w ++ first) :: others := by
  induction w with
  | nil => exact h
  | cons c w ih =>
    exact splitOn_cons (fun hc => hw (hc ▸ List.mem_cons_self)) (ih fun hn => hw (List.mem_cons_of_mem _ hn))

/-- The first line of a text, which the text goes on with. -/
theorem exists_splitOn (cs : List Char) : ∃ first others, cs.splitOn '\n' = first :: others ∧ first <+: cs := by
  induction cs with
  | nil => exact ⟨[], [], rfl, List.nil_prefix⟩
  | cons c cs ih =>
    by_cases hc : c = '\n'
    · subst hc
      exact ⟨[], _, splitOn_newline cs, List.nil_prefix⟩
    · obtain ⟨first, others, hsplit, hfirst⟩ := ih
      exact ⟨c :: first, others, splitOn_cons hc hsplit, List.cons_prefix_cons.mpr ⟨rfl, hfirst⟩⟩

theorem Ended.firstLine {first cs : List Char} (hcs : Ended cs) (h : first <+: cs) : Ended first := by
  intro c hc
  obtain ⟨rest, rfl⟩ := List.head?_eq_some_iff.mp hc
  obtain ⟨others, rfl⟩ := h
  exact hcs.head

theorem tokensFrom_newline (line column : Nat) (cs : List Char) :
    tokensFrom line column ('\n' :: cs) = tokensFrom (line + 1) 1 cs := by
  obtain ⟨first, others, hsplit, -⟩ := exists_splitOn cs
  rw [tokensFrom_of_splitOn hsplit, tokensFrom_of_splitOn (splitOn_newline cs), hsplit]
  rfl

theorem tokensFrom_blank {c : Char} (hblank : isBlank c = true) (hc : c ≠ '\n') (line column : Nat) (cs : List Char) :
    tokensFrom line column (c :: cs) = tokensFrom line (column + 1) cs := by
  obtain ⟨first, others, hsplit, -⟩ := exists_splitOn cs
  rw [tokensFrom_of_splitOn hsplit, tokensFrom_of_splitOn (splitOn_cons hc hsplit), scanLine, if_pos hblank]

/-- Blanks only say where what follows stands. -/
theorem tokensFrom_gap {gap : List Char} (hgap : ∀ c ∈ gap, isBlank c = true) (line column : Nat) (cs : List Char) :
    ∃ line' column', tokensFrom line column (gap ++ cs) = tokensFrom line' column' cs := by
  induction gap generalizing line column with
  | nil => exact ⟨line, column, rfl⟩
  | cons c gap ih =>
    have ih := ih fun d hd => hgap d (List.mem_cons_of_mem _ hd)
    rw [List.cons_append]
    by_cases hc : c = '\n'
    · rw [hc, tokensFrom_newline]
      exact ih (line + 1) 1
    · rw [tokensFrom_blank (hgap c List.mem_cons_self) hc]
      exact ih line (column + 1)

theorem tokensFrom_word {kind : TokenKind} {w cs : List Char} (hw : Form kind w) (hkind : kind ≠ .unknown)
    (hcs : Ended cs) (line column : Nat) : tokensFrom line column (w ++ cs) =
      ⟨kind, String.ofList w, line, column, column + w.length⟩ :: tokensFrom line (column + w.length) cs := by
  obtain ⟨first, others, hsplit, hfirst⟩ := exists_splitOn cs
  rw [tokensFrom_of_splitOn hsplit, tokensFrom_of_splitOn (splitOn_append (hw.newline_not_mem hkind) hsplit),
    scanLine_of_token? hw.ne_nil (token?_of_form (hcs.firstLine hfirst) hw hkind), List.cons_append]

/-! ## Spaced words -/

/-- A text that is the given words of the given kinds, with blanks between them. -/
inductive Spaced : List (TokenKind × String) → List Char → Prop where
  | nil : Spaced [] []
  | one {kind : TokenKind} {w : String} (hw : Form kind w.toList) (hkind : kind ≠ .unknown) :
      Spaced [(kind, w)] w.toList
  | cons {kind : TokenKind} {w : String} {gap cs : List Char} {words : List (TokenKind × String)}
      (hw : Form kind w.toList) (hkind : kind ≠ .unknown) (hne : gap ≠ []) (hgap : ∀ c ∈ gap, isBlank c = true)
      (h : Spaced words cs) : Spaced ((kind, w) :: words) (w.toList ++ (gap ++ cs))

theorem Spaced.kind_ne_unknown {words : List (TokenKind × String)} {cs : List Char} (h : Spaced words cs) :
    ∀ x ∈ words, x.1 ≠ .unknown := by
  induction h with
  | nil => exact fun x hx => absurd hx List.not_mem_nil
  | one _ hkind => exact fun x hx => List.mem_singleton.mp hx ▸ hkind
  | cons _ hkind _ _ _ ih => exact List.forall_mem_cons.mpr ⟨hkind, ih⟩

theorem Spaced.tokensFrom {words : List (TokenKind × String)} {cs : List Char} (h : Spaced words cs)
    (line column : Nat) : (tokensFrom line column cs).map (fun t => (t.kind, t.lexeme)) = words := by
  induction h generalizing line column with
  | nil => rfl
  | @one kind w hw hkind =>
    have hword := tokensFrom_word hw hkind ended_nil line column
    rw [List.append_nil] at hword
    rw [hword, List.map_cons, String.ofList_toList]
    rfl
  | @cons kind w gap cs words hw hkind hne hgap _ ih =>
    obtain ⟨c, gap', rfl⟩ := List.exists_cons_of_ne_nil hne
    have hended : Ended (c :: gap' ++ cs) := fun d hd => by
      cases hd
      exact hgap c List.mem_cons_self
    obtain ⟨line', column', hrest⟩ := tokensFrom_gap hgap line (column + w.toList.length) cs
    rw [tokensFrom_word hw hkind hended, hrest, List.map_cons, ih, String.ofList_toList]

end Lexer

open Lexer (Form Spaced)

theorem tokenize_eq_tokensFrom (source : String) : tokenize source = Lexer.tokensFrom 1 1 source.toList := by
  obtain ⟨first, others, hsplit, -⟩ := Lexer.exists_splitOn source.toList
  rw [Lexer.tokensFrom_of_splitOn hsplit, tokenize, hsplit]
  rfl

/-- **Words with blanks between them are read as these words and without a complaint,** and every token of a source that
is not a character which begins none is a word of its kind. -/
theorem tokenize_spaced :
    (∀ words source, Spaced words source.toList →
      (tokenize source).map (fun t => (t.kind, t.lexeme)) = words ∧ lexicalDiagnostics (tokenize source) = []) ∧
    ∀ source, ∀ t ∈ tokenize source, t.kind ≠ .unknown → Form t.kind t.lexeme.toList := by
  refine ⟨fun words source h => ?_, fun source t ht _ => Lexer.form_of_mem_tokenize ht⟩
  have hwords := h.tokensFrom 1 1
  rw [← tokenize_eq_tokensFrom] at hwords
  refine ⟨hwords, ?_⟩
  have hknown : ∀ t ∈ tokenize source, t.kind ≠ .unknown := fun t ht =>
    h.kind_ne_unknown (t.kind, t.lexeme) (hwords ▸ List.mem_map_of_mem ht)
  have hnone : (tokenize source).filter (fun t => t.kind = .unknown) = [] :=
    List.filter_eq_nil_iff.mpr fun t ht hkind => hknown t ht (of_decide_eq_true hkind)
  rw [lexicalDiagnostics, hnone, List.map_nil]

/-- A declaration over two lines, with a quote in its string. -/
theorem tokenize_spaced_declaration :
    (tokenize "Sring s1\n=.\t\"a\\\"b\" ;").map (fun t => (t.kind, t.lexeme)) =
        [(.dataType, "Sring"), (.identifier, "s1"), (.assign, "=."), (.string, "\"a\\\"b\""), (.semicolon, ";")] ∧
      lexicalDiagnostics (tokenize "Sring s1\n=.\t\"a\\\"b\" ;") = [] := by
  have hname : Form .identifier "s1".toList :=
    ⟨⟨'s', ['1'], rfl, rfl⟩, List.all_eq_true.mp rfl, rfl, rfl, by decide⟩
  have hstring : Form .string "\"a\\\"b\"".toList :=
    ⟨['a', '\\', '"', 'b'], .plain (by decide) (by decide) (by decide) (.escaped (by decide)
      (.plain (by decide) (by decide) (by decide) .nil)), rfl⟩
  have hspaced : Spaced
      [(.dataType, "Sring"), (.identifier, "s1"), (.assign, "=."), (.string, "\"a\\\"b\""), (.semicolon, ";")]
      ("Sring".toList ++ ([' '] ++ ("s1".toList ++ (['\n'] ++ ("=.".toList ++ (['\t'] ++
        ("\"a\\\"b\"".toList ++ ([' '] ++ ";".toList)))))))) :=
    .cons ⟨.text, rfl⟩ nofun (List.cons_ne_nil _ _) (List.forall_mem_singleton.mpr rfl) <|
      .cons hname nofun (List.cons_ne_nil _ _) (List.forall_mem_singleton.mpr rfl) <|
      .cons rfl nofun (List.cons_ne_nil _ _) (List.forall_mem_singleton.mpr rfl) <|
      .cons hstring nofun (List.cons_ne_nil _ _) (List.forall_mem_singleton.mpr rfl) <| .one rfl nofun
  exact tokenize_spaced.1 _ _ hspaced

end Dotlang
