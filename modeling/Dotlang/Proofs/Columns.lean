import Dotlang.Diagnostic
import Dotlang.Proofs.Lexemes

/-!
# Where tokens stand

Up to its end or up to `//`, a line consists of tokens and of blanks between them.

* `prefix_of_token?` : a token is what its text starts with;
* `Tiled line column cs ts` : the tokens of the text `cs`, which stands in a line from a column on, are `ts`;
* `tiled_scanLine` : a line is tiled by the tokens that are read from it;
* `Tiled.placed`, `Tiled.apart`, `Tiled.covered` : where tokens stand, how they follow each other, what they leave;
* `tokens_cover_source` : the tokens of a source, and its complaints.
-/

namespace Dotlang

namespace Lexer

open Text (isBlank isWordStart isWordChar)

/-! ## One token -/

theorem prefix_of_number? {cs w : List Char} (h : number? cs = some w) : w <+: cs := by
  simp only [number?] at h
  split_ifs at h with hpoint hend
  · cases h
    obtain ⟨rest, hrest⟩ := List.head?_eq_some_iff.mp hpoint.1
    have hfraction : '.' :: rest.takeWhile Char.isDigit <+: '.' :: rest :=
      List.cons_prefix_cons.mpr ⟨rfl, List.takeWhile_prefix _⟩
    have hwhole : cs.takeWhile Char.isDigit ++ '.' :: rest <+: cs := by
      rw [← hrest, List.takeWhile_append_dropWhile]
    rw [hrest, List.drop_one, List.tail_cons]
    exact ((List.prefix_append_right_inj _).mpr hfraction).trans hwhole
  · cases h
    exact List.takeWhile_prefix _

theorem prefix_of_closeQuote? {cs q : List Char} (h : closeQuote? cs = some q) : q <+: cs := by
  fun_induction closeQuote? cs generalizing q with
  | case1 => cases h
  | case2 cs =>
    cases h
    exact List.cons_prefix_cons.mpr ⟨rfl, List.nil_prefix⟩
  | case3 c cs ih =>
    obtain ⟨r, hr, rfl⟩ := Option.map_eq_some_iff.mp h
    exact List.cons_prefix_cons.mpr ⟨rfl, List.cons_prefix_cons.mpr ⟨rfl, ih hr⟩⟩
  | case4 c cs _ _ ih =>
    obtain ⟨r, hr, rfl⟩ := Option.map_eq_some_iff.mp h
    exact List.cons_prefix_cons.mpr ⟨rfl, ih hr⟩

/-- **A token is what its text starts with.** -/
theorem prefix_of_token? {cs w : List Char} {kind : TokenKind} (h : token? cs = some (kind, w)) : w <+: cs := by
  cases cs with
  | nil => cases h
  | cons c cs =>
    simp only [token?] at h
    split_ifs at h with hword hdigit hquote
    · cases h
      exact List.takeWhile_prefix _
    · obtain ⟨ds, hds, heq⟩ := Option.map_eq_some_iff.mp h
      cases heq
      exact prefix_of_number? hds
    · obtain ⟨q, hq, heq⟩ := Option.map_eq_some_iff.mp h
      cases heq
      rw [hquote]
      exact List.cons_prefix_cons.mpr ⟨rfl, prefix_of_closeQuote? hq⟩
    · obtain ⟨⟨s, k⟩, hs, heq⟩ := Option.map_eq_some_iff.mp h
      cases heq
      have hsign := List.find?_some hs
      exact List.isPrefixOf_iff_prefix.mp hsign

theorem Form.ne_nil {kind : TokenKind} {w : List Char} (h : Form kind w) : w ≠ [] := by
  rintro rfl
  cases kind with
  | dataType =>
    obtain ⟨t, ht⟩ := h
    cases t <;> cases ht
  | keyword =>
    obtain ⟨k, hk⟩ := h
    cases k <;> cases hk
  | number =>
    rcases h with h | ⟨whole, fraction, -, -, h⟩
    · cases h
    · cases whole <;> cases h
  | string =>
    obtain ⟨body, -, h⟩ := h
    cases h
  | boolean => rcases h with h | h <;> cases h
  | operator =>
    obtain ⟨op, hop⟩ := h
    cases op with
    | arith op => cases op <;> cases hop
    | compare r => cases r <;> cases hop
  | identifier =>
    obtain ⟨c, cs, h, -⟩ := h.head
    cases h
  | unknown =>
    obtain ⟨c, h⟩ := h
    cases h
  | _ => cases h

/-! ## One line -/

/-- The tokens of a text that stands in a line from a column on. Outside them are blanks, and what follows `//`. -/
inductive Tiled (line : Nat) : Nat → List Char → List Token → Prop where
  | done (column : Nat) : Tiled line column [] []
  | comment (column : Nat) {cs : List Char} (h : ['/', '/'] <+: cs) : Tiled line column cs []
  | blank {column : Nat} {c : Char} {cs : List Char} {ts : List Token} (hc : isBlank c = true)
      (h : Tiled line (column + 1) cs ts) : Tiled line column (c :: cs) ts
  | token {column : Nat} {w cs : List Char} {ts : List Token} (kind : TokenKind) (hw : w ≠ [])
      (h : Tiled line (column + w.length) cs ts) :
      Tiled line column (w ++ cs) (⟨kind, String.ofList w, line, column, column + w.length⟩ :: ts)

/-- **A line is tiled by the tokens that are read from it.** What belongs to the last token is skipped. -/
theorem tiled_scanLine (line column skip : Nat) {cs : List Char} (hline : '\n' ∉ cs) :
    Tiled line (column + skip) (cs.drop skip) (scanLine line column skip cs) := by
  fun_induction scanLine line column skip cs with
  | case1 column skip =>
    rw [List.drop_nil]
    exact .done _
  | case2 column skip c cs ih =>
    have hrest := ih fun hn => hline (List.mem_cons_of_mem _ hn)
    rwa [Nat.add_right_comm, Nat.add_assoc] at hrest
  | case3 column c cs hblank ih => exact .blank hblank (ih fun hn => hline (List.mem_cons_of_mem _ hn))
  | case4 column c cs hblank hcomment => exact .comment column (List.isPrefixOf_iff_prefix.mp hcomment)
  | case5 column c cs hblank hcomment kind text htoken ih =>
    obtain ⟨w, rfl, hrest⟩ : ∃ w, text = c :: w ∧ w <+: cs := by
      cases hread : token? (c :: cs) with
      | none =>
        rw [hread] at htoken
        cases htoken
        exact ⟨[], rfl, List.nil_prefix⟩
      | some found =>
        rw [hread] at htoken
        cases htoken
        have hne := (form_of_token? hline hread).ne_nil
        cases text with
        | nil => exact absurd rfl hne
        | cons d w =>
          obtain ⟨rfl, hw⟩ := List.cons_prefix_cons.mp (prefix_of_token? hread)
          exact ⟨w, rfl, hw⟩
    obtain ⟨rest, rfl⟩ := hrest
    have htail := ih fun hn => hline (List.mem_cons_of_mem _ hn)
    have hcolumn : column + 1 + w.length = column + 0 + (c :: w).length := by
      rw [List.length_cons]
      omega
    rw [List.length_cons, Nat.add_sub_cancel, List.drop_left, hcolumn] at htail
    exact .token kind (List.cons_ne_nil c w) htail

namespace Tiled

variable {line column : Nat} {cs : List Char} {ts : List Token}

/-- Every token stands in its line, and its text is what stands there. -/
theorem placed (h : Tiled line column cs ts) {t : Token} (ht : t ∈ ts) :
    t.line = line ∧ column ≤ t.start ∧ t.start < t.stop ∧ t.stop ≤ column + cs.length ∧
      t.lexeme.toList = (cs.drop (t.start - column)).take (t.stop - t.start) := by
  induction h with
  | done | comment => cases ht
  | @blank column c cs ts _ _ ih =>
    obtain ⟨hline, hstart, hstop, hend, hlexeme⟩ := ih ht
    have hdrop : t.start - column = t.start - (column + 1) + 1 := by omega
    rw [hdrop, List.drop_succ_cons, List.length_cons]
    exact ⟨hline, by omega, hstop, by omega, hlexeme⟩
  | @token column w cs ts kind hw _ ih =>
    have hpos := List.length_pos_iff.mpr hw
    rw [List.length_append]
    rcases List.mem_cons.mp ht with rfl | ht
    · refine ⟨rfl, Nat.le_refl column, Nat.lt_add_of_pos_right hpos, ?_, ?_⟩
      · exact Nat.add_le_add_left (Nat.le_add_right _ _) column
      · rw [Nat.sub_self, List.drop_zero, Nat.add_sub_cancel_left, List.take_left, String.toList_ofList]
    · obtain ⟨hline, hstart, hstop, hend, hlexeme⟩ := ih ht
      have hdrop : t.start - column = w.length + (t.start - (column + w.length)) := by omega
      rw [hdrop, ← List.drop_drop, List.drop_left]
      exact ⟨hline, by omega, hstop, by omega, hlexeme⟩

/-- No token begins before the one ahead of it ends. -/
theorem apart (h : Tiled line column cs ts) : ts.Pairwise fun t u => t.stop ≤ u.start := by
  induction h with
  | done | comment => exact .nil
  | blank _ _ ih => exact ih
  | token kind _ hrest ih => exact .cons (fun u hu => (hrest.placed hu).2.1) ih

/-- Up to the end of the text or to `//`, what is in no token is blank. -/
theorem covered (h : Tiled line column cs ts) :
    ∃ n ≤ cs.length, (n = cs.length ∨ ['/', '/'] <+: cs.drop n) ∧ (∀ t ∈ ts, t.stop ≤ column + n) ∧
      ∀ j < n, ∀ c, cs[j]? = some c → isBlank c = true ∨ ∃ t ∈ ts, t.start ≤ column + j ∧ column + j < t.stop := by
  induction h with
  | done column =>
    exact ⟨0, Nat.le_refl 0, Or.inl rfl, fun t ht => absurd ht List.not_mem_nil,
      fun j hj => absurd hj (Nat.not_lt_zero j)⟩
  | comment column hcomment =>
    exact ⟨0, Nat.zero_le _, Or.inr hcomment, fun t ht => absurd ht List.not_mem_nil,
      fun j hj => absurd hj (Nat.not_lt_zero j)⟩
  | @blank column c cs ts hc _ ih =>
    obtain ⟨n, hn, hend, hstop, hcover⟩ := ih
    refine ⟨n + 1, Nat.succ_le_succ hn, ?_, fun t ht => ?_, fun j hj d hd => ?_⟩
    · rwa [List.length_cons, Nat.add_right_cancel_iff, List.drop_succ_cons]
    · have := hstop t ht
      omega
    · cases j with
      | zero =>
        rw [List.getElem?_cons_zero, Option.some.injEq] at hd
        exact Or.inl (hd ▸ hc)
      | succ j =>
        rw [List.getElem?_cons_succ] at hd
        have hj' := hcover j (by omega) d hd
        rwa [Nat.add_right_comm, Nat.add_assoc] at hj'
  | @token column w cs ts kind _ _ ih =>
    obtain ⟨n, hn, hend, hstop, hcover⟩ := ih
    refine ⟨w.length + n, ?_, ?_, fun t ht => ?_, fun j hj d hd => ?_⟩
    · rw [List.length_append]
      omega
    · rwa [List.length_append, Nat.add_left_cancel_iff, ← List.drop_drop, List.drop_left]
    · rcases List.mem_cons.mp ht with rfl | ht
      · show column + w.length ≤ _
        omega
      · have := hstop t ht
        omega
    · rcases Nat.lt_or_ge j w.length with hlt | hge
      · refine Or.inr ⟨_, List.mem_cons_self, Nat.le_add_right _ _, ?_⟩
        show column + j < column + w.length
        omega
      · rw [List.getElem?_append_right hge] at hd
        refine (hcover (j - w.length) (by omega) d hd).imp_right fun ⟨t, ht, hstart, hstop⟩ => ?_
        exact ⟨t, List.mem_cons_of_mem _ ht, by omega, by omega⟩

end Tiled

end Lexer

/-! ## All lines -/

open Lexer (Tiled)

/-- The lines of a source, the ends of lines left out. -/
def sourceLines (source : String) : List (List Char) := source.toList.splitOn '\n'

theorem tiled_line {source : String} {cs : List Char} {line : Nat} (h : (cs, line) ∈ (sourceLines source).zipIdx 1) :
    Tiled line 1 cs (Lexer.scanLine line 1 0 cs) :=
  Lexer.tiled_scanLine line 1 0 (Lexer.not_mem_of_mem_splitOn (List.fst_mem_of_mem_zipIdx h))

/-- The tokens that say that they stand in a line are those read from it. -/
theorem mem_scanLine_iff {source : String} {cs : List Char} {line : Nat}
    (h : (cs, line) ∈ (sourceLines source).zipIdx 1) {t : Token} :
    t ∈ Lexer.scanLine line 1 0 cs ↔ t ∈ tokenize source ∧ t.line = line := by
  constructor
  · exact fun ht => ⟨List.mem_flatMap.mpr ⟨(cs, line), h, ht⟩, ((tiled_line h).placed ht).1⟩
  · rintro ⟨ht, hline⟩
    obtain ⟨⟨ds, line'⟩, hds, ht⟩ := List.mem_flatMap.mp ht
    obtain rfl : line' = line := ((tiled_line hds).placed ht).1.symm.trans hline
    obtain ⟨-, hcs⟩ := List.mk_mem_zipIdx_iff_le_and_getElem?_sub.mp h
    obtain ⟨-, hds⟩ := List.mk_mem_zipIdx_iff_le_and_getElem?_sub.mp hds
    obtain rfl := Option.some.inj (hcs.symm.trans hds)
    exact ht

/-- Tokens are read line by line, and in each line one behind the other. -/
theorem pairwise_tokenize (source : String) :
    (tokenize source).Pairwise fun t u => t.line < u.line ∨ t.line = u.line ∧ t.stop ≤ u.start := by
  refine List.pairwise_flatMap.mpr ⟨fun ⟨cs, line⟩ hcs => ?_, ?_⟩
  · have htiled := tiled_line hcs
    refine htiled.apart.imp_of_mem fun ht hu hle => Or.inr ⟨?_, hle⟩
    rw [(htiled.placed ht).1, (htiled.placed hu).1]
  · have hnumbers : (((sourceLines source).zipIdx 1).map Prod.snd).Pairwise (· < ·) := by
      rw [List.zipIdx_map_snd]
      exact List.pairwise_lt_range'
    refine (List.pairwise_map.mp hnumbers).imp_of_mem fun hcs hds hlt t ht u hu => Or.inl ?_
    rw [((tiled_line hcs).placed ht).1, ((tiled_line hds).placed hu).1]
    exact hlt

/-- **The tokens of a source are its text, blanks and comments left out.** They follow each other without overlap, each
stands where it says, and in every line what is in no token is blank or follows `//`. Complaints are one for each
character that is no token. -/
theorem tokens_cover_source (source : String) :
    (tokenize source).Pairwise (fun t u => t.line < u.line ∨ t.line = u.line ∧ t.stop ≤ u.start) ∧
    (∀ t ∈ tokenize source, 1 ≤ t.line ∧ ∃ cs, (sourceLines source)[t.line - 1]? = some cs ∧
      1 ≤ t.start ∧ t.start < t.stop ∧ t.stop ≤ cs.length + 1 ∧
      t.lexeme.toList = (cs.drop (t.start - 1)).take (t.stop - t.start)) ∧
    (∀ i cs, (sourceLines source)[i]? = some cs → ∃ n ≤ cs.length, (n = cs.length ∨ ['/', '/'] <+: cs.drop n) ∧
      (∀ t ∈ tokenize source, t.line = i + 1 → t.stop ≤ n + 1) ∧
      ∀ j < n, ∀ c, cs[j]? = some c → Text.isBlank c = true ∨
        ∃ t ∈ tokenize source, t.line = i + 1 ∧ t.start ≤ j + 1 ∧ j + 1 < t.stop) ∧
    (lexicalDiagnostics (tokenize source)).map (fun d => (d.phase, d.message, d.line)) =
      ((tokenize source).filter fun t => t.kind = .unknown).map
        (fun t => (.lexical, "Unexpected '" ++ t.lexeme ++ "'", some t.line)) ∧
    ∀ t ∈ tokenize source, t.kind = .unknown → t.stop = t.start + 1 ∧ ∃ c, t.lexeme = String.singleton c := by
  have hplaced : ∀ t ∈ tokenize source, 1 ≤ t.line ∧ ∃ cs, (sourceLines source)[t.line - 1]? = some cs ∧
      1 ≤ t.start ∧ t.start < t.stop ∧ t.stop ≤ cs.length + 1 ∧
      t.lexeme.toList = (cs.drop (t.start - 1)).take (t.stop - t.start) := by
    intro t ht
    obtain ⟨⟨cs, line⟩, hcs, ht⟩ := List.mem_flatMap.mp ht
    obtain ⟨rfl, hstart, hstop, hend, hlexeme⟩ := (tiled_line hcs).placed ht
    obtain ⟨hline, hcs⟩ := List.mk_mem_zipIdx_iff_le_and_getElem?_sub.mp hcs
    exact ⟨hline, cs, hcs, hstart, hstop, Nat.add_comm 1 _ ▸ hend, hlexeme⟩
  refine ⟨pairwise_tokenize source, hplaced, fun i cs hcs => ?_, ?_, fun t ht hkind => ?_⟩
  · have hmem : (cs, i + 1) ∈ (sourceLines source).zipIdx 1 :=
      List.mk_mem_zipIdx_iff_le_and_getElem?_sub.mpr ⟨Nat.le_add_left 1 i, hcs⟩
    obtain ⟨n, hn, hend, hstop, hcover⟩ := (tiled_line hmem).covered
    refine ⟨n, hn, hend, fun t ht hline => ?_, fun j hj c hc => ?_⟩
    · have hle := hstop t ((mem_scanLine_iff hmem).mpr ⟨ht, hline⟩)
      omega
    · refine (hcover j hj c hc).imp_right fun ⟨t, ht, hstart, hend⟩ => ?_
      obtain ⟨ht, hline⟩ := (mem_scanLine_iff hmem).mp ht
      exact ⟨t, ht, hline, by omega, by omega⟩
  · rw [lexicalDiagnostics, List.map_map]
    rfl
  · have hform := Lexer.form_of_mem_tokenize ht
    rw [Lexer.WellFormed, hkind] at hform
    obtain ⟨c, hc⟩ := hform
    obtain ⟨-, cs, -, hstart, hstop, hend, hlexeme⟩ := hplaced t ht
    have hlength := congrArg List.length (hc.symm.trans hlexeme)
    rw [List.length_singleton, List.length_take, List.length_drop] at hlength
    exact ⟨by omega, c, String.toList_inj.mp (by rw [hc, String.toList_singleton])⟩

/-- A quote that no other one closes, before a comment. -/
theorem tokens_cover_source_with_open_string :
    (tokenize "a =. \"b // c\n; // d").map (fun t => (t.lexeme, t.line, t.start, t.stop)) =
        [("a", 1, 1, 2), ("=.", 1, 3, 5), ("\"", 1, 6, 7), ("b", 1, 7, 8), (";", 2, 1, 2)] ∧
      (lexicalDiagnostics (tokenize "a =. \"b // c\n; // d")).map (fun d => (d.phase, d.message, d.line)) =
        [(.lexical, "Unexpected '" ++ "\"" ++ "'", some 1)] := by
  refine ⟨by decide +kernel, (tokens_cover_source _).2.2.2.1.trans ?_⟩
  decide +kernel

end Dotlang
