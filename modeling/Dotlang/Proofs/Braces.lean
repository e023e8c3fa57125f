import Dotlang.Proofs.Reader

/-!
# Braces

* `Balanced ts` : every opening brace of `ts` has its closing brace in `ts`, and the other way round;
* `Balanced.count_eq`, `Balanced.count_le` : as many braces are closed as are opened, and in no prefix more;
* `unclosed` : the lines of the opening braces that a token list leaves open, the innermost first;
* `behindBlock` : the tokens behind a block in braces.
-/

namespace Dotlang

def Token.isBrace (t : Token) : Bool := t.kind = .lcurly ∨ t.kind = .rcurly

theorem Token.isBrace_eq_false {t : Token} : t.isBrace = false ↔ t.kind ≠ .lcurly ∧ t.kind ≠ .rcurly := by
  simp [isBrace]

theorem Token.isBrace_of_kind {t : Token} {kind : TokenKind} (h : t.kind = kind) (hl : kind ≠ .lcurly)
    (hr : kind ≠ .rcurly) : t.isBrace = false := by
  subst h
  exact isBrace_eq_false.mpr ⟨hl, hr⟩

/-- A prefix of two lists, one behind the other, ends in the first or in the second. -/
theorem prefix_of_append {α : Type} {p ts us : List α} (h : p <+: ts ++ us) :
    p <+: ts ∨ ∃ q, p = ts ++ q ∧ q <+: us := by
  rcases List.prefix_or_prefix_of_prefix h (List.prefix_append ts us) with hp | ⟨q, rfl⟩
  · exact Or.inl hp
  · exact Or.inr ⟨q, rfl, (List.prefix_append_right_inj ts).mp h⟩

/-- A prefix of a block and what is behind it ends before the block, in it or behind it. -/
theorem prefix_of_block {α : Type} {p ts us : List α} {l r : α} (h : p <+: l :: (ts ++ r :: us)) :
    p = [] ∨ (∃ q, p = l :: q ∧ q <+: ts) ∨ ∃ q, p = l :: (ts ++ r :: q) ∧ q <+: us := by
  rcases List.prefix_cons_iff.mp h with rfl | ⟨inside, rfl, hinside⟩
  · exact Or.inl rfl
  rcases prefix_of_append hinside with hts | ⟨behind, rfl, hbehind⟩
  · exact Or.inr (Or.inl ⟨inside, rfl, hts⟩)
  rcases List.prefix_cons_iff.mp hbehind with rfl | ⟨q, rfl, hq⟩
  · exact Or.inr (Or.inl ⟨ts ++ [], rfl, by rw [List.append_nil]⟩)
  · exact Or.inr (Or.inr ⟨q, rfl, hq⟩)

/-! ## Balance -/

inductive Balanced : List Token → Prop where
  | nil : Balanced []
  | other {t : Token} {ts : List Token} (ht : t.isBrace = false) (h : Balanced ts) : Balanced (t :: ts)
  | block {l r : Token} {ts us : List Token} (hl : l.kind = .lcurly) (h : Balanced ts) (hr : r.kind = .rcurly)
      (hus : Balanced us) : Balanced (l :: (ts ++ r :: us))

theorem Balanced.of_forall {ts : List Token} (h : ∀ t ∈ ts, t.isBrace = false) : Balanced ts := by
  induction ts with
  | nil => exact .nil
  | cons t ts ih => exact .other (h t List.mem_cons_self) (ih fun u hu => h u (List.mem_cons_of_mem t hu))

theorem Balanced.append {ts us : List Token} (h : Balanced ts) (hus : Balanced us) : Balanced (ts ++ us) := by
  induction h with
  | nil => exact hus
  | other ht _ ih => exact .other ht ih
  | block hl h hr _ _ ih =>
    rw [List.cons_append, List.append_assoc, List.cons_append]
    exact .block hl h hr ih

/-- How many tokens of a kind there are. -/
def occurrences (kind : TokenKind) (ts : List Token) : Nat := ts.countP fun t => t.kind = kind

theorem occurrences_append (kind : TokenKind) (ts us : List Token) :
    occurrences kind (ts ++ us) = occurrences kind ts + occurrences kind us := List.countP_append

theorem occurrences_cons (kind : TokenKind) (t : Token) (ts : List Token) :
    occurrences kind (t :: ts) = occurrences kind ts + if t.kind = kind then 1 else 0 := by
  simp [occurrences, List.countP_cons]

theorem Balanced.count_eq {ts : List Token} (h : Balanced ts) :
    occurrences .rcurly ts = occurrences .lcurly ts := by
  induction h with
  | nil => rfl
  | other ht _ ih =>
    obtain ⟨hl, hr⟩ := Token.isBrace_eq_false.mp ht
    rw [occurrences_cons, occurrences_cons, if_neg hl, if_neg hr, ih]
  | block hl _ hr _ ih ihus =>
    simp only [occurrences_cons, occurrences_append, hl, hr, ih, ihus, reduceCtorEq, if_true, if_false]
    omega

theorem Balanced.count_le {ts : List Token} (h : Balanced ts) {p : List Token} (hp : p <+: ts) :
    occurrences .rcurly p ≤ occurrences .lcurly p := by
  induction h generalizing p with
  | nil =>
    rw [List.prefix_nil.mp hp]
    exact Nat.le_refl _
  | other ht _ ih =>
    rcases List.prefix_cons_iff.mp hp with rfl | ⟨q, rfl, hq⟩
    · exact Nat.le_refl _
    · obtain ⟨hl, hr⟩ := Token.isBrace_eq_false.mp ht
      rw [occurrences_cons, occurrences_cons, if_neg hl, if_neg hr]
      exact ih hq
  | block hl h hr _ ih ihus =>
    rcases prefix_of_block hp with rfl | ⟨q, rfl, hq⟩ | ⟨q, rfl, hq⟩
    · exact Nat.le_refl _
    · have hle := ih hq
      simp only [occurrences_cons, hl, reduceCtorEq, if_true, if_false]
      omega
    · have hle := ihus hq
      simp only [occurrences_cons, occurrences_append, hl, hr, h.count_eq, reduceCtorEq, if_true, if_false]
      omega

/-! ## Open blocks -/

/-- The lines of the opening braces that are not closed, the innermost first, given those that were open before. -/
def unclosed : List Nat → List Token → List Nat
  | opened, [] => opened
  | opened, t :: ts =>
    if t.kind = .lcurly then unclosed (t.line :: opened) ts
    else if t.kind = .rcurly then unclosed opened.tail ts
    else unclosed opened ts

theorem unclosed_lcurly {l : Token} (hl : l.kind = .lcurly) (opened : List Nat) (ts : List Token) :
    unclosed opened (l :: ts) = unclosed (l.line :: opened) ts := if_pos hl

theorem unclosed_rcurly {r : Token} (hr : r.kind = .rcurly) (opened : List Nat) (ts : List Token) :
    unclosed opened (r :: ts) = unclosed opened.tail ts := by
  rw [unclosed, if_neg (by rw [hr]; decide), if_pos hr]

theorem unclosed_other {t : Token} (ht : t.isBrace = false) (opened : List Nat) (ts : List Token) :
    unclosed opened (t :: ts) = unclosed opened ts := by
  obtain ⟨hl, hr⟩ := Token.isBrace_eq_false.mp ht
  rw [unclosed, if_neg hl, if_neg hr]

/-- What is balanced leaves no block open and closes none. -/
theorem Balanced.unclosed_append {ts : List Token} (h : Balanced ts) (opened : List Nat) (rest : List Token) :
    unclosed opened (ts ++ rest) = unclosed opened rest := by
  induction h generalizing opened rest with
  | nil => rfl
  | other ht _ ih =>
    rw [List.cons_append, unclosed_other ht]
    exact ih opened rest
  | @block l r ts us hl _ hr _ ih ihus =>
    calc unclosed opened (l :: (ts ++ r :: us) ++ rest)
        = unclosed (l.line :: opened) (ts ++ r :: (us ++ rest)) := by
          rw [List.cons_append, List.append_assoc, List.cons_append, unclosed_lcurly hl]
      _ = unclosed (l.line :: opened) (r :: (us ++ rest)) := ih _ _
      _ = unclosed opened (us ++ rest) := unclosed_rcurly hr _ _
      _ = unclosed opened rest := ihus opened rest

/-! ## Behind a block -/

/-- The tokens behind the block that begins first, given how many blocks are open already. -/
def behindBlock : Nat → List Token → List Token
  | _, [] => []
  | depth, t :: ts =>
    if t.kind = .lcurly then behindBlock (depth + 1) ts
    else if t.kind = .rcurly then if depth ≤ 1 then ts else behindBlock (depth - 1) ts
    else behindBlock depth ts

theorem behindBlock_lcurly {l : Token} (hl : l.kind = .lcurly) (depth : Nat) (ts : List Token) :
    behindBlock depth (l :: ts) = behindBlock (depth + 1) ts := if_pos hl

theorem behindBlock_rcurly {r : Token} (hr : r.kind = .rcurly) (depth : Nat) (ts : List Token) :
    behindBlock depth (r :: ts) = if depth ≤ 1 then ts else behindBlock (depth - 1) ts := by
  rw [behindBlock, if_neg (by rw [hr]; decide), if_pos hr]

theorem behindBlock_other {t : Token} (ht : t.isBrace = false) (depth : Nat) (ts : List Token) :
    behindBlock depth (t :: ts) = behindBlock depth ts := by
  obtain ⟨hl, hr⟩ := Token.isBrace_eq_false.mp ht
  rw [behindBlock, if_neg hl, if_neg hr]

/-- An open block goes on behind what is balanced. -/
theorem Balanced.behindBlock_append {ts : List Token} (h : Balanced ts) (depth : Nat) (rest : List Token) :
    behindBlock (depth + 1) (ts ++ rest) = behindBlock (depth + 1) rest := by
  induction h generalizing depth rest with
  | nil => rfl
  | other ht _ ih =>
    rw [List.cons_append, behindBlock_other ht]
    exact ih depth rest
  | @block l r ts us hl _ hr _ ih ihus =>
    calc behindBlock (depth + 1) (l :: (ts ++ r :: us) ++ rest)
        = behindBlock (depth + 1 + 1) (ts ++ r :: (us ++ rest)) := by
          rw [List.cons_append, List.append_assoc, List.cons_append, behindBlock_lcurly hl]
      _ = behindBlock (depth + 1 + 1) (r :: (us ++ rest)) := ih _ _
      _ = behindBlock (depth + 1) (us ++ rest) := by
          rw [behindBlock_rcurly hr, if_neg (by omega), Nat.add_sub_cancel]
      _ = behindBlock (depth + 1) rest := ihus depth rest

/-- An open block does not end in what is balanced, wherever that is cut. -/
theorem Balanced.behindBlock_prefix {ts : List Token} (h : Balanced ts) {p : List Token} (hp : p <+: ts)
    (depth : Nat) : behindBlock (depth + 1) p = [] := by
  induction h generalizing p depth with
  | nil =>
    rw [List.prefix_nil.mp hp]
    rfl
  | other ht _ ih =>
    rcases List.prefix_cons_iff.mp hp with rfl | ⟨q, rfl, hq⟩
    · rfl
    · rw [behindBlock_other ht]
      exact ih hq depth
  | block hl h hr _ ih ihus =>
    rcases prefix_of_block hp with rfl | ⟨q, rfl, hq⟩ | ⟨q, rfl, hq⟩
    · rfl
    · rw [behindBlock_lcurly hl]
      exact ih hq (depth + 1)
    · rw [behindBlock_lcurly hl, h.behindBlock_append, behindBlock_rcurly hr, if_neg (by omega)]
      exact ihus hq depth

/-- A token list that is one block. -/
inductive InBraces : List Token → Prop where
  | mk {l r : Token} {ts : List Token} (hl : l.kind = .lcurly) (h : Balanced ts) (hr : r.kind = .rcurly) :
      InBraces (l :: (ts ++ [r]))

namespace InBraces

variable {ts : List Token}

theorem balanced (h : InBraces ts) : Balanced ts := by
  obtain ⟨hl, h, hr⟩ := h
  exact .block hl h hr .nil

theorem behindBlock_append (h : InBraces ts) (rest : List Token) : behindBlock 0 (ts ++ rest) = rest := by
  obtain ⟨hl, h, hr⟩ := h
  rw [List.cons_append, List.append_assoc, List.singleton_append, behindBlock_lcurly hl, h.behindBlock_append,
    behindBlock_rcurly hr, if_pos (Nat.le_refl 1)]

/-- Nothing is behind a block that is cut. -/
theorem behindBlock_prefix (h : InBraces ts) {p : List Token} (hp : p <+: ts) : behindBlock 0 p = [] := by
  obtain ⟨hl, h, hr⟩ := h
  rcases prefix_of_block hp with rfl | ⟨q, rfl, hq⟩ | ⟨q, rfl, hq⟩
  · rfl
  · rw [behindBlock_lcurly hl]
    exact h.behindBlock_prefix hq 0
  · rw [behindBlock_lcurly hl, h.behindBlock_append, behindBlock_rcurly hr, if_pos (Nat.le_refl 1),
      List.prefix_nil.mp hq]

end InBraces

end Dotlang
