import Dotlang.Proofs.Walking

/-!
# Loops in parentheses

Terms, arguments, parameters and the step of a counting loop are read in rounds until a parenthesis closes.

* `Chain.read_takeWhile` : a chain does not go past a closing parenthesis;
* `Walk.exec_consumedSince` : a slice lies in the tokens, wherever the index is;
* `Walk.follows_chain`, `Walk.follows_inside`, `Walk.follows_arguments` : the loops do what actions on lists do.
-/

namespace Dotlang

/-! ## Lists in parentheses -/

theorem isInside_of_kind {t : Token} {kind : TokenKind} (ht : t.kind = kind) (hkind : kind ≠ .rparen) :
    t.isInside = true := by
  simpa [Token.isInside, ht] using hkind

theorem isInside_of_isOperand {t : Token} (ht : t.kind.isOperand = true) : t.isInside = true := by
  simp only [Token.isInside, decide_eq_true_eq]
  intro h
  rw [h] at ht
  cases ht

theorem readTerms_eq_self {ts : List Token} (h : NoOperator ts) : Chain.readTerms ts = ([], ts) :=
  readTerms_of_spelled .nil h

/-- An operator that no operand follows ends a chain. -/
theorem readTerms_dangling {op : Token} {ts : List Token} (hop : op.kind = .operator)
    (h : ∀ t, ts.head? = some t → t.kind.isOperand = false) : Chain.readTerms (op :: ts) = ([], ts) := by
  cases ts with
  | nil => rw [Chain.readTerms, if_pos hop]
  | cons t ts => rw [Chain.readTerms, if_pos hop, if_neg (by simp [h t rfl])]

/-- No term goes past a closing parenthesis. -/
theorem readTerms_takeWhile (ts : List Token) :
    Chain.readTerms (ts.takeWhile Token.isInside) =
      ((Chain.readTerms ts).1, (Chain.readTerms ts).2.takeWhile Token.isInside) := by
  have hnone : ∀ ts, NoOperator ts →
      Chain.readTerms (ts.takeWhile Token.isInside) = ([], ts.takeWhile Token.isInside) := by
    refine fun ts h => readTerms_eq_self fun t ht => ?_
    rw [List.head?_takeWhile, Option.filter_eq_some_iff] at ht
    exact h t ht.1
  fun_induction Chain.readTerms ts with
  | case1 op rhs ts hop hrhs terms after heq ih =>
    rw [List.takeWhile_cons_of_pos (isInside_of_kind hop (by decide)),
      List.takeWhile_cons_of_pos (isInside_of_isOperand hrhs), Chain.readTerms, if_pos hop, if_pos hrhs, ih, heq]
  | case2 op rhs ts hop hrhs =>
    rw [List.takeWhile_cons_of_pos (isInside_of_kind hop (by decide))]
    by_cases hr : rhs.isInside = true
    · rw [List.takeWhile_cons_of_pos hr, Chain.readTerms, if_pos hop, if_neg hrhs]
    · rw [List.takeWhile_cons_of_neg hr, Chain.readTerms, if_pos hop]
  | case3 op rhs ts hop => exact hnone _ (noOperator_cons hop _)
  | case4 op =>
    split_ifs with hop
    · rw [List.takeWhile_cons_of_pos (isInside_of_kind hop (by decide)), List.takeWhile_nil, Chain.readTerms, if_pos hop]
    · exact hnone _ (noOperator_cons hop _)
  | case5 => rfl

/-- A chain in parentheses stays there. -/
theorem Chain.read_takeWhile {t : Token} (ht : t.isInside = true) (ts : List Token) :
    Chain.read (t :: ts.takeWhile Token.isInside) =
        ((Chain.read (t :: ts)).1, (Chain.read (t :: ts)).2.takeWhile Token.isInside) ∧
      (Chain.read (t :: ts)).2.dropWhile Token.isInside = ts.dropWhile Token.isInside := by
  constructor
  · rw [Chain.read, Chain.read, readTerms_takeWhile]
    split_ifs <;> rfl
  · obtain ⟨used, hused, hall⟩ := exists_read (t :: ts)
    have hinside : ∀ u ∈ used, u.isInside = true := by
      intro u hu
      rcases hall u hu with h | h | ⟨-, h⟩
      · exact isInside_of_isOperand h
      · exact isInside_of_kind h (by decide)
      · cases h
        exact ht
    calc (Chain.read (t :: ts)).2.dropWhile Token.isInside
        = (used ++ (Chain.read (t :: ts)).2).dropWhile Token.isInside := (List.dropWhile_append_of_pos hinside).symm
      _ = (t :: ts).dropWhile Token.isInside := by rw [← hused]
      _ = ts.dropWhile Token.isInside := List.dropWhile_cons_of_pos ht

/-- Nor does the comma behind an argument. -/
theorem dropComma_takeWhile (ts : List Token) :
    dropComma (ts.takeWhile Token.isInside) = (dropComma ts).takeWhile Token.isInside ∧
      (dropComma ts).dropWhile Token.isInside = ts.dropWhile Token.isInside := by
  cases ts with
  | nil => exact ⟨rfl, rfl⟩
  | cons t ts =>
    by_cases ht : t.kind = .comma
    · have hcomma : ∀ us, dropComma (t :: us) = us := fun us => if_pos (by simp [ht])
      have hinside := isInside_of_kind ht (by decide)
      rw [List.takeWhile_cons_of_pos hinside, hcomma, hcomma, List.dropWhile_cons_of_pos hinside]
      exact ⟨rfl, rfl⟩
    · have hother : ∀ us, us.head? = some t ∨ us = [] → dropComma us = us := by
        rintro us (hus | rfl)
        · exact if_neg (by simp [hus, ht])
        · rfl
      rw [hother (t :: ts) (Or.inl rfl), hother]
      · exact ⟨rfl, rfl⟩
      · by_cases hinside : t.isInside = true
        · rw [List.takeWhile_cons_of_pos hinside]
          exact Or.inl rfl
        · rw [List.takeWhile_cons_of_neg hinside]
          exact Or.inr rfl

/-- Every argument takes a token, so no more of them are read than there are tokens. -/
theorem readAll_of_length_le {ts : List Token} {fuel : Nat} (h : ts.length ≤ fuel) :
    Argument.readAll fuel ts = Argument.readAll ts.length ts := by
  have hfuel : ∀ m n, ∀ us : List Token, us.length ≤ m → us.length ≤ n →
      Argument.readAll m us = Argument.readAll n us := by
    intro m
    induction m with
    | zero =>
      intro n us hm _
      rw [List.length_eq_zero_iff.mp (Nat.le_zero.mp hm)]
      cases n <;> rfl
    | succ m ih =>
      intro n us hm hn
      cases us with
      | nil => cases n <;> rfl
      | cons t us =>
        obtain ⟨n, rfl⟩ := Nat.exists_eq_add_one.mpr (Nat.lt_of_lt_of_le (Nat.succ_pos us.length) hn)
        have hlater : ∀ vs, vs <:+ us → Argument.readAll m (dropComma vs) = Argument.readAll n (dropComma vs) := by
          intro vs hvs
          have hle := ((dropComma_suffix vs).trans hvs).length_le
          exact ih n _ (hle.trans (Nat.le_of_succ_le_succ hm)) (hle.trans (Nat.le_of_succ_le_succ hn))
        by_cases htype : t.kind = .dataType
        · rw [readAll_type htype, readAll_type htype, hlater us (List.suffix_refl us)]
        by_cases hoperand : t.kind.isOperand = true
        · rw [readAll_operand hoperand, readAll_operand hoperand, hlater _ (Chain.readTerms_suffix us)]
        · rw [readAll_other htype hoperand, readAll_other htype hoperand, hlater us (List.suffix_refl us)]
  exact hfuel fuel ts.length ts h (le_refl _)

/-! ## Chains -/

namespace Read

/-- Takes the terms behind the first operand of a chain. -/
def terms : Read (List (Operator × Operand)) := do
  let r ← get
  let (terms, rest) := Chain.readTerms r.rest
  set { r with rest }
  return terms

theorem exec_terms (r : Reader) :
    exec terms r = ((Chain.readTerms r.rest).1, { r with rest := (Chain.readTerms r.rest).2 }) := rfl

theorem chain_eq :
    chain = do
      match ← current with
      | none => return none
      | some first =>
        advance
        if first.kind.isOperand then return some ⟨first.operand, ← terms⟩ else return none := by
  funext ⟨rest, opened, ds⟩
  cases rest with
  | nil => rfl
  | cons t ts =>
    show exec chain _ = exec _ _
    simp only [exec_chain, exec_bind, exec_current, List.head?_cons, exec_advance, exec_ite, exec_terms, exec_pure,
      List.tail_cons, Chain.read]
    split <;> rfl

/-- Takes the next token if it is such a one. -/
def skipIf (p : Token → Bool) : Read Unit := do
  if (← current).any p then advance

theorem exec_skipIf (p : Token → Bool) (r : Reader) :
    exec (skipIf p) r = ((), { r with rest := if r.rest.head?.any p then r.rest.tail else r.rest }) := by
  rw [skipIf, exec_bind, exec_current, exec_ite]
  split <;> rfl

/-- Goes to the next closing parenthesis. -/
def skipInside : Read Unit := do
  let _ ← untilParen

theorem exec_skipInside (r : Reader) :
    exec skipInside r = ((), { r with rest := r.rest.dropWhile Token.isInside }) := rfl

/-- A data type or a chain. -/
def argument (t : Token) : Read (Option Argument) := do
  if t.kind = .dataType then
    advance
    return some (.type t.lexeme)
  else return (← chain).map Argument.value

/-- The arguments before the next closing parenthesis, no more than so many. -/
def arguments (n : Nat) : Read (List Argument) := do
  let inside ← untilParen
  return Argument.readAll n inside

theorem exec_arguments (n : Nat) (r : Reader) :
    exec (arguments n) r =
      (Argument.readAll n (r.rest.takeWhile Token.isInside), { r with rest := r.rest.dropWhile Token.isInside }) := rfl

theorem exec_skipComma (r : Reader) :
    exec (skipIf fun t => t.kind = .comma) r = ((), { r with rest := dropComma r.rest }) := exec_skipIf _ r

/-- An argument, the comma behind it and the other arguments. -/
theorem exec_arguments_succ {t : Token} (ht : t.isInside = true) {ts : List Token} (n : Nat) {r : Reader}
    (hr : r.rest = t :: ts) :
    exec (arguments (n + 1)) r =
      exec (do
        let arg ← argument t
        skipIf fun t => t.kind = .comma
        (arg.toList ++ ·) <$> arguments n) r := by
  rw [exec_arguments, hr, List.takeWhile_cons_of_pos ht, List.dropWhile_cons_of_pos ht, argument]
  simp only [exec_bind, exec_skipComma, exec_map, exec_arguments, exec_ite]
  split_ifs with htype
  · simp only [exec_advance, exec_pure, hr, List.tail_cons]
    rw [readAll_type htype, (dropComma_takeWhile ts).1, (dropComma_takeWhile ts).2]
    rfl
  · obtain ⟨hread, hdrop⟩ := Chain.read_takeWhile ht ts
    simp only [exec_chain, exec_pure, hr]
    rw [(dropComma_takeWhile _).2, hdrop, Argument.readAll, if_neg htype, hread, ← (dropComma_takeWhile _).1]
    rfl

end Read

namespace Walk

variable {α β γ : Type} {tokens : List Token} {bound gain limit : Nat}

/-- What has been done needs nothing behind it. -/
theorem reaches_done {m : Read α} {a : α} {c : Cursor} (h : Read.exec m (c.reader tokens) = (a, c.reader tokens)) :
    Reaches tokens 0 (return a) m c :=
  ⟨c, by rw [h]; rfl, by rw [h], le_refl _, le_refl _⟩

theorem round_terms (c : Cursor) (m : Read (List (Operator × Operand))) (hm : m = Read.terms) :
    Round tokens termRound (return []) (fun _ m => m = Read.terms) c m := by
  subst hm
  refine Round.whenNext (fun hneg => reaches_done ?_) fun op ts hr hop => ?_
  · rw [Read.exec_terms, readTerms_eq_self fun t ht => by simpa using hneg t ht]
  have hleft := c.length_rest tokens
  have hnext := c.reader_next tokens
  rw [decide_eq_true_eq] at hop
  rw [hr] at hnext hleft
  -- the round goes on with an operand behind the operator, and has advanced without one
  by_cases hoperand : ∃ rhs us, ts = rhs :: us ∧ rhs.kind.isOperand = true
  · obtain ⟨rhs, us, rfl, hrhs⟩ := hoperand
    refine .on ((Operator.ofLexeme? op.lexeme).toList.map (·, rhs.operand) ++ ·) c.next.next Read.terms ?_
      (by rw [← hleft]; exact Nat.succ_pos _) (Nat.lt_succ_of_lt (Nat.lt_succ_self _)) (le_refl _) rfl ?_
    · rw [exec_bind, exec_advance, Option.bind_some, operandRound,
        exec_whenNext_of_pos tokens (t := rhs) (by rw [hnext]; rfl) hrhs]
      rfl
    · rw [Cursor.reader_next, hnext, hr, Read.exec_terms, Read.exec_terms, Chain.readTerms, if_pos hop, if_pos hrhs]
      rfl
  · have hdangling : ∀ t, ts.head? = some t → t.kind.isOperand = false := by
      intro t ht
      obtain ⟨us, rfl⟩ := List.head?_eq_some_iff.mp ht
      exact Bool.eq_false_iff.mpr fun h => hoperand ⟨t, us, rfl, h⟩
    refine .out c.next (return []) ?_ (Nat.le_succ _) (le_refl _) (reaches_done rfl) ?_
    · rw [exec_bind, exec_advance]
      exact exec_whenNext_of_neg tokens fun t ht => hdangling t (by rwa [hnext] at ht)
    · rw [hr, hnext, Read.exec_terms, readTerms_dangling hop hdangling]
      rfl

theorem follows_terms (hlimit : bound < limit) :
    Follows tokens bound 0 (loop termRound (return []) limit) Read.terms :=
  fun _ hc => reaches_loop round_terms rfl (hc.trans_lt hlimit)

/-- A chain takes a token if there is one. -/
theorem reaches_chain {c : Cursor} (hlimit : c.left tokens < limit) :
    Reaches tokens (min 1 (c.left tokens)) (chain limit) Read.chain c := by
  have hleft := c.length_rest tokens
  rw [Read.chain_eq]
  refine Reaches.current_bind ?_
  cases hrest : (c.reader tokens).rest with
  | nil =>
    rw [hrest, List.length_nil] at hleft
    rw [← hleft]
    exact Follows.pure none c (le_refl _)
  | cons t ts =>
    rw [hrest, List.length_cons] at hleft
    refine Reaches.mono ?_ (min_le_left _ _)
    exact Follows.bind .advance (fun _ => .ite (.bind (follows_terms hlimit) fun _ => .pure _) (.pure none)) c (le_refl _)

theorem reaches_chain_of_pos {c : Cursor} (hpos : 0 < c.left tokens) (hlimit : c.left tokens < limit) :
    Reaches tokens 1 (chain limit) Read.chain c :=
  (reaches_chain hlimit).mono (le_min (le_refl 1) hpos)

theorem follows_chain (hlimit : bound < limit) : Follows tokens bound 0 (chain limit) Read.chain :=
  fun _ hc => (reaches_chain (hc.trans_lt hlimit)).mono (Nat.zero_le _)

/-! ## Slices -/

/-- A slice lies in the tokens, wherever the index is. -/
theorem exec_consumedSince (start : Nat) (c : Cursor) :
    exec (consumedSince start) tokens c = some ((tokens.drop start).take (c.index - start), c) := by
  have hcut : (tokens.drop (min start (min c.index tokens.length))).take
      (min c.index tokens.length - min start (min c.index tokens.length)) = (tokens.drop start).take (c.index - start) := by
    by_cases hstart : start ≤ c.index ∧ start ≤ tokens.length
    · rw [min_eq_left (le_min hstart.1 hstart.2), List.take_eq_take_iff, List.length_drop]
      omega
    · rw [show min c.index tokens.length - min start (min c.index tokens.length) = 0 by omega, List.take_zero, eq_comm,
        List.take_eq_nil_iff, List.drop_eq_nil_iff]
      omega
  have hslice : slice? tokens (min start (min c.index tokens.length)) (min c.index tokens.length) =
      some ((tokens.drop start).take (c.index - start)) := by
    rw [slice?, if_pos ⟨min_le_right _ _, min_le_right _ _⟩, hcut]
  show exec ((slice? tokens (min start (min c.index tokens.length)) (min c.index tokens.length)).elim failure pure) tokens
    c = _
  rw [hslice]
  rfl

theorem take_eq_takeWhile {ts : List α} {p : α → Bool} {k : Nat} (h : ts.drop k = ts.dropWhile p) :
    ts.take k = ts.takeWhile p := by
  refine (List.append_left_inj (ts.drop k)).mp ?_
  rw [List.take_append_drop, h, List.takeWhile_append_dropWhile]

/-- The rounds go over what is in the parentheses, and the slice is what they went over. -/
theorem follows_inside {round : Walk (Option (Unit → Unit))} (hlimit : bound < limit)
    (h : ∀ c m, Remains tokens bound (fun _ => Read.skipInside) c m →
      Round tokens round (return ()) (Remains tokens bound fun _ => Read.skipInside) c m) :
    Follows tokens bound 0 (inside limit round) Read.untilParen := by
  intro c hc
  obtain ⟨c', hloop⟩ := reaches_loop h (.start hc) (hc.trans_lt hlimit)
  have hrest : tokens.drop c'.index = (tokens.drop c.index).dropWhile Token.isInside := congrArg Reader.rest hloop.reads
  have hslice : (tokens.drop c.index).take (c'.index - c.index) = (tokens.drop c.index).takeWhile Token.isInside := by
    refine take_eq_takeWhile ?_
    rw [List.drop_drop, Nat.add_sub_cancel' (show c.index ≤ c'.index from hloop.gains), hrest]
  refine ⟨c', ?_, ?_, hloop.gains, hloop.closes⟩
  · show (exec (loop round (return ()) limit) tokens c).bind (fun r => exec (consumedSince c.index) tokens r.2) = _
    rw [hloop.walks, Option.bind_some, exec_consumedSince, hslice]
    rfl
  · rw [hloop.reads]
    rfl

theorem dropWhile_eq_self {ts : List α} {p : α → Bool} (h : ∀ t, ts.head? = some t → p t = false) :
    ts.dropWhile p = ts := by
  cases ts with
  | nil => rfl
  | cons t ts => exact List.dropWhile_cons_of_neg (by simp [h t rfl])

/-- A round that begins in the parentheses and does not leave them. -/
theorem round_inside {g : Token → Walk (Option (Unit → Unit))} (b : Token → Read (Option (Unit → Unit))) {c : Cursor}
    {m : Read Unit} (hm : Remains tokens bound (fun _ => Read.skipInside) c m)
    (hround : ∀ t, 0 < c.left tokens → Reaches tokens 1 (g t) (b t) c)
    (hb : ∀ t ts, t.isInside = true → (Read.exec (b t) ⟨t :: ts, c.opened, c.diagnostics⟩).1 = some id ∧
      Read.exec Read.skipInside (Read.exec (b t) ⟨t :: ts, c.opened, c.diagnostics⟩).2 =
        ((), ⟨ts.dropWhile Token.isInside, c.opened, c.diagnostics⟩)) :
    Round tokens (whenNext Token.isInside g) (return ()) (Remains tokens bound fun _ => Read.skipInside) c m := by
  refine Round.fuelled (fun _ => b) hm (fun _ _ hneg => reaches_done ?_) (fun t _ hpos _ _ => hround t hpos)
    fun t ts _ hr ht => ?_
  · rw [Read.exec_skipInside, dropWhile_eq_self hneg]
  · obtain ⟨hon, hskip⟩ := hb t ts ht
    refine ⟨id, by rw [hr, hon], ?_⟩
    rw [hr, hskip, Read.exec_skipInside, List.dropWhile_cons_of_pos ht]
    rfl

theorem follows_skipIf (p : Token → Bool) : Follows tokens bound 0 (skipIf p) (Read.skipIf p) :=
  .bind .current fun _ => .ite (.any .advance) (.pure ())

theorem round_parameter (c : Cursor) (m : Read Unit) (hm : Remains tokens bound (fun _ => Read.skipInside) c m) :
    Round tokens parameterRound (return ()) (Remains tokens bound fun _ => Read.skipInside) c m := by
  refine round_inside (fun _ => do Read.advance; return some id) hm (fun t _ => ?_) fun t ts ht => ⟨rfl, rfl⟩
  exact Follows.bind .advance (fun _ => .pure _) c (le_refl _)

theorem round_step (hlimit : bound < limit) (c : Cursor) (m : Read Unit)
    (hm : Remains tokens bound (fun _ => Read.skipInside) c m) :
    Round tokens (stepRound limit) (return ()) (Remains tokens bound fun _ => Read.skipInside) c m := by
  refine round_inside (fun _ => do
      let _ ← Read.chain
      Read.skipIf Token.isInside
      return some id) hm (fun t hpos => ?_) fun t ts ht => ⟨rfl, ?_⟩
  · exact (reaches_chain_of_pos hpos (hm.1.trans_lt hlimit)).bind fun _ => .bind (follows_skipIf _) fun _ => .pure _
  · obtain ⟨-, hdrop⟩ := Chain.read_takeWhile ht ts
    simp only [Read.exec_bind, Read.exec_chain, Read.exec_skipIf, Read.exec_pure, Read.exec_skipInside]
    rw [← hdrop]
    congr 2
    cases (Chain.read (t :: ts)).2 with
    | nil => rfl
    | cons u us =>
      split_ifs with hu
      · exact (List.dropWhile_cons_of_pos (show u.isInside = true from hu)).symm
      · rfl

/-! ## Arguments -/

theorem reaches_argument {c : Cursor} (hpos : 0 < c.left tokens) (hlimit : c.left tokens < limit) (t : Token) :
    Reaches tokens 1 (argument limit t) (Read.argument t) c := by
  unfold argument Read.argument
  split
  · exact Follows.bind .advance (fun _ => .pure _) c (le_refl _)
  · exact (reaches_chain_of_pos hpos hlimit).bind fun _ => .pure _

theorem round_argument (hlimit : bound < limit) (c : Cursor) (m : Read (List Argument))
    (hm : Remains tokens bound Read.arguments c m) :
    Round tokens (argumentRound limit) (return []) (Remains tokens bound Read.arguments) c m := by
  refine Round.fuelled (fun _ t => do
      let arg ← Read.argument t
      Read.skipIf fun t => t.kind = .comma
      return some (arg.toList ++ ·)) hm (fun n _ hneg => reaches_done ?_) (fun t n hpos _ _ => ?_)
    fun t ts n hr ht => ⟨_, rfl, ?_⟩
  · have hnone : (c.reader tokens).rest.takeWhile Token.isInside = [] := by
      rw [← List.head?_eq_none_iff, List.head?_takeWhile, Option.filter_eq_none_iff]
      exact fun t ht => by simp [hneg t ht]
    rw [Read.exec_arguments, dropWhile_eq_self hneg, hnone, readAll_nil]
  · exact (reaches_argument hpos (hm.1.trans_lt hlimit) t).bind fun _ => .bind (follows_skipIf _) fun _ => .pure _
  · rw [hr, Read.exec_arguments_succ ht n rfl]
    rfl

/-- The arguments of a call, one after the other, are those in the slice up to the closing parenthesis. -/
theorem follows_arguments (hlimit : bound < limit) :
    Follows tokens bound 0 (loop (argumentRound limit) (return []) limit) (do
      let inside ← Read.untilParen
      return Argument.readAll inside.length inside) := by
  intro c hc
  have hall : Read.exec (Read.arguments (c.left tokens)) (c.reader tokens) =
      Read.exec (do
        let inside ← Read.untilParen
        return Argument.readAll inside.length inside) (c.reader tokens) := by
    have hle : ((c.reader tokens).rest.takeWhile Token.isInside).length ≤ c.left tokens :=
      (List.takeWhile_prefix _).length_le.trans (c.length_rest tokens).le
    rw [Read.exec_arguments, readAll_of_length_le hle]
    rfl
  exact (reaches_loop (round_argument hlimit) (.start hc) (hc.trans_lt hlimit)).congr hall

end Walk

end Dotlang
