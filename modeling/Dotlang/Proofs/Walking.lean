import Dotlang.Proofs.Cursor

/-!
# Walks that do what actions on a token list do

* `Walk.Reaches tokens gain w m c` : from `c`, the index reading `w` returns what `m` returns on the tokens that are left,
  leaves what it leaves, and its index has grown by `gain`;
* `Walk.Follows tokens bound gain w m` : so it is wherever at most `bound` tokens are left. One lemma for each way to build
  actions;
* `Walk.Round` : what a round of a loop comes to. `Walk.Round.fuelled` is for actions on lists that spend fuel;
* `Walk.reaches_loop` : the loop.
-/

namespace Dotlang

namespace Cursor

variable (tokens : List Token) (c : Cursor)

/-- How many tokens there are from the index on. -/
def left : Nat := tokens.length - c.index

theorem length_rest : (c.reader tokens).rest.length = c.left tokens := List.length_drop

theorem reader_next : c.next.reader tokens = { c.reader tokens with rest := (c.reader tokens).rest.tail } := by
  rw [reader, reader, next, List.tail_drop]

end Cursor

namespace Walk

variable {α β γ : Type} {tokens : List Token} {bound gain limit : Nat}

/-- What an action returns and where it arrives, if it does. -/
def exec (w : Walk α) (tokens : List Token) (c : Cursor) : Option (α × Cursor) := (w.run tokens).run c

section Equations

variable (tokens) (c : Cursor)

theorem exec_bind (w : Walk α) (f : α → Walk β) :
    exec (w >>= f) tokens c = (exec w tokens c).bind fun r => exec (f r.1) tokens r.2 := rfl

theorem exec_map (w : Walk α) (f : α → β) :
    exec (f <$> w) tokens c = (exec w tokens c).map fun r => (f r.1, r.2) := by
  rw [← bind_pure_comp, exec_bind]
  cases exec w tokens c <;> rfl

theorem exec_advance : exec advance tokens c = some ((), c.next) := rfl

theorem exec_current : exec current tokens c = some ((c.reader tokens).rest.head?, c) := by
  rw [Cursor.reader, List.head?_drop]
  rfl

theorem exec_following : exec following tokens c = some ((c.reader tokens).rest.tail.head?, c) := by
  rw [Cursor.reader, List.tail_drop, List.head?_drop]
  rfl

variable {c} {t : Token} {p : Token → Bool}

theorem exec_whenNext_of_pos {f : Token → Walk (Option α)} (ht : (c.reader tokens).rest.head? = some t) (hp : p t = true) :
    exec (whenNext p f) tokens c = exec (f t) tokens c := by
  rw [whenNext, exec_bind, exec_current, ht, Option.bind_some]
  dsimp only
  rw [if_pos hp]

theorem exec_whenNext_of_neg {f : Token → Walk (Option α)} (h : ∀ t, (c.reader tokens).rest.head? = some t → p t = false) :
    exec (whenNext p f) tokens c = some (none, c) := by
  rw [whenNext, exec_bind, exec_current, Option.bind_some]
  cases ht : (c.reader tokens).rest.head? with
  | none => rfl
  | some t =>
    dsimp only
    rw [if_neg (by simp [h t ht])]
    rfl

end Equations

/-! ## Walks that do what actions on lists do -/

/-- From here to there. -/
structure Arrives (tokens : List Token) (gain : Nat) (w : Walk α) (m : Read α) (c c' : Cursor) : Prop where
  walks : exec w tokens c = some ((Read.exec m (c.reader tokens)).1, c')
  reads : c'.reader tokens = (Read.exec m (c.reader tokens)).2
  gains : c.index + gain ≤ c'.index
  closes : c'.opened.length ≤ c.opened.length

/-- The walk ends, as the action on what is left of the list does. -/
def Reaches (tokens : List Token) (gain : Nat) (w : Walk α) (m : Read α) (c : Cursor) : Prop :=
  ∃ c', Arrives tokens gain w m c c'

/-- So it does wherever no more than so many tokens are left. -/
def Follows (tokens : List Token) (bound gain : Nat) (w : Walk α) (m : Read α) : Prop :=
  ∀ c : Cursor, c.left tokens ≤ bound → Reaches tokens gain w m c

theorem Arrives.left_le {w : Walk α} {m : Read α} {c c' : Cursor} (h : Arrives tokens gain w m c c') :
    c'.left tokens ≤ c.left tokens - gain := by
  have hgains := h.gains
  unfold Cursor.left
  omega

namespace Reaches

variable {w : Walk α} {m : Read α} {c : Cursor}

theorem join {more : Nat} {f : α → Walk β} {g : α → Read β} (hw : Reaches tokens gain w m c)
    (hf : ∀ a, Follows tokens (c.left tokens - gain) more (f a) (g a)) :
    Reaches tokens (gain + more) (w >>= f) (m >>= g) c := by
  obtain ⟨c', h⟩ := hw
  obtain ⟨c'', h'⟩ := hf _ c' h.left_le
  refine ⟨c'', ?_, ?_, ?_, h'.closes.trans h.closes⟩
  · rw [exec_bind, h.walks, Option.bind_some, h'.walks, h.reads]
    rfl
  · rw [h'.reads, h.reads]
    rfl
  · have hgains := h.gains
    have hgains' := h'.gains
    omega

theorem bind {f : α → Walk β} {g : α → Read β} (hw : Reaches tokens gain w m c)
    (hf : ∀ a, Follows tokens (c.left tokens - gain) 0 (f a) (g a)) : Reaches tokens gain (w >>= f) (m >>= g) c :=
  hw.join hf

theorem mono {less : Nat} (h : Reaches tokens gain w m c) (hle : less ≤ gain) : Reaches tokens less w m c := by
  obtain ⟨c', h⟩ := h
  exact ⟨c', h.walks, h.reads, (Nat.add_le_add_left hle _).trans h.gains, h.closes⟩

theorem congr {m' : Read α} (h : Reaches tokens gain w m c)
    (heq : Read.exec m (c.reader tokens) = Read.exec m' (c.reader tokens)) : Reaches tokens gain w m' c := by
  obtain ⟨c', h⟩ := h
  exact ⟨c', heq ▸ h.walks, heq ▸ h.reads, h.gains, h.closes⟩

/-- After a look at what comes next. -/
theorem current_bind {f : Option Token → Walk β} {g : Option Token → Read β}
    (h : Reaches tokens gain (f (c.reader tokens).rest.head?) (g (c.reader tokens).rest.head?) c) :
    Reaches tokens gain (Walk.current >>= f) (Read.current >>= g) c := by
  obtain ⟨c', h⟩ := h
  refine ⟨c', ?_, h.reads, h.gains, h.closes⟩
  rw [exec_bind, exec_current, Option.bind_some, h.walks]
  rfl

end Reaches

namespace Follows

theorem pure (a : α) : Follows tokens bound 0 (Pure.pure a) (Pure.pure a) :=
  fun c _ => ⟨c, rfl, rfl, le_refl _, le_refl _⟩

section

variable {w : Walk α} {m : Read α}

theorem mono {bound' : Nat} (h : Follows tokens bound gain w m) (hle : bound' ≤ bound) :
    Follows tokens bound' gain w m := fun c hc => h c (hc.trans hle)

theorem any (h : Follows tokens bound gain w m) : Follows tokens bound 0 w m :=
  fun c hc => (h c hc).mono (Nat.zero_le _)

theorem bind {f : α → Walk β} {g : α → Read β} (hw : Follows tokens bound gain w m)
    (hf : ∀ a, Follows tokens bound 0 (f a) (g a)) : Follows tokens bound gain (w >>= f) (m >>= g) :=
  fun c hc => (hw c hc).bind fun a => (hf a).mono ((Nat.sub_le _ _).trans hc)

/-- Behind an action that advances there is one token less. -/
theorem step {f : α → Walk β} {g : α → Read β} (hw : Follows tokens (bound + 1) 1 w m)
    (hf : ∀ a, Follows tokens bound 0 (f a) (g a)) : Follows tokens (bound + 1) 1 (w >>= f) (m >>= g) :=
  fun c hc => (hw c hc).bind fun a => (hf a).mono (Nat.sub_le_of_le_add hc)

/-- Before an action that advances. -/
theorem look {f : α → Walk β} {g : α → Read β} (hw : Follows tokens bound 0 w m)
    (hf : ∀ a, Follows tokens bound gain (f a) (g a)) : Follows tokens bound gain (w >>= f) (m >>= g) := by
  intro c hc
  rw [← Nat.zero_add gain]
  exact (hw c hc).join fun a => (hf a).mono hc

theorem map (f : α → β) (hw : Follows tokens bound gain w m) : Follows tokens bound gain (f <$> w) (f <$> m) := by
  intro c hc
  obtain ⟨c', h⟩ := hw c hc
  refine ⟨c', ?_, h.reads, h.gains, h.closes⟩
  rw [exec_map, h.walks]
  rfl

theorem ite {p : Prop} [Decidable p] {w' : Walk α} {m' : Read α} (h : Follows tokens bound gain w m)
    (h' : Follows tokens bound gain w' m') : Follows tokens bound gain (if p then w else w') (if p then m else m') := by
  split
  · exact h
  · exact h'

end

theorem current : Follows tokens bound 0 Walk.current Read.current :=
  fun c _ => ⟨c, exec_current tokens c, rfl, le_refl _, le_refl _⟩

/-- After a look at the token behind the next. -/
theorem following_bind {f : Option Token → Walk β} {g : Reader → Read β}
    (h : ∀ r : Reader, Follows tokens bound gain (f r.rest.tail.head?) (g r)) :
    Follows tokens bound gain (Walk.following >>= f) (get >>= g) := by
  intro c hc
  obtain ⟨c', h⟩ := h (c.reader tokens) c hc
  refine ⟨c', ?_, h.reads, h.gains, h.closes⟩
  rw [exec_bind, exec_following, Option.bind_some, h.walks]
  rfl

theorem startsWith (kind : TokenKind) : Follows tokens bound 0 (Walk.startsWith kind) (Read.startsWith kind) :=
  bind current fun _ => pure _

theorem startsWithKeyword (k : Keyword) :
    Follows tokens bound 0 (Walk.startsWithKeyword k) (Read.startsWithKeyword k) := bind current fun _ => pure _

theorem advance : Follows tokens bound 1 Walk.advance Read.advance :=
  fun c _ => ⟨c.next, rfl, c.reader_next tokens, le_refl _, le_refl _⟩

theorem complain (cause : Cause) (line : Option Nat) :
    Follows tokens bound 0 (Walk.complain cause line) (Read.complain cause line) :=
  fun c _ => ⟨{ c with diagnostics := c.diagnostics ++ [⟨cause, line⟩] }, rfl, rfl, le_refl _, le_refl _⟩

theorem expect (wanted : TokenKind) : Follows tokens bound 1 (Walk.expect wanted) (Read.expect wanted) := by
  refine look current fun next => bind advance fun _ => ?_
  cases next with
  | none => exact pure none
  | some t => exact ite (pure _) (bind (complain _ _) fun _ => pure none)

end Follows

/-! ## Loops -/

/-- What a round comes to, where the action `m` is what the loop has still to do: the round goes on and leaves a part of
`m`, or it does not and leaves `m` to `behind`. The relation `S` says what is to be done at which cursor. -/
inductive Round (tokens : List Token) (round : Walk (Option (γ → γ))) (behind : Walk γ) (S : Cursor → Read γ → Prop)
    (c : Cursor) (m : Read γ) : Prop where
  | on (f : γ → γ) (c' : Cursor) (next : Read γ) (walks : exec round tokens c = some (some f, c'))
      (here : 0 < c.left tokens) (gains : c.index < c'.index) (closes : c'.opened.length ≤ c.opened.length)
      (later : S c' next) (reads : Read.exec m (c.reader tokens) = (Read.exec next (c'.reader tokens)).map f id)
  | out (c' : Cursor) (last : Read γ) (walks : exec round tokens c = some (none, c')) (gains : c.index ≤ c'.index)
      (closes : c'.opened.length ≤ c.opened.length) (later : Reaches tokens 0 behind last c')
      (reads : Read.exec m (c.reader tokens) = Read.exec last (c'.reader tokens))

namespace Round

variable {round : Walk (Option (γ → γ))} {behind : Walk γ} {S : Cursor → Read γ → Prop} {c : Cursor} {m : Read γ}

/-- No round. -/
theorem stop (walks : exec round tokens c = some (none, c)) (later : Reaches tokens 0 behind m c) :
    Round tokens round behind S c m := .out c m walks (le_refl _) (le_refl _) later rfl

theorem congr {round' : Walk (Option (γ → γ))} (h : Round tokens round' behind S c m)
    (heq : exec round tokens c = exec round' tokens c) : Round tokens round behind S c m := by
  cases h with
  | on f c' next walks here gains closes later reads =>
    exact .on f c' next (heq.trans walks) here gains closes later reads
  | out c' last walks gains closes later reads => exact .out c' last (heq.trans walks) gains closes later reads

/-- A round that begins with a look at the next token. -/
theorem whenNext {p : Token → Bool} {f : Token → Walk (Option (γ → γ))}
    (hneg : (∀ t, (c.reader tokens).rest.head? = some t → p t = false) → Reaches tokens 0 behind m c)
    (hpos : ∀ t ts, c.reader tokens = ⟨t :: ts, c.opened, c.diagnostics⟩ → p t = true →
      Round tokens (f t) behind S c m) :
    Round tokens (Walk.whenNext p f) behind S c m := by
  have hreader : c.reader tokens = ⟨(c.reader tokens).rest, c.opened, c.diagnostics⟩ := rfl
  by_cases h : ∀ t, (c.reader tokens).rest.head? = some t → p t = false
  · exact stop (exec_whenNext_of_neg tokens h) (hneg h)
  · push Not at h
    obtain ⟨t, ht, hp⟩ := h
    rw [Bool.ne_false_iff] at hp
    obtain ⟨ts, hts⟩ := List.head?_eq_some_iff.mp ht
    rw [hts] at hreader
    exact (hpos t ts hreader hp).congr (exec_whenNext_of_pos tokens ht hp)

/-- A round that does what an action on lists does. -/
theorem of_reaches (b : Read (Option (γ → γ))) (next : Read γ) {f : γ → γ} (h : Reaches tokens 1 round b c)
    (here : 0 < c.left tokens) (hf : (Read.exec b (c.reader tokens)).1 = some f)
    (later : ∀ c', c'.left tokens ≤ c.left tokens - 1 → S c' next)
    (reads : Read.exec m (c.reader tokens) = (Read.exec next (Read.exec b (c.reader tokens)).2).map f id) :
    Round tokens round behind S c m := by
  obtain ⟨c', h⟩ := h
  refine .on f c' next ?_ here (Nat.lt_of_succ_le h.gains) h.closes (later c' h.left_le) ?_
  · rw [h.walks, hf]
  · rw [reads, h.reads]

end Round

/-- What is still to be done at a cursor, with one unit of fuel or more for each token that is left. -/
def Remains (tokens : List Token) (bound : Nat) (F : Nat → Read γ) (c : Cursor) (m : Read γ) : Prop :=
  c.left tokens ≤ bound ∧ ∃ n, c.left tokens ≤ n ∧ m = F n

theorem Remains.start {F : Nat → Read γ} {c : Cursor} (h : c.left tokens ≤ bound) :
    Remains tokens bound F c (F (c.left tokens)) := ⟨h, _, le_refl _, rfl⟩

/-- A round for each unit of fuel. What the round does on lists may depend on the fuel behind it. -/
theorem Round.fuelled {F : Nat → Read γ} {p : Token → Bool} {g : Token → Walk (Option (γ → γ))} {behind : Walk γ}
    {c : Cursor} {m : Read γ} (b : Nat → Token → Read (Option (γ → γ))) (hm : Remains tokens bound F c m)
    (hend : ∀ n, c.left tokens ≤ n → (∀ t, (c.reader tokens).rest.head? = some t → p t = false) →
      Reaches tokens 0 behind (F n) c)
    (hround : ∀ t n, 0 < c.left tokens → c.left tokens ≤ n + 1 → (c.reader tokens).rest.head? = some t →
      Reaches tokens 1 (g t) (b n t) c)
    (hstep : ∀ t ts n, c.reader tokens = ⟨t :: ts, c.opened, c.diagnostics⟩ → p t = true →
      ∃ f, (Read.exec (b n t) (c.reader tokens)).1 = some f ∧
        Read.exec (F (n + 1)) (c.reader tokens) =
          (Read.exec (F n) (Read.exec (b n t) (c.reader tokens)).2).map f id) :
    Round tokens (Walk.whenNext p g) behind (Remains tokens bound F) c m := by
  obtain ⟨hc, n, hn, rfl⟩ := hm
  refine Round.whenNext (hend n hn) fun t ts hr ht => ?_
  have hpos : 0 < c.left tokens := by
    rw [← c.length_rest tokens, hr]
    exact Nat.succ_pos ts.length
  obtain ⟨n, rfl⟩ := Nat.exists_eq_add_one.mpr (hpos.trans_le hn)
  obtain ⟨f, hf, hreads⟩ := hstep t ts n hr ht
  refine .of_reaches (b n t) (F n) (hround t n hpos hn (by rw [hr]; rfl)) hpos hf (fun c' hc' => ?_) hreads
  exact ⟨hc'.trans ((Nat.sub_le _ _).trans hc), n, hc'.trans (Nat.sub_le_of_le_add hn), rfl⟩

/-- **A loop whose rounds advance ends.** It takes at most one round for each token that is left, and one to find the end. -/
theorem reaches_loop {round : Walk (Option (γ → γ))} {behind : Walk γ} {S : Cursor → Read γ → Prop}
    (h : ∀ c m, S c m → Round tokens round behind S c m) {c : Cursor} {m : Read γ} (hS : S c m)
    (hlimit : c.left tokens < limit) : Reaches tokens 0 (loop round behind limit) m c := by
  induction limit generalizing c m with
  | zero => exact absurd hlimit (Nat.not_lt_zero _)
  | succ limit ih =>
    cases h c m hS with
    | on f c' next walks here gains closes later reads =>
      have hleft : c'.left tokens < limit := by
        unfold Cursor.left at here hlimit ⊢
        omega
      obtain ⟨c'', hrest⟩ := ih later hleft
      refine ⟨c'', ?_, ?_, gains.le.trans hrest.gains, hrest.closes.trans closes⟩
      · rw [loop, exec_bind, walks, Option.bind_some]
        simp only [exec_map, hrest.walks, reads]
        rfl
      · rw [reads]
        exact hrest.reads
    | out c' last walks gains closes later reads =>
      obtain ⟨c'', hlast⟩ := later
      refine ⟨c'', ?_, ?_, gains.trans hlast.gains, hlast.closes.trans closes⟩
      · rw [loop, exec_bind, walks, Option.bind_some]
        simp only [hlast.walks, reads]
      · rw [reads]
        exact hlast.reads

end Walk

end Dotlang
