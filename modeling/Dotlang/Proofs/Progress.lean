import Dotlang.Proofs.Following

/-!
# Reading goes on to the end

* `Walk.follows_items` : lists of statements, as deep as there are tokens;
* `Walk.reaches_program` : a program is read to the end of the tokens, and no block is left open;
* `Walk.Progresses` : what advances at a cursor, and what lies in the tokens;
* `reading_takes_all` : so it is wherever the index is, and so does reading end.
-/

namespace Dotlang

namespace Walk

variable {α γ : Type} {tokens : List Token} {bound limit : Nat}

/-! ## Lists of statements -/

/-- A block that does what it should wherever no more than so many tokens are left. -/
def Braced (tokens : List Token) (bound : Nat) (block : Walk (List Statement)) : Prop :=
  ∀ b n, 0 < b → b ≤ bound → b ≤ n + 1 → Follows tokens b 1 block (Read.braced (Read.items n))

theorem items_of_end {r : Reader} (h : ∀ t, r.rest.head? = some t → t.kind = .rcurly) (n : Nat) :
    Read.exec (Read.items n) r = ([], r) := by
  cases n with
  | zero => rfl
  | succ n =>
    rw [Read.items, Read.exec_bind, Read.exec_current]
    cases hr : r.rest.head? with
    | none => rfl
    | some t =>
      dsimp only
      rw [if_pos (h t hr)]
      rfl

theorem items_of_open {t : Token} {ts : List Token} {r : Reader} (hr : r.rest = t :: ts) (ht : t.kind ≠ .rcurly)
    (n : Nat) :
    Read.exec (Read.items (n + 1)) r =
      Read.exec (do
        let s ← Read.statement (Read.braced (Read.items n)) t
        (s.toList ++ ·) <$> Read.items n) r := by
  rw [Read.items, Read.exec_bind, Read.exec_current, hr]
  dsimp only [List.head?_cons]
  rw [if_neg ht]
  rfl

theorem round_item {block : Walk (List Statement)} (hlimit : bound < limit) (hblock : Braced tokens bound block)
    (c : Cursor) (m : Read (List Statement)) (hm : Remains tokens bound Read.items c m) :
    Round tokens (itemRound limit block) (return []) (Remains tokens bound Read.items) c m := by
  refine Round.fuelled (fun n t => do
      let s ← Read.statement (Read.braced (Read.items n)) t
      return some (s.toList ++ ·)) hm (fun n _ hneg => reaches_done (items_of_end (fun t ht => ?_) n))
    (fun t n hpos hn ht => ?_) fun t ts n hr ht => ⟨_, rfl, ?_⟩
  · simpa using hneg t ht
  · exact (reaches_statement (hm.1.trans_lt hlimit) (hblock _ n hpos hm.1 hn) ht).bind fun _ => .pure _
  · rw [items_of_open (congrArg Reader.rest hr) (by simpa using ht)]
    rfl

theorem Braced.of_items {w : Walk (List Statement)}
    (h : ∀ b n, b < bound → b ≤ n → Follows tokens b 0 w (Read.items n)) : Braced tokens bound (braced w) := by
  rintro (_ | b) n hpos hb hn
  · exact absurd hpos (Nat.lt_irrefl 0)
  · exact follows_braced (h b n (Nat.lt_of_succ_le hb) (Nat.le_of_succ_le_succ hn))

/-- As deep as there are tokens, blocks may be nested. -/
theorem follows_items {depth n : Nat} (hlimit : bound < limit) (hdepth : bound < depth) (hn : bound ≤ n) :
    Follows tokens bound 0 (items limit depth) (Read.items n) := by
  induction depth generalizing bound n with
  | zero => exact absurd hdepth (Nat.not_lt_zero _)
  | succ depth ih =>
    -- a statement of the list has taken a token when a block of it begins
    have hblock : Braced tokens bound (braced (items limit depth)) :=
      .of_items fun b k hb hk => ih (hb.trans hlimit) (hb.trans_le (Nat.le_of_lt_succ hdepth)) hk
    exact fun c hc => reaches_loop (round_item hlimit hblock) ⟨hc, n, hc.trans hn, rfl⟩ (hc.trans_lt hlimit)

theorem braced_items {depth : Nat} (hlimit : bound < limit) (hdepth : bound ≤ depth) :
    Braced tokens bound (braced (items limit depth)) :=
  .of_items fun _ _ hb hn => follows_items (hb.trans hlimit) (hb.trans_le hdepth) hn

end Walk

/-! ## Programs -/

namespace Read

/-- What is left of a program behind a list of statements. -/
def programRest (k : Nat) (body : List Statement) : Read (List Statement) := do
  match ← current with
  | none => return body
  | some t =>
    complain .unmatchedBrace t.line
    advance
    return body ++ (← program k)

theorem exec_programRest_append (k : Nat) (body more : List Statement) (r : Reader) :
    exec (programRest k (body ++ more)) r = exec ((body ++ ·) <$> programRest k more) r := by
  rw [exec_map, programRest, exec_bind, exec_current, programRest, exec_bind, exec_current]
  cases r.rest.head? with
  | none => rfl
  | some t =>
    simp only [exec_bind, exec_complain, exec_advance, exec_pure, List.append_assoc]

/-- A program, with fuel for the statements before the first closing brace that closes nothing, and for such braces. -/
def programFrom (n : Nat) : Nat → Read (List Statement)
  | 0 => return []
  | k + 1 => items n >>= programRest k

theorem program_eq (n : Nat) : program n = programFrom n n := by
  cases n <;> rfl

theorem programFrom_of_end {r : Reader} (h : r.rest = []) (n k : Nat) : exec (programFrom n k) r = ([], r) := by
  cases k with
  | zero => rfl
  | succ k =>
    have hitems := Walk.items_of_end (r := r) (fun t ht => by rw [h] at ht; cases ht) n
    rw [programFrom, exec_bind, hitems, programRest, exec_bind, exec_current, h]
    rfl

theorem programFrom_of_unmatched {t : Token} {ts : List Token} {r : Reader} (hr : r.rest = t :: ts)
    (ht : t.kind = .rcurly) (n k : Nat) :
    exec (programFrom n (k + 1)) r =
      exec (do
        complain .unmatchedBrace t.line
        advance
        programFrom k k) r := by
  have hitems := Walk.items_of_end (r := r) (fun u hu => by rw [hr] at hu; cases hu; exact ht) n
  rw [programFrom, exec_bind, hitems, programRest, exec_bind, exec_current, hr, ← program_eq]
  rfl

theorem programFrom_of_open {t : Token} {ts : List Token} {r : Reader} (hr : r.rest = t :: ts) (ht : t.kind ≠ .rcurly)
    (n k : Nat) :
    exec (programFrom (n + 1) (k + 1)) r =
      exec (do
        let s ← statement (braced (items n)) t
        (s.toList ++ ·) <$> programFrom n (k + 1)) r := by
  rw [programFrom, exec_bind, Walk.items_of_open hr ht, exec_bind, exec_map, exec_programRest_append]
  rfl

end Read

namespace Walk

/-- At which cursors a program is still to be read. -/
def ProgramAt (tokens : List Token) (bound : Nat) (c : Cursor) (m : Read (List Statement)) : Prop :=
  c.left tokens ≤ bound ∧ ∃ n k, c.left tokens ≤ n ∧ c.left tokens ≤ k ∧ m = Read.programFrom n k

theorem round_program {block : Walk (List Statement)} (hlimit : bound < limit) (hblock : Braced tokens bound block)
    (c : Cursor) (m : Read (List Statement)) (hm : ProgramAt tokens bound c m) :
    Round tokens (programRound limit block) (return []) (ProgramAt tokens bound) c m := by
  obtain ⟨hc, n, k, hn, hk, rfl⟩ := hm
  refine Round.whenNext (fun hneg => reaches_done (Read.programFrom_of_end ?_ n k)) fun t ts hr _ => ?_
  · exact List.head?_eq_none_iff.mp (Option.eq_none_iff_forall_ne_some.mpr fun t ht => nomatch hneg t ht)
  have hpos : 0 < c.left tokens := by
    rw [← c.length_rest tokens, hr]
    exact Nat.succ_pos ts.length
  have hrest : (c.reader tokens).rest = t :: ts := congrArg Reader.rest hr
  obtain ⟨n, rfl⟩ := Nat.exists_eq_add_one.mpr (hpos.trans_le hn)
  obtain ⟨k, rfl⟩ := Nat.exists_eq_add_one.mpr (hpos.trans_le hk)
  have hless : ∀ {c' : Cursor}, c'.left tokens ≤ c.left tokens - 1 → c'.left tokens ≤ c.left tokens :=
    fun h => h.trans (Nat.sub_le _ _)
  by_cases ht : t.kind = .rcurly
  · rw [if_pos ht]
    refine .of_reaches (do
        Read.complain .unmatchedBrace t.line
        Read.advance
        return some id) (Read.programFrom k k) ?_ hpos rfl (fun c' hc' => ?_) ?_
    · exact Follows.look (.complain _ _) (fun _ => .bind .advance fun _ => .pure _) c hc
    · have hk' := hc'.trans (Nat.sub_le_of_le_add hk)
      exact ⟨(hless hc').trans hc, k, k, hk', hk', rfl⟩
    · rw [Read.programFrom_of_unmatched hrest ht]
      rfl
  · rw [if_neg ht]
    refine .of_reaches (do
        let s ← Read.statement (Read.braced (Read.items n)) t
        return some (s.toList ++ ·)) (Read.programFrom n (k + 1)) ?_ hpos rfl (fun c' hc' => ?_) ?_
    · exact (reaches_statement (hc.trans_lt hlimit) (hblock _ n hpos hc hn) (by rw [hrest]; rfl)).bind fun _ => .pure _
    · exact ⟨(hless hc').trans hc, n, k + 1, hc'.trans (Nat.sub_le_of_le_add hn), (hless hc').trans hk, rfl⟩
    · rw [Read.programFrom_of_open hrest ht]
      rfl

/-- A loop ends where a round does not go on. -/
theorem loop_stops {round : Walk (Option (γ → γ))} {a b : γ} {c c' : Cursor}
    (h : exec (loop round (return a) limit) tokens c = some (b, c')) :
    ∃ c₁, exec round tokens c₁ = some (none, c') := by
  induction limit generalizing b c with
  | zero => cases h
  | succ limit ih =>
    rw [loop, exec_bind, Option.bind_eq_some_iff] at h
    obtain ⟨⟨o, c₁⟩, hround, h⟩ := h
    cases o with
    | none =>
      cases h
      exact ⟨c, hround⟩
    | some f =>
      dsimp only at h
      rw [exec_map, Option.map_eq_some_iff] at h
      obtain ⟨⟨b', c₂⟩, hrest, h⟩ := h
      cases h
      exact ih hrest

/-- The rounds of a program go on as long as there are tokens. -/
theorem left_of_programRound {block : Walk (List Statement)} {c c' : Cursor}
    (h : exec (programRound limit block) tokens c = some (none, c')) : tokens.length ≤ c'.index := by
  cases hnext : (c.reader tokens).rest.head? with
  | none =>
    rw [programRound, exec_whenNext_of_neg tokens fun t ht => by rw [hnext] at ht; cases ht] at h
    cases h
    exact List.drop_eq_nil_iff.mp (List.head?_eq_none_iff.mp hnext)
  | some t =>
    rw [programRound, exec_whenNext_of_pos tokens hnext rfl] at h
    split at h
    · cases h
    · rw [exec_bind, Option.bind_eq_some_iff] at h
      obtain ⟨r, -, h⟩ := h
      cases h

/-- A program is read to the end of the tokens, and no block is left open. -/
theorem reaches_program {n : Nat} (hlimit : tokens.length < limit) (hn : tokens.length ≤ n) :
    ∃ stop ds, tokens.length ≤ stop ∧
      exec (program limit) tokens ⟨0, [], []⟩ = some ((Read.exec (Read.program n) ⟨tokens, [], []⟩).1, ⟨stop, [], ds⟩) ∧
      (Read.exec (Read.program n) ⟨tokens, [], []⟩).2 = ⟨[], [], ds⟩ := by
  obtain ⟨⟨stop, opened, ds⟩, h⟩ :=
    reaches_loop (c := ⟨0, [], []⟩) (round_program hlimit (braced_items hlimit hlimit.le))
      ⟨le_refl tokens.length, n, n, hn, hn, rfl⟩ hlimit
  obtain ⟨c, hlast⟩ := loop_stops h.walks
  have hstop : tokens.length ≤ stop := left_of_programRound hlast
  obtain rfl : opened = [] := List.length_eq_zero_iff.mp (Nat.le_zero.mp h.closes)
  have hreads := h.reads
  rw [Cursor.reader, List.drop_eq_nil_of_le hstop] at hreads
  rw [Read.program_eq]
  exact ⟨stop, ds, hstop, h.walks, hreads.symm⟩

/-! ## Progress -/

/-- A round ends no further back, and if it goes on it has advanced. -/
def Advances (tokens : List Token) (round : Walk (Option α)) (c : Cursor) : Prop :=
  ∃ o c', exec round tokens c = some (o, c') ∧ c.index ≤ c'.index ∧ (o.isSome → c.index < c'.index)

theorem Round.advances {round : Walk (Option (γ → γ))} {behind : Walk γ} {S : Cursor → Read γ → Prop} {c : Cursor}
    {m : Read γ} (h : Round tokens round behind S c m) : Advances tokens round c := by
  cases h with
  | on f c' next walks here gains closes later reads => exact ⟨some f, c', walks, gains.le, fun _ => gains⟩
  | out c' last walks gains closes later reads => exact ⟨none, c', walks, gains, nofun⟩

/-- What reading does at a cursor, with blocks in blocks to a depth. -/
structure Progresses (tokens : List Token) (limit depth : Nat) (c : Cursor) : Prop where
  /-- A statement takes the token that begins it, and as an action on lists it is the same. -/
  statements : ∀ t, tokens[c.index]? = some t → ∃ s c',
    exec (statement limit (braced (items limit depth))) tokens c = some (s, c') ∧ c.index < c'.index ∧
      ∀ n, c.left tokens ≤ n + 1 →
        Read.exec (Read.statement (Read.braced (Read.items n)) t) (c.reader tokens) = (s, c'.reader tokens)
  /-- The rounds of a loop advance. -/
  terms : Advances tokens termRound c
  arguments : Advances tokens (argumentRound limit) c
  steps : Advances tokens (stepRound limit) c
  parameters : Advances tokens parameterRound c
  branches : Advances tokens (branchRound limit (braced (items limit depth))) c
  blocks : Advances tokens (itemRound limit (braced (items limit depth))) c
  programs : Advances tokens (programRound limit (braced (items limit depth))) c
  /-- What has been passed over lies in the tokens. -/
  slices : ∀ start, exec (consumedSince start) tokens c = some ((tokens.drop start).take (c.index - start), c)

section Cursors

variable {block : Walk (List Statement)} {c : Cursor} (hlimit : c.left tokens < limit)
  (hblock : Braced tokens (c.left tokens) block)

include hlimit hblock

theorem reaches_statement_of_getElem? {t : Token} (ht : tokens[c.index]? = some t) {n : Nat}
    (hn : c.left tokens ≤ n + 1) :
    Reaches tokens 1 (statement limit block) (Read.statement (Read.braced (Read.items n)) t) c := by
  have hhead : (c.reader tokens).rest.head? = some t := List.head?_drop.trans ht
  have hpos : 0 < c.left tokens := Nat.sub_pos_of_lt (List.getElem?_eq_some_iff.mp ht).1
  exact reaches_statement hlimit (hblock _ n hpos (le_refl _) hn) hhead

theorem advances_branch : Advances tokens (branchRound limit block) c := by
  rcases Nat.eq_zero_or_pos (c.left tokens) with hleft | hpos
  · -- nothing is left, so there is no branch
    have hrest : (c.reader tokens).rest = [] := List.length_eq_zero_iff.mp ((c.length_rest tokens).trans hleft)
    exact ⟨none, c, exec_whenNext_of_neg tokens (by simp [hrest]), le_refl _, nofun⟩
  · have hinside := (hblock _ _ hpos (le_refl _) (Nat.le_succ _)).any
    exact (round_branch hlimit hinside c _ (.start (le_refl _))).advances

end Cursors

theorem progresses {depth : Nat} {c : Cursor} (hlimit : c.left tokens < limit) (hdepth : c.left tokens ≤ depth) :
    Progresses tokens limit depth c := by
  have hblock : Braced tokens (c.left tokens) (braced (items limit depth)) := braced_items hlimit hdepth
  have hstart := le_refl (c.left tokens)
  exact
    { statements := fun t ht => by
        have hreaches {n : Nat} := reaches_statement_of_getElem? hlimit hblock ht (n := n)
        obtain ⟨c', h⟩ := hreaches (Nat.le_succ (c.left tokens))
        refine ⟨_, c', h.walks, h.gains, fun n hn => ?_⟩
        obtain ⟨c'', h'⟩ := hreaches hn
        obtain ⟨hs, rfl⟩ := Prod.mk.inj (Option.some.inj (h.walks.symm.trans h'.walks))
        exact Prod.ext hs.symm h'.reads.symm
      terms := (round_terms c _ rfl).advances
      arguments := (round_argument hlimit c _ (.start hstart)).advances
      steps := (round_step hlimit c _ (.start hstart)).advances
      parameters := (round_parameter c _ (.start hstart)).advances
      branches := advances_branch hlimit hblock
      blocks := (round_item hlimit hblock c _ (.start hstart)).advances
      programs := (round_program hlimit hblock c _ ⟨hstart, _, _, hstart, hstart, rfl⟩).advances
      slices := fun start => exec_consumedSince start c }

end Walk

/-- **Reading a token list ends, and goes to its end.** Wherever the index is, a statement advances it and so does each
round of a loop, what has been passed over lies in the tokens, and at the end no block is open. -/
theorem reading_takes_all (tokens : List Token) {limit : Nat} (hlimit : tokens.length < limit) :
    (∀ c depth, c.left tokens ≤ depth → Walk.Progresses tokens limit depth c) ∧
      (∃ stop, tokens.length ≤ stop ∧ Walk.exec (Walk.program limit) tokens ⟨0, [], []⟩ =
        some ((parse tokens).body, ⟨stop, [], (parse tokens).diagnostics⟩)) ∧
      ∀ n, tokens.length ≤ n → Read.exec (Read.program n) ⟨tokens, [], []⟩ =
        ((parse tokens).body, ⟨[], [], (parse tokens).diagnostics⟩) := by
  obtain ⟨stop, ds, hstop, hwalks, hreads⟩ := Walk.reaches_program hlimit (le_refl tokens.length)
  obtain rfl : ds = (parse tokens).diagnostics := (congrArg Reader.diagnostics hreads).symm
  refine ⟨fun c depth hdepth => Walk.progresses ((Nat.sub_le _ _).trans_lt hlimit) hdepth, ⟨stop, hstop, hwalks⟩,
    fun n hn => ?_⟩
  obtain ⟨stop', ds', -, hwalks', hreads'⟩ := Walk.reaches_program hlimit hn
  obtain ⟨hbody, hcursor⟩ := Prod.mk.inj (Option.some.inj (hwalks.symm.trans hwalks'))
  obtain ⟨-, -, rfl⟩ := Cursor.mk.inj hcursor
  exact Prod.ext hbody.symm hreads'

/-- A loop without its condition, a declaration without a name, and a function without anything in a block without an end. -/
def brokenOff : String := "last \x7b \x7d nmb ; last \x7b Ex"

/-- The index ends four places behind the end. -/
theorem reading_takes_all_brokenOff :
    (tokenize brokenOff).length = 8 ∧
      Walk.exec (Walk.program 9) (tokenize brokenOff) ⟨0, [], []⟩ =
        some ((parse (tokenize brokenOff)).body, ⟨12, [], (parse (tokenize brokenOff)).diagnostics⟩) ∧
      (parse (tokenize brokenOff)).diagnostics.map Diagnostic.cause =
        [.missingLoopCondition, .missingBrace, .missingLoopCondition] := by
  obtain ⟨hlength, hindex, hcauses⟩ : (tokenize brokenOff).length = 8 ∧
      (Walk.exec (Walk.program 9) (tokenize brokenOff) ⟨0, [], []⟩).map (fun r => r.2.index) = some 12 ∧
      (parse (tokenize brokenOff)).diagnostics.map Diagnostic.cause =
        [.missingLoopCondition, .missingBrace, .missingLoopCondition] := by decide +kernel
  obtain ⟨-, ⟨stop, -, hwalks⟩, -⟩ := reading_takes_all (tokenize brokenOff) (hlength.trans_lt (by decide : 8 < 9))
  rw [hwalks] at hindex
  obtain rfl : stop = 12 := Option.some.inj hindex
  exact ⟨hlength, hwalks, hcauses⟩

end Dotlang
