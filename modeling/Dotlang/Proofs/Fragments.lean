import Dotlang.Proofs.Layout

/-!
# What a fragment of a program does

* `Placed lines k code` : `code` stands in `lines` from line `k` on;
* `Matches p rounds a stop exit e` : from `a`, the machine ends as `e` says. It gets to line `stop` where `e` is
  normal and to line `exit` where the loop is left;
* `Follows p start stop exit r` : from line `start`, the machine ends as `r` says;
* `Follows.seq`, `Follows.choose`, `Follows.loop` : how fragments are put together.
-/

namespace Dotlang

open Assembly (Line)
open Machine (Program Scene)
open Machine.Program (Goes)

/-! ## Places -/

/-- The code stands in the lines from line `k` on. -/
def Placed (lines : List Line) (k : Nat) (code : List Line) : Prop :=
  ∃ before after, lines = before ++ code ++ after ∧ before.length = k

namespace Placed

variable {lines code more third fourth : List Line} {k : Nat} {l : Line}

theorem self (lines : List Line) : Placed lines 0 lines := ⟨[], [], by simp, rfl⟩

theorem left (h : Placed lines k (code ++ more)) : Placed lines k code := by
  obtain ⟨before, after, rfl, hk⟩ := h
  exact ⟨before, more ++ after, by simp, hk⟩

theorem right (h : Placed lines k (code ++ more)) : Placed lines (k + code.length) more := by
  obtain ⟨before, after, rfl, rfl⟩ := h
  exact ⟨before ++ code, after, by simp, by simp⟩

theorem right_two (h : Placed lines k (code ++ more ++ third)) :
    Placed lines (k + code.length + more.length) third := by
  have hright := h.right
  rwa [List.length_append, ← Nat.add_assoc] at hright

theorem right_three (h : Placed lines k (code ++ more ++ third ++ fourth)) :
    Placed lines (k + code.length + more.length + third.length) fourth := by
  have hright := h.right
  rwa [List.length_append, List.length_append, ← Nat.add_assoc, ← Nat.add_assoc] at hright

theorem head (h : Placed lines k (l :: code)) : lines[k]? = some l := by
  obtain ⟨before, after, rfl, rfl⟩ := h
  simp

theorem tail (h : Placed lines k (l :: code)) : Placed lines (k + 1) code := by
  have happend : Placed lines k ([l] ++ code) := h
  exact happend.right

end Placed

/-! ## Endings -/

/-- The world as the machine has it before line `k`. -/
def World.at (w : World) (k : Nat) : Scene := ⟨⟨k, none, [], w.store⟩, w.replies, w.seen⟩

/-- From `a`, the machine ends as `e` says. If `e` is pending, there are that many steps at least. -/
def Matches (p : Program) (rounds : Nat) (a : Scene) (stop : Nat) (exit : Option Nat) : Ending → Prop
  | .normal w => ∃ n, Goes p n a (w.at stop)
  | .left w => ∃ x, exit = some x ∧ ∃ n, Goes p n a (w.at x)
  | .fault f w => ∃ n b, Goes p n a b ∧ p.step b.state = .fault f ∧ b.seen = w.seen ∧ b.replies = w.replies
  | .pending => ∃ n b, rounds ≤ n ∧ Goes p n a b

variable {p : Program} {rounds n k start mid stop other : Nat} {exit : Option Nat} {a b : Scene}

/-- The steps before count as well. -/
theorem Matches.after_steps {e : Ending} {more : Nat} (hgoes : Goes p n a b) (h : Matches p rounds b stop exit e)
    (hmore : more ≤ n + rounds) : Matches p more a stop exit e := by
  cases e with
  | normal w =>
    obtain ⟨m, hm⟩ := h
    exact ⟨n + m, hgoes.trans hm⟩
  | left w =>
    obtain ⟨x, hx, m, hm⟩ := h
    exact ⟨x, hx, n + m, hgoes.trans hm⟩
  | fault f w =>
    obtain ⟨m, c, hm, hfault⟩ := h
    exact ⟨n + m, c, hgoes.trans hm, hfault⟩
  | pending =>
    obtain ⟨m, c, hle, hm⟩ := h
    exact ⟨n + m, c, by omega, hgoes.trans hm⟩

theorem Matches.after {e : Ending} (hgoes : Goes p n a b) (h : Matches p rounds b stop exit e) :
    Matches p rounds a stop exit e := h.after_steps hgoes (Nat.le_add_left rounds n)

/-- From line `start`, the machine ends as the reading says. -/
def Follows (p : Program) (start stop : Nat) (exit : Option Nat) (r : Reading) : Prop :=
  ∀ rounds w, Matches p rounds (World.at w start) stop exit (r rounds w)

namespace Follows

variable {r guard yes no round : Reading}

theorem skip (p : Program) (k : Nat) (exit : Option Nat) : Follows p k k exit Reading.skip :=
  fun _ w => ⟨0, .refl (w.at k)⟩

theorem leave (h : exit = some k) : Follows p k stop exit Reading.leave :=
  fun _ w => ⟨k, h, 0, .refl (w.at k)⟩

theorem seq {first second : Reading} (hfirst : Follows p start mid exit first)
    (hsecond : Follows p mid stop exit second) : Follows p start stop exit (first.seq second) := by
  intro rounds w
  have hmatches := hfirst rounds w
  unfold Reading.seq
  cases he : first rounds w with
  | normal v =>
    rw [he] at hmatches
    obtain ⟨n, hgoes⟩ := hmatches
    exact (hsecond rounds v).after hgoes
  | _ =>
    rw [he] at hmatches
    exact hmatches

/-- Before a fragment, the machine may do what no reading sees. -/
theorem before (hgoes : ∀ w : World, ∃ n, Goes p n (w.at start) (w.at mid)) (h : Follows p mid stop exit r) :
    Follows p start stop exit r := by
  intro rounds w
  obtain ⟨n, hn⟩ := hgoes w
  exact (h rounds w).after hn

theorem behind (h : Follows p start mid exit r) (hgoes : ∀ w : World, ∃ n, Goes p n (w.at mid) (w.at stop)) :
    Follows p start stop exit r := by
  intro rounds w
  have hmatches := h rounds w
  cases he : r rounds w with
  | normal v =>
    rw [he] at hmatches
    obtain ⟨n, hn⟩ := hmatches
    obtain ⟨m, hm⟩ := hgoes v
    exact ⟨n + m, hn.trans hm⟩
  | _ =>
    rw [he] at hmatches
    exact hmatches

/-- A branch whose guard is left to the other way. -/
theorem choose (hguard : Follows p start mid (some other) guard) (hyes : Follows p mid stop exit yes)
    (hno : Follows p other stop exit no) : Follows p start stop exit (guard.choose yes no) := by
  intro rounds w
  have hmatches := hguard rounds w
  unfold Reading.choose
  cases he : guard rounds w with
  | normal v =>
    rw [he] at hmatches
    obtain ⟨n, hgoes⟩ := hmatches
    exact (hyes rounds v).after hgoes
  | left v =>
    rw [he] at hmatches
    obtain ⟨x, hx, n, hgoes⟩ := hmatches
    cases hx
    exact (hno rounds v).after hgoes
  | fault f v =>
    rw [he] at hmatches
    exact hmatches
  | pending =>
    rw [he] at hmatches
    exact hmatches

/-- Every round of a loop takes a step of its own, so a loop that is not done after some rounds has taken as
many steps. -/
theorem iterate (hstep : ∀ w : World, Goes p 1 (w.at start) (w.at mid))
    (hround : Follows p mid start (some stop) round) (hn : n ≤ rounds) (w : World) :
    Matches p n (w.at start) stop exit (Reading.iterate round rounds n w) := by
  induction n generalizing w with
  | zero => exact ⟨0, w.at start, Nat.le_refl 0, .refl _⟩
  | succ n ih =>
    have hmatches := hround rounds w
    rw [Reading.iterate]
    cases he : round rounds w with
    | normal v =>
      rw [he] at hmatches
      obtain ⟨m, hgoes⟩ := hmatches
      exact (ih (Nat.le_of_succ_le hn) v).after_steps ((hstep w).trans hgoes) (by omega)
    | left v =>
      rw [he] at hmatches
      obtain ⟨x, hx, m, hgoes⟩ := hmatches
      cases hx
      exact ⟨1 + m, (hstep w).trans hgoes⟩
    | fault f v =>
      rw [he] at hmatches
      exact Matches.after (hstep w) hmatches
    | pending =>
      rw [he] at hmatches
      exact hmatches.after_steps (hstep w) (by omega)

theorem loop (hstep : ∀ w : World, Goes p 1 (w.at start) (w.at mid))
    (hround : Follows p mid start (some stop) round) : Follows p start stop exit round.loop :=
  fun rounds w => iterate hstep hround (Nat.le_refl rounds) w

end Follows

/-! ## Lines -/

section Lines

variable {lines : List Line} {name : String} {x : Nat}

theorem goes_label (h : lines[k]? = some (.label name)) (w : World) :
    Goes (.ofLines lines) 1 (w.at k) (w.at (k + 1)) := by
  refine .one ?_
  rw [Program.after?, Machine.step_ofLines h]
  rfl

theorem goes_jump (h : lines[k]? = some (.jump name)) (hx : (Program.ofLines lines).lineOf? name = some x)
    (w : World) : Goes (.ofLines lines) 1 (w.at k) (w.at x) := by
  refine .one ?_
  rw [Program.after?, Machine.step_ofLines h]
  simp only [Program.execute, Program.jump, hx]
  rfl

/-- A comparison and its jump leave the register empty. -/
theorem goes_compare {left right : String} {relation : Relation} (h : lines[k]? = some (.compare left right))
    (hjump : lines[k + 1]? = some (.jumpIf relation name)) (hx : (Program.ofLines lines).lineOf? name = some x)
    (w : World) : Goes (.ofLines lines) 2 (w.at k)
      (w.at (if relation.holds (w.store.resolve left) (w.store.resolve right) then x else k + 2)) := by
  have hcompare : Goes (.ofLines lines) 1 (w.at k)
      ⟨⟨k + 1, some (w.store.resolve left, w.store.resolve right), [], w.store⟩, w.replies, w.seen⟩ :=
    Goes.compare (a := w.at k) (Machine.lines_ofLines.mpr h)
  refine hcompare.trans (.one ?_)
  rw [Program.after?, Machine.step_ofLines hjump]
  by_cases hholds : relation.holds (w.store.resolve left) (w.store.resolve right) = true
  · simp only [Program.execute, Option.getD_some, if_pos hholds, Program.jump, hx]
    rfl
  · simp only [Program.execute, Option.getD_some, if_neg hholds]
    rfl

theorem receive_eq (s : Machine.State) (args : List String) (reply : String) :
    s.receive args reply = { s with store := (Machine.State.receive ⟨0, none, [], s.store⟩ args reply).store } := by
  unfold Machine.State.receive
  split <;> rfl

/-- A line that does not jump has its effect and leads to the next line. -/
theorem matches_perform {l : Line} (h : lines[k]? = some l) (hl : l.isStraight = true) (w : World) :
    Matches (.ofLines lines) rounds (w.at k) (k + 1) exit (w.perform l) := by
  have hstep := Machine.step_ofLines (s := (w.at k).state) h
  cases l with
  | move target source =>
    refine ⟨1, .one ?_⟩
    rw [Program.after?, hstep]
    rfl
  | arith op target source =>
    simp only [World.perform, Program.execute] at hstep ⊢
    cases hvalue : (w.store.get target).apply op (w.store.resolve source) with
    | ok v =>
      refine ⟨1, .one ?_⟩
      rw [Program.after?, hstep]
      simp only [World.at, hvalue]
    | error f =>
      refine ⟨0, w.at k, .refl _, ?_, rfl, rfl⟩
      rw [hstep]
      simp only [World.at, hvalue]
  | call name args =>
    simp only [World.perform, Program.execute] at hstep ⊢
    split_ifs at hstep ⊢ with hprint hprompt
    · refine ⟨1, .one ?_⟩
      rw [Program.after?, hstep]
      rfl
    · refine ⟨1, .one ?_⟩
      rw [Program.after?, hstep]
      show some (Scene.mk (Machine.State.receive _ args _) _ _) = _
      rw [receive_eq]
      rfl
    · have hbuiltin : Machine.isBuiltin name = true := hl
      rw [Machine.isBuiltin, Bool.or_eq_true, beq_iff_eq] at hbuiltin
      exact (hbuiltin.elim hprint hprompt).elim
  | _ => cases hl

/-- Lines one after the other. -/
theorem Follows.straight {code : List Line} (hcode : Placed lines k code) (h : ∀ l ∈ code, l.isStraight = true) :
    Follows (.ofLines lines) k (k + code.length) exit (Reading.straight code) := by
  induction code generalizing k with
  | nil => exact .skip _ k exit
  | cons l code ih =>
    obtain ⟨hl, hrest⟩ := List.forall_mem_cons.mp h
    have hline : Follows (.ofLines lines) k (k + 1) exit fun _ w => w.perform l :=
      fun _ w => matches_perform hcode.head hl w
    rw [List.length_cons, Nat.add_comm code.length, ← Nat.add_assoc]
    exact hline.seq (ih hcode.tail hrest)

theorem Follows.compare {left : String} {cond : Condition} {relation : Relation} {held missed : World → Ending}
    (hcode : Placed lines k [.compare left cond.rhs.lexeme, .jumpIf relation name])
    (hx : (Program.ofLines lines).lineOf? name = some x)
    (hheld : ∀ rounds w, Matches (.ofLines lines) rounds (World.at w x) stop exit (held w))
    (hmissed : ∀ rounds w, Matches (.ofLines lines) rounds (World.at w (k + 2)) stop exit (missed w)) :
    Follows (.ofLines lines) k stop exit (Reading.compare left cond relation held missed) := by
  intro rounds w
  have hgoes := goes_compare hcode.head hcode.tail.head hx w
  unfold Reading.compare
  split_ifs at hgoes ⊢
  · exact (hheld rounds w).after hgoes
  · exact (hmissed rounds w).after hgoes

/-! ## Labels -/

/-- Every label names the line that it stands on. -/
def Resolved (lines : List Line) : Prop :=
  ∀ k name, lines[k]? = some (.label name) → (Program.ofLines lines).lineOf? name = some k

variable (hresolved : Resolved lines) {test body : List Line} {first last next : String} {guard round no : Reading}
include hresolved

/-- One branch of a conditional, and what is done instead. -/
theorem Follows.branch (hcode : Placed lines k (test ++ body ++ [Line.jump last, Line.label next]))
    (hlast : (Program.ofLines lines).lineOf? last = some stop)
    (hguard : ∀ x, (Program.ofLines lines).lineOf? next = some x →
      Follows (.ofLines lines) k (k + test.length) (some x) guard)
    (hround : Follows (.ofLines lines) (k + test.length) (k + test.length + body.length) exit round)
    (hno : Follows (.ofLines lines) (k + test.length + body.length + 2) stop exit no) :
    Follows (.ofLines lines) k stop exit (guard.choose round no) := by
  have hend := hcode.right_two
  refine (hguard _ (hresolved _ _ hend.tail.head)).choose ?_ ?_
  · exact hround.behind fun w => ⟨1, goes_jump hend.head hlast w⟩
  · exact hno.before fun w => ⟨1, goes_label hend.tail.head w⟩

/-- A loop that tests before each round. -/
theorem Follows.whileLoop
    (hcode : Placed lines k ([Line.label first] ++ test ++ body ++ [Line.jump first, Line.label last]))
    (hguard : ∀ x, (Program.ofLines lines).lineOf? last = some x →
      Follows (.ofLines lines) (k + 1) (k + 1 + test.length) (some x) guard)
    (hround : ∀ x, (Program.ofLines lines).lineOf? last = some x →
      Follows (.ofLines lines) (k + 1 + test.length) (k + 1 + test.length + body.length) (some x) round) :
    Follows (.ofLines lines) k (k + 1 + test.length + body.length + 2) exit (guard.seq round).loop := by
  have hfirst : lines[k]? = some (.label first) := hcode.left.left.left.head
  have hend := hcode.right_three
  rw [List.length_singleton] at hend
  have hlast := hresolved _ _ hend.tail.head
  refine Follows.behind (Follows.loop (goes_label hfirst) ?_) fun w => ⟨1, goes_label hend.tail.head w⟩
  refine (hguard _ hlast).seq ((hround _ hlast).behind fun w => ?_)
  exact ⟨1, goes_jump hend.head (hresolved _ _ hfirst) w⟩

/-- A loop that something comes before, and whose rounds end with a step. -/
theorem Follows.counting {before step : List Line} {init advance : Reading}
    (hcode : Placed lines k
      (before ++ [Line.label first] ++ test ++ body ++ step ++ [Line.jump first, Line.label last]))
    (hinit : Follows (.ofLines lines) k (k + before.length) exit init)
    (hguard : ∀ x, (Program.ofLines lines).lineOf? last = some x →
      Follows (.ofLines lines) (k + before.length + 1) (k + before.length + 1 + test.length) (some x) guard)
    (hround : ∀ x, (Program.ofLines lines).lineOf? last = some x → Follows (.ofLines lines)
      (k + before.length + 1 + test.length) (k + before.length + 1 + test.length + body.length) (some x) round)
    (hadvance : ∀ x, Follows (.ofLines lines) (k + before.length + 1 + test.length + body.length)
      (k + before.length + 1 + test.length + body.length + step.length) (some x) advance) :
    Follows (.ofLines lines) k (k + before.length + 1 + test.length + body.length + step.length + 2) exit
      (init.seq (guard.seq (round.seq advance)).loop) := by
  have hloop : Placed lines (k + before.length)
      ([Line.label first] ++ test ++ (body ++ step) ++ [Line.jump first, Line.label last]) := by
    refine Placed.right ?_
    rw [← List.append_assoc, ← List.append_assoc, ← List.append_assoc, ← List.append_assoc]
    exact hcode
  have hlength : k + before.length + 1 + test.length + (body ++ step).length =
      k + before.length + 1 + test.length + body.length + step.length := by rw [List.length_append, ← Nat.add_assoc]
  refine hinit.seq ?_
  rw [← hlength]
  refine Follows.whileLoop hresolved hloop hguard fun x hx => ?_
  rw [hlength]
  exact (hround x hx).seq (hadvance x)

/-- A loop that tests after each round. -/
theorem Follows.doWhile (hcode : Placed lines k ([Line.label first] ++ body ++ test ++ [Line.label last]))
    (hround : ∀ x, (Program.ofLines lines).lineOf? last = some x →
      Follows (.ofLines lines) (k + 1) (k + 1 + body.length) (some x) round)
    (hagain : ∀ x, (Program.ofLines lines).lineOf? first = some x →
      Follows (.ofLines lines) (k + 1 + body.length) x (some (k + 1 + body.length + test.length)) guard) :
    Follows (.ofLines lines) k (k + 1 + body.length + test.length + 1) exit (round.seq guard).loop := by
  have hfirst : lines[k]? = some (.label first) := hcode.left.left.left.head
  have hend := hcode.right_three
  rw [List.length_singleton] at hend
  refine Follows.behind (Follows.loop (goes_label hfirst) ?_) fun w => ⟨1, goes_label hend.head w⟩
  exact (hround _ (hresolved _ _ hend.head)).seq (hagain _ (hresolved _ _ hfirst))

end Lines

end Dotlang
