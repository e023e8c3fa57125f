import Dotlang.Assembly.Emitter
import Dotlang.Instruction.Lowering
import Dotlang.Machine.Run

/-!
# Reading a tree as a program

What a tree means without labels and jumps. A statement turns a world into another one, leaves the loop
around it, faults, or is not done yet; how often a loop may go round is bounded, so that a program that never
ends is one that is not done under any bound.

* `World`, `Ending`, `Reading` : what is read, how it ends, and what a statement means;
* `World.perform` : the effect of one line, which the machine knows;
* `seq`, `choose`, `loop` : sequences, branches and loops of readings;
* `Statement.meaning`, `bodyMeaning`, `Alternatives.meaning` : the readings of a tree;
* `settles_readingOf` : once a reading has ended, more rounds change nothing.
-/

namespace Dotlang

open Assembly (Line Scratch)

/-- The lines of instructions. -/
def Assembly.linesOf : List Instruction → Scratch (List Line)
  | [] => return []
  | i :: is => do return (← lines i) ++ (← linesOf is)

/-- The variables, the replies that are left and the events so far, the latest first. -/
structure World where
  store : Store
  replies : List (Option String)
  seen : List Event
  deriving DecidableEq

def World.start (replies : List (Option String)) : World := ⟨.empty, replies, []⟩

inductive Ending where
  | normal (w : World)
  /-- The innermost loop is left, or a condition does not hold. -/
  | left (w : World)
  | fault (f : Fault) (w : World)
  /-- Some loop has to go round more often. -/
  | pending
  deriving DecidableEq

/-- Given how often each loop may go round. -/
abbrev Reading := Nat → World → Ending

/-- The effect of a line that does not jump. -/
def World.perform (w : World) (l : Line) : Ending :=
  match (Machine.Program.ofText "").execute ⟨0, none, [], w.store⟩ l with
  | .next s => .normal { w with store := s.store }
  | .print line s => .normal ⟨s.store, w.replies, .print line :: w.seen⟩
  | .prompt message resume =>
    .normal ⟨(resume (w.replies.head?.getD none)).store, w.replies.tail, .prompt message :: w.seen⟩
  | .halt => .normal w
  | .fault f => .fault f w

namespace Reading

def skip : Reading := fun _ w => .normal w

def leave : Reading := fun _ w => .left w

def seq (a b : Reading) : Reading := fun rounds w =>
  match a rounds w with
  | .normal w => b rounds w
  | e => e

/-- A branch: one way if the guard ends normally, the other way if it is left. -/
def choose (guard yes no : Reading) : Reading := fun rounds w =>
  match guard rounds w with
  | .normal w => yes rounds w
  | .left w => no rounds w
  | e => e

/-- At most so many rounds, each with the same bound for the loops inside. -/
def iterate (round : Reading) (rounds : Nat) : Nat → World → Ending
  | 0, _ => .pending
  | n + 1, w =>
    match round rounds w with
    | .normal w => iterate round rounds n w
    | .left w => .normal w
    | e => e

/-- Goes round until a round is left. -/
def loop (round : Reading) : Reading := fun rounds w => iterate round rounds rounds w

/-- Lines one after the other. -/
def straight : List Line → Reading
  | [] => skip
  | l :: ls => seq (fun _ w => w.perform l) (straight ls)

/-- Compares an operand with the right-hand side of a condition. -/
def compare (left : String) (cond : Condition) (relation : Relation) (held missed : World → Ending) : Reading :=
  fun _ w =>
    if relation.holds (w.store.resolve left) (w.store.resolve cond.rhs.lexeme) then held w else missed w

/-- The effect of the lines of instructions. -/
def performed (is : List Instruction) : Scratch Reading := do return straight (← Assembly.linesOf is)

/-- Tests a condition after the lines of its left-hand side. -/
def test (c : Chain) (relation : Operator → Relation) (held missed : World → Ending) : Scratch Reading := do
  let cond := Condition.ofChain c
  let (before, left) ← Assembly.operand cond.lhs
  return seq (straight before) (compare left cond (relation cond.op) held missed)

/-- A condition before a block. It holds if the relation of its false jump does not; a missing one holds. -/
def guard : Option Chain → Scratch Reading
  | none => return skip
  | some c => test c Operator.falseJump .left .normal

/-- A condition behind a block, which goes on if the relation of its true jump holds; a missing one never
does. -/
def again : Option Chain → Scratch Reading
  | none => return leave
  | some c => test c Operator.trueJump .normal .left

end Reading

open Reading (skip leave performed guard again)

mutual

/-- What a statement means, given whether there is a loop around it. Functions and calls of them have no
reading of their own. -/
def Statement.meaning (inLoop : Bool) : Statement → Scratch Reading
  | .block _ body => bodyMeaning inLoop body
  | .declare _ d => performed (Instruction.ofValue? d.name d.value)
  | .assign _ name value => performed (Instruction.ofValue? name value)
  | .call _ name args _ => performed [.call name args none]
  | .function .. => return skip
  | .conditional _ cond body alternatives => do
    let guard ← guard cond
    let body ← bodyMeaning inLoop body
    return guard.choose body (← alternatives.meaning inLoop)
  | .whileLoop _ cond body => do
    let guard ← guard cond
    return (guard.seq (← bodyMeaning true body)).loop
  | .doWhile _ body cond => do
    let body ← bodyMeaning true body
    return (body.seq (← again cond)).loop
  | .counting _ init cond step body => do
    let init ← performed ((init.map fun d => Instruction.ofValue? d.name d.value).getD [])
    let guard ← guard cond
    let body ← bodyMeaning true body
    let step ← performed ((step.map Instruction.ofStep).getD [])
    return init.seq (guard.seq (body.seq step)).loop
  | .brk _ => return if inLoop then leave else skip

def bodyMeaning (inLoop : Bool) : List Statement → Scratch Reading
  | [] => return skip
  | s :: ss => do
    let first ← s.meaning inLoop
    return first.seq (← bodyMeaning inLoop ss)

def Alternatives.meaning (inLoop : Bool) : Alternatives → Scratch Reading
  | .done => return skip
  | .otherwise body => bodyMeaning inLoop body
  | .branch cond body rest => do
    let guard ← guard cond
    let body ← bodyMeaning inLoop body
    return guard.choose body (← rest.meaning inLoop)

end

/-- A tree as a program. -/
def readingOf (body : List Statement) : Reading := ((bodyMeaning false body).run 0).1

/-! ## More rounds -/

namespace Reading

/-- A reading that has ended ends the same way under any greater bound. -/
def Settles (r : Reading) : Prop := ∀ rounds more w, rounds ≤ more → r rounds w ≠ .pending → r more w = r rounds w

variable {a b guard yes no round : Reading}

theorem Settles.of_const {f : World → Ending} : Settles fun _ w => f w := fun _ _ _ _ _ => rfl

theorem Settles.seq (ha : Settles a) (hb : Settles b) : Settles (a.seq b) := by
  intro rounds more w hle hended
  unfold Reading.seq at hended ⊢
  have hfirst : a rounds w ≠ .pending := fun hpending => hended (by rw [hpending])
  rw [ha rounds more w hle hfirst]
  cases he : a rounds w with
  | normal v =>
    rw [he] at hended
    exact hb rounds more v hle hended
  | _ => rfl

theorem Settles.choose (hguard : Settles guard) (hyes : Settles yes) (hno : Settles no) :
    Settles (guard.choose yes no) := by
  intro rounds more w hle hended
  unfold Reading.choose at hended ⊢
  have hfirst : guard rounds w ≠ .pending := fun hpending => hended (by rw [hpending])
  rw [hguard rounds more w hle hfirst]
  cases he : guard rounds w with
  | normal v =>
    rw [he] at hended
    exact hyes rounds more v hle hended
  | left v =>
    rw [he] at hended
    exact hno rounds more v hle hended
  | fault f v => rfl
  | pending => rfl

theorem Settles.iterate (hround : Settles round) {rounds more m n : Nat} (hle : rounds ≤ more) (hmn : n ≤ m)
    (w : World) (hended : iterate round rounds n w ≠ .pending) : iterate round more m w = iterate round rounds n w := by
  induction n generalizing m w with
  | zero => exact absurd rfl hended
  | succ n ih =>
    obtain ⟨m, rfl⟩ := Nat.exists_eq_add_one.mpr (Nat.lt_of_lt_of_le (Nat.succ_pos n) hmn)
    rw [Reading.iterate] at hended
    rw [Reading.iterate, Reading.iterate]
    have hfirst : round rounds w ≠ .pending := fun hpending => hended (by rw [hpending])
    rw [hround rounds more w hle hfirst]
    cases he : round rounds w with
    | normal v =>
      rw [he] at hended
      exact ih (Nat.le_of_succ_le_succ hmn) v hended
    | left v => rfl
    | fault f v => rfl
    | pending => rfl

theorem Settles.loop (hround : Settles round) : Settles round.loop :=
  fun _ _ w hle hended => hround.iterate hle hle w hended

theorem Settles.straight : ∀ ls : List Line, Settles (Reading.straight ls)
  | [] => .of_const
  | _ :: ls => Settles.of_const.seq (.straight ls)

theorem settles_guard (cond : Option Chain) (m : Nat) : Settles ((Reading.guard cond).run m).1 := by
  cases cond with
  | none => exact .of_const
  | some c => exact (Settles.straight _).seq .of_const

theorem settles_again (cond : Option Chain) (m : Nat) : Settles ((Reading.again cond).run m).1 := by
  cases cond with
  | none => exact .of_const
  | some c => exact (Settles.straight _).seq .of_const

end Reading

open Reading (Settles settles_guard settles_again)

mutual

theorem Statement.settles (inLoop : Bool) : ∀ (s : Statement) (m : Nat), Settles ((s.meaning inLoop).run m).1
  | .block _ body, m => settles_body inLoop body m
  | .declare .., _ | .assign .., _ | .call .., _ => .straight _
  | .function .., _ => .of_const
  | .conditional _ cond body alternatives, m =>
    (settles_guard cond m).choose (settles_body inLoop body _) (alternatives.settles inLoop _)
  | .whileLoop _ cond body, m => ((settles_guard cond m).seq (settles_body true body _)).loop
  | .doWhile _ body cond, m => ((settles_body true body m).seq (settles_again cond _)).loop
  | .counting _ _ cond _ body, _ =>
    (Settles.straight _).seq ((settles_guard cond _).seq ((settles_body true body _).seq (.straight _))).loop
  | .brk _, _ => by cases inLoop <;> exact .of_const

theorem settles_body (inLoop : Bool) : ∀ (body : List Statement) (m : Nat), Settles ((bodyMeaning inLoop body).run m).1
  | [], _ => .of_const
  | s :: ss, m => (s.settles inLoop m).seq (settles_body inLoop ss _)

theorem Alternatives.settles (inLoop : Bool) : ∀ (a : Alternatives) (m : Nat), Settles ((a.meaning inLoop).run m).1
  | .done, _ => .of_const
  | .otherwise body, m => settles_body inLoop body m
  | .branch cond body rest, m =>
    (settles_guard cond m).choose (settles_body inLoop body _) (rest.settles inLoop _)

end

/-- The bound is of no matter once a tree has been read to its end. -/
theorem settles_readingOf (body : List Statement) : Settles (readingOf body) := settles_body false body 0

end Dotlang
