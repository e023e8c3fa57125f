/-!
# Dialogues

A dialogue is a computation that prints lines and asks questions until it has a result. It says what
happens next only after the line is out or the answer is in, so the same dialogue serves a terminal, which
performs it, and a proof, which replays it.

* `Dialogue.replay` : the events and the result under a list of replies;
* `Dialogue.recorded` : the same dialogue with the printed lines beside its result.
-/

namespace Dotlang

inductive Dialogue (α : Type) where
  | done (result : α)
  | print (line : String) (next : Unit → Dialogue α)
  /-- The reply is missing if there is no input left. -/
  | prompt (message : String) (next : Option String → Dialogue α)

inductive Event where
  | print (line : String)
  | prompt (message : String)
  deriving DecidableEq, Repr

/-- What happened in a dialogue: its events, its result and the replies it did not ask for. -/
structure Transcript (α : Type) where
  events : List Event
  result : α
  unused : List (Option String)

namespace Dialogue

variable {α β : Type}

def bind (d : Dialogue α) (f : α → Dialogue β) : Dialogue β :=
  match d with
  | done a => f a
  | print line next => print line fun u => (next u).bind f
  | prompt message next => prompt message fun reply => (next reply).bind f

instance : Monad Dialogue where
  pure := done
  bind := bind

/-- Replays a dialogue whose events so far are `seen`, the latest first. Replies that have run out are
missing. -/
def replayFrom (seen : List Event) : Dialogue α → List (Option String) → Transcript α
  | done a, replies => ⟨seen.reverse, a, replies⟩
  | print line next, replies => replayFrom (.print line :: seen) (next ()) replies
  | prompt message next, replies =>
    replayFrom (.prompt message :: seen) (next (replies.head?.getD none)) replies.tail

def replay (d : Dialogue α) (replies : List (Option String)) : Transcript α := d.replayFrom [] replies

/-- Collects the printed lines after those in `seen`, the latest first. -/
def recordedFrom (seen : List String) : Dialogue α → Dialogue (α × List String)
  | done a => done (a, seen.reverse)
  | print line next => print line fun u => (next u).recordedFrom (line :: seen)
  | prompt message next => prompt message fun reply => (next reply).recordedFrom seen

def recorded (d : Dialogue α) : Dialogue (α × List String) := d.recordedFrom []

theorem replayFrom_eq (d : Dialogue α) (seen : List Event) (replies : List (Option String)) :
    d.replayFrom seen replies =
      { d.replay replies with events := seen.reverse ++ (d.replay replies).events } := by
  unfold replay
  induction d generalizing seen replies with
  | done a => simp [replayFrom]
  | print line next ih =>
    simp only [replayFrom]
    rw [ih () (.print line :: seen), ih () [.print line]]
    simp
  | prompt message next ih =>
    simp only [replayFrom]
    rw [ih _ (.prompt message :: seen), ih _ [.prompt message]]
    simp

end Dialogue

end Dotlang
