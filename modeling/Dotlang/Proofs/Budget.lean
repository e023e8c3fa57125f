import Dotlang.Proofs.Execution

/-!
# What a budget does to a run

* `Finishes p n a t` : from `a` on, the program ends by itself after `n` lines, and `t` is what has happened then;
* `CutAfter p n a t` : after `n` lines there is another one, and the run stops there;
* `finishes_or_goes` : within any number of lines a program does the one or gets to where it can be cut;
* `budget_only_truncates` : so a larger budget changes nothing but where a run is cut.
-/

namespace Dotlang

namespace Machine

namespace Program

variable {p : Program}

/-! ## Ends -/

/-- The program ends by itself: from the scene `a` on it executes `n` lines, and `t` is what has happened then. -/
inductive Finishes (p : Program) : Nat → Scene → Transcript (Except Fault Unit) → Prop where
  | past {a : Scene} (h : p.lines.size ≤ a.state.pc) : Finishes p 0 a ⟨a.seen.reverse, .ok (), a.replies⟩
  | halt {a : Scene} (hline : a.state.pc < p.lines.size) (h : p.step a.state = .halt) :
      Finishes p 1 a ⟨a.seen.reverse, .ok (), a.replies⟩
  | fault {a : Scene} {f : Fault} (h : p.step a.state = .fault f) :
      Finishes p 1 a ⟨a.seen.reverse, .error f, a.replies⟩
  | step {n : Nat} {a b : Scene} {t : Transcript (Except Fault Unit)} (h : p.after? a = some b)
      (hrest : Finishes p n b t) : Finishes p (n + 1) a t

/-- The run is cut: `n` lines have been executed, another one is left, and the fault says that there were `n`. -/
def CutAfter (p : Program) (n : Nat) (a : Scene) (t : Transcript (Except Fault Unit)) : Prop :=
  ∃ b, Goes p n a b ∧ b.state.pc < p.lines.size ∧ t = ⟨b.seen.reverse, .error (.stepBudgetExceeded n), b.replies⟩

/-- Within any number of lines a program ends by itself, or is left with another line. -/
theorem finishes_or_goes (p : Program) (fuel : Nat) (a : Scene) :
    (∃ n ≤ fuel, ∃ t, Finishes p n a t) ∨ ∃ b, Goes p fuel a b ∧ b.state.pc < p.lines.size := by
  induction fuel generalizing a with
  | zero =>
    rcases Nat.lt_or_ge a.state.pc p.lines.size with hline | hpast
    · exact Or.inr ⟨a, .refl a, hline⟩
    · exact Or.inl ⟨0, Nat.le_refl 0, _, .past hpast⟩
  | succ fuel ih =>
    cases hafter : p.after? a with
    | some b =>
      obtain ⟨n, hn, t, ht⟩ | ⟨c, hgoes, hline⟩ := ih b
      · exact Or.inl ⟨n + 1, Nat.succ_le_succ hn, t, .step hafter ht⟩
      · exact Or.inr ⟨c, .step hafter hgoes, hline⟩
    | none =>
      rcases Nat.lt_or_ge a.state.pc p.lines.size with hline | hpast
      · refine Or.inl ⟨1, Nat.succ_le_succ (Nat.zero_le fuel), ?_⟩
        cases hs : p.step a.state with
        | halt => exact ⟨_, .halt hline hs⟩
        | fault f => exact ⟨_, .fault hs⟩
        | next | print | prompt => simp [after?, hs] at hafter
      · exact Or.inl ⟨0, Nat.zero_le _, _, .past hpast⟩

/-- With as many steps as it needs, a program ends as it does by itself. -/
theorem Finishes.rest_eq {n fuel : Nat} {a : Scene} {t : Transcript (Except Fault Unit)} (h : Finishes p n a t)
    (hn : n ≤ fuel) (budget : Nat) : p.rest budget fuel a = t := by
  induction h generalizing fuel with
  | past hpast => exact rest_halt hpast budget fuel
  | @halt a hline hs =>
    obtain ⟨fuel, rfl⟩ := Nat.exists_eq_add_one.mpr hn
    simp only [rest, runFrom, hs, Dialogue.replayFrom]
  | fault hs =>
    obtain ⟨fuel, rfl⟩ := Nat.exists_eq_add_one.mpr hn
    exact rest_fault hs budget fuel
  | step hafter _ ih =>
    obtain ⟨fuel, rfl⟩ := Nat.exists_eq_add_one.mpr (Nat.lt_of_lt_of_le (Nat.succ_pos _) hn)
    rw [rest_of_after? hafter]
    exact ih (Nat.le_of_succ_le_succ hn)

/-- With fewer steps it is cut. -/
theorem rest_cut {n : Nat} {a b : Scene} (h : Goes p n a b) (hline : b.state.pc < p.lines.size) (budget : Nat) :
    p.rest budget n a = ⟨b.seen.reverse, .error (.stepBudgetExceeded budget), b.replies⟩ := by
  have hrest := rest_of_goes h budget 0
  rw [Nat.zero_add] at hrest
  rw [hrest, rest, runFrom, if_pos hline, Dialogue.replayFrom]

/-- What has been seen stays seen. -/
theorem seen_isPrefix_rest (p : Program) (budget fuel : Nat) (a : Scene) :
    a.seen.reverse <+: (p.rest budget fuel a).events := by
  rw [rest, Dialogue.replayFrom_eq]
  exact List.prefix_append _ _

/-- No text ends by itself with a spent budget. -/
theorem Finishes.result_ne {text : String} {n : Nat} {a : Scene} {t : Transcript (Except Fault Unit)}
    (h : Finishes (ofText text) n a t) (limit : Nat) : t.result ≠ .error (.stepBudgetExceeded limit) := by
  induction h with
  | past | halt => exact nofun
  | fault hs =>
    intro hf
    cases hf
    exact step_ne_exceeded hs
  | step _ _ ih => exact ih

end Program

open Program (Finishes CutAfter)

/-- How a run with a budget goes: the text is refused, or it ends by itself within the budget, or it is cut. -/
theorem finishes_or_cut (text : String) (budget : Nat) (replies : List (Option String)) :
    (∃ name, (Program.ofText text).unresolved? = some name ∧
      (run text budget).replay replies = ⟨[], .error (.unresolvedLabel name), replies⟩) ∨
    (Program.ofText text).unresolved? = none ∧
      ((∃ n ≤ budget, Finishes (.ofText text) n (.start replies) ((run text budget).replay replies)) ∨
        CutAfter (.ofText text) budget (.start replies) ((run text budget).replay replies)) := by
  unfold run
  cases hu : (Program.ofText text).unresolved? with
  | some name =>
    refine Or.inl ⟨name, rfl, ?_⟩
    rw [Program.run, hu]
    rfl
  | none =>
    rw [Program.replay_run hu]
    refine Or.inr ⟨rfl, ?_⟩
    obtain ⟨n, hn, t, ht⟩ | ⟨b, hgoes, hline⟩ := Program.finishes_or_goes (.ofText text) budget (.start replies)
    · refine Or.inl ⟨n, hn, ?_⟩
      rwa [ht.rest_eq hn budget]
    · exact Or.inr ⟨b, hgoes, hline, Program.rest_cut hgoes hline budget⟩

/-- **A budget only cuts a run short.** With a larger budget the events go on from those seen before, and a run that did
not spend its budget is the same. A run executes no line at all if a target is unresolved, or ends by itself within its
budget, or is cut after exactly that many lines, which is the only way to the fault that reports it. -/
theorem budget_only_truncates (text : String) (replies : List (Option String)) {m m' : Nat} (h : m ≤ m') :
    ((run text m).replay replies).events <+: ((run text m').replay replies).events ∧
    ((∀ limit, ((run text m).replay replies).result ≠ .error (.stepBudgetExceeded limit)) →
      (run text m').replay replies = (run text m).replay replies) ∧
    ((∃ name, (Program.ofText text).unresolved? = some name ∧
        (run text m).replay replies = ⟨[], .error (.unresolvedLabel name), replies⟩) ∨
      (∃ n ≤ m, Finishes (.ofText text) n (.start replies) ((run text m).replay replies)) ∨
      CutAfter (.ofText text) m (.start replies) ((run text m).replay replies)) ∧
    ∀ limit, ((run text m).replay replies).result = .error (.stepBudgetExceeded limit) →
      limit = m ∧ CutAfter (.ofText text) m (.start replies) ((run text m).replay replies) := by
  obtain ⟨name, hu, hrefused⟩ | ⟨hu, ⟨n, hn, hfinishes⟩ | hcut⟩ := finishes_or_cut text m replies
  · have hrefused' : (run text m').replay replies = ⟨[], .error (.unresolvedLabel name), replies⟩ := by
      rw [run, Program.run, hu]
      rfl
    rw [hrefused, hrefused']
    exact ⟨List.prefix_refl _, fun _ => rfl, Or.inl ⟨name, hu, rfl⟩, fun limit hlimit => by cases hlimit⟩
  · have hsame : (run text m').replay replies = (run text m).replay replies := by
      have hrest := hfinishes.rest_eq (hn.trans h) m'
      rwa [← Program.replay_run hu] at hrest
    refine ⟨hsame ▸ List.prefix_refl _, fun _ => hsame, Or.inr (Or.inl ⟨n, hn, hfinishes⟩), fun limit hlimit => ?_⟩
    exact absurd hlimit (hfinishes.result_ne limit)
  · refine ⟨?_, fun hne => ?_, Or.inr (Or.inr hcut), fun limit hlimit => ?_⟩
    all_goals obtain ⟨b, hgoes, hline, ht⟩ := hcut
    · have hrest := Program.rest_of_goes hgoes m' (m' - m)
      rw [Nat.sub_add_cancel h, ← Program.replay_run hu] at hrest
      rw [ht, run, hrest]
      exact Program.seen_isPrefix_rest _ _ _ b
    · rw [ht] at hne
      exact absurd rfl (hne m)
    · rw [ht] at hlimit
      cases hlimit
      exact ⟨rfl, b, hgoes, hline, ht⟩

/-- Five lines of it print twice. -/
def endless : String := "L:\nCALL printO, 1\nJMP L"

theorem budget_only_truncates_endless :
    5 ≤ 9 ∧ ((run endless 5).replay []).events = [.print "1", .print "1"] ∧
      ((run endless 5).replay []).events <+: ((run endless 9).replay []).events ∧
      ((run endless 5).replay []).result = .error (.stepBudgetExceeded 5) ∧
      CutAfter (.ofText endless) 5 (.start []) ((run endless 5).replay []) := by
  have hevents : ((run endless 5).replay []).events = [.print "1", .print "1"] := by decide +kernel
  have hresult : ((run endless 5).replay []).result = .error (.stepBudgetExceeded 5) := by decide +kernel
  obtain ⟨hevents', -, -, hexceeded⟩ := budget_only_truncates endless [] (show 5 ≤ 9 by decide)
  exact ⟨by decide, hevents, hevents', hresult, (hexceeded 5 hresult).2⟩

end Machine

end Dotlang
