import Dotlang.Proofs.Fragments

/-!
# Where a run goes

* `Analysis.program` : the program that the machine makes of a source;
* `Moves p s l t` : what a line does to the line that comes next, to the register and to the stack;
* `moves_of_after?` : every step moves;
* `Enters ls f c d` : a step that calls a function and stands at its label;
* `Above p addresses n a b` : `n` steps lead from `a` to `b`, and all the while the addresses stay on the stack;
* `exists_enters` : the call that put the address on top of the stack there, and what has happened since.
-/

namespace Dotlang

open Assembly (Line)

/-- The program that the machine makes of a source. -/
def Analysis.program (a : Analysis) : Machine.Program := .ofText a.code.assembly

theorem program_analyze (source : String) : (analyze source).program = .ofLines (analyze source).loaded :=
  ofText_analyze source

/-- Lines that lead to the next one and leave register and stack alone. -/
def Assembly.Line.passes : Line → Bool
  | blank | label _ => true
  | l => l.isStraight

theorem Assembly.Line.passes_of_isStraight {l : Line} (h : l.isStraight = true) : l.passes = true := by
  cases l <;> first | exact h | rfl

namespace Machine

namespace Program

/-! ## One step -/

/-- What the execution of a line does. Of lines that pass, only the store may change. -/
inductive Moves (p : Program) (s : State) : Line → State → Prop where
  | on {l : Line} (hl : l.passes = true) (store : Store) : Moves p s l { s with pc := s.pc + 1, store }
  | compare (left right : String) : Moves p s (.compare left right)
      { s with pc := s.pc + 1, register := some (s.store.resolve left, s.store.resolve right) }
  | jump {name : String} {pc : Nat} (hpc : p.lineOf? name = some pc) : Moves p s (.jump name) { s with pc }
  | held {relation : Relation} {name : String} {pc : Nat} (hpc : p.lineOf? name = some pc) :
      Moves p s (.jumpIf relation name) { s with pc, register := none }
  | missed (relation : Relation) (name : String) :
      Moves p s (.jumpIf relation name) { s with pc := s.pc + 1, register := none }
  | call {name : String} {pc : Nat} (args : List String) (hbuiltin : isBuiltin name = false)
      (hpc : p.lineOf? name = some pc) :
      Moves p s (.call name args) { s with pc, stack := (s.pc + 1) :: s.stack }
  | ret {pc : Nat} {stack : List Nat} (hstack : s.stack = pc :: stack) : Moves p s .ret { s with pc, stack }

theorem Moves.stack_cases {p : Program} {s t : State} {l : Line} (h : Moves p s l t) :
    t.stack = s.stack ∨
      (∃ f args, l = .call f args ∧ isBuiltin f = false ∧ p.lineOf? f = some t.pc ∧ t.stack = (s.pc + 1) :: s.stack) ∨
      (l = .ret ∧ s.stack = t.pc :: t.stack) := by
  cases h with
  | call args hbuiltin hpc => exact Or.inr (Or.inl ⟨_, args, rfl, hbuiltin, hpc, rfl⟩)
  | ret hstack => exact Or.inr (Or.inr ⟨rfl, hstack⟩)
  | _ => exact Or.inl rfl

theorem leads_moves (p : Program) (s : State) (l : Line) :
    Leads (Moves p s l) (p.execute { s with pc := s.pc + 1 } l) := by
  cases l with
  | blank | label | move => exact .on rfl _
  | arith op target source =>
    simp only [execute]
    split
    · exact .on rfl _
    · trivial
  | compare left right => exact .compare left right
  | jump name =>
    simp only [execute, jump]
    split
    · rename_i pc hpc
      exact .jump hpc
    · trivial
  | jumpIf relation name =>
    simp only [execute, jump]
    split_ifs
    · split
      · rename_i pc hpc
        exact .held hpc
      · trivial
    · exact .missed relation name
  | call name args =>
    simp only [execute, jump]
    split_ifs with hprint hprompt
    · have hbuiltin : isBuiltin name = true := by rw [isBuiltin, hprint, Bool.true_or]
      exact .on (l := .call name args) hbuiltin _
    · intro reply
      show Moves p s _ (State.receive _ args _)
      rw [receive_eq]
      have hbuiltin : isBuiltin name = true := by rw [isBuiltin, beq_iff_eq.mpr hprompt, Bool.or_true]
      exact .on (l := .call name args) hbuiltin _
    · split
      · rename_i pc hpc
        refine .call args ?_ hpc
        rw [isBuiltin, Bool.eq_false_of_not_eq_true hprint, beq_eq_false_iff_ne.mpr hprompt, Bool.false_or]
      · trivial
  | ret =>
    simp only [execute]
    split
    · trivial
    · rename_i pc stack hstack
      exact .ret hstack

variable {ls : List Line} {n : Nat} {a b c : Scene}

/-- Every step moves. -/
theorem moves_of_after? (h : (ofLines ls).after? a = some b) :
    ∃ l, ls[a.state.pc]? = some l ∧ Moves (ofLines ls) a.state l b.state := by
  cases hline : ls[a.state.pc]? with
  | none =>
    rw [after?, step_ofLines_none hline] at h
    cases h
  | some l =>
    have hleads := leads_moves (ofLines ls) a.state l
    rw [← step_ofLines hline] at hleads
    exact ⟨l, rfl, Leads.of_after? hleads h⟩

/-- What every move keeps holds wherever a run gets. -/
theorem Reachable.of_moves {I : State → Prop} (hinitial : I .initial)
    (hmoves : ∀ s l t, I s → ls[s.pc]? = some l → Moves (ofLines ls) s l t → I t) {s : State}
    (h : (ofLines ls).Reachable s) : I s := by
  refine h.invariant hinitial fun s hs => ?_
  cases hline : ls[s.pc]? with
  | none =>
    rw [step_ofLines_none hline]
    trivial
  | some l =>
    rw [step_ofLines hline]
    exact (leads_moves (ofLines ls) s l).imp fun t => hmoves s l t hs hline

/-! ## Activations -/

/-- A step that calls a function, puts the line behind the call on the stack and goes to the function's label. -/
structure Enters (ls : List Line) (f : String) (a b : Scene) : Prop where
  call : ∃ args, ls[a.state.pc]? = some (.call f args)
  builtin : isBuiltin f = false
  label : (ofLines ls).lineOf? f = some b.state.pc
  step : (ofLines ls).after? a = some b
  stack : b.state.stack = (a.state.pc + 1) :: a.state.stack

/-- Steps during which these addresses stay on the stack. -/
inductive Above (p : Program) (addresses : List Nat) : Nat → Scene → Scene → Prop where
  | refl {a : Scene} (ha : addresses <:+ a.state.stack) : Above p addresses 0 a a
  | step {n : Nat} {a b c : Scene} (ha : addresses <:+ a.state.stack) (hab : p.after? a = some b)
      (hbc : Above p addresses n b c) : Above p addresses (n + 1) a c

namespace Above

variable {p : Program} {addresses more : List Nat} {m : Nat}

theorem mono (hmore : more <:+ addresses) (h : Above p addresses n a b) : Above p more n a b := by
  induction h with
  | refl ha => exact .refl (hmore.trans ha)
  | step ha hab _ ih => exact .step (hmore.trans ha) hab ih

theorem trans (h : Above p addresses m a b) (h' : Above p addresses n b c) : Above p addresses (m + n) a c := by
  induction h with
  | refl => rwa [Nat.zero_add]
  | step ha hab _ ih =>
    rw [Nat.add_right_comm]
    exact .step ha hab (ih h')

theorem concat (h : Above p addresses n a b) (hbc : p.after? b = some c) (hc : addresses <:+ c.state.stack) :
    Above p addresses (n + 1) a c := by
  induction h with
  | refl ha => exact .step ha hbc (.refl hc)
  | step ha hab _ ih => exact .step ha hab (ih hbc)

end Above

/-- **The address on top of the stack was put there by a call, and has stayed there since.** -/
theorem exists_enters {start : Scene} (hstart : start.state.stack = []) (h : Goes (ofLines ls) n start b)
    (hb : b.state.stack ≠ []) :
    ∃ m k f c d, m + 1 + k = n ∧ Goes (ofLines ls) m start c ∧ Enters ls f c d ∧ d.state.stack = b.state.stack ∧
      Above (ofLines ls) b.state.stack k d b := by
  induction n using Nat.strong_induction_on generalizing b with
  | _ n ih =>
    cases n with
    | zero =>
      cases h
      exact absurd hstart hb
    | succ n =>
      obtain ⟨a, hgoes, hab⟩ := h.last
      obtain ⟨l, hl, hmove⟩ := moves_of_after? hab
      obtain hsame | ⟨f, args, rfl, hbuiltin, hlabel, hstack⟩ | ⟨rfl, hstack⟩ := hmove.stack_cases
      · obtain ⟨m, k, f, c, d, hm, hc, henters, hd, habove⟩ := ih n n.lt_succ_self hgoes (hsame ▸ hb)
        rw [← hsame] at hd habove
        exact ⟨m, k + 1, f, c, d, by omega, hc, henters, hd, habove.concat hab (List.suffix_refl _)⟩
      · exact ⟨n, 0, f, a, b, rfl, hgoes, ⟨⟨args, hl⟩, hbuiltin, hlabel, hab, hstack⟩, rfl, .refl (List.suffix_refl _)⟩
      · -- The function that returns was entered where the stack was as it is now, and that goes for the call before.
        have hne : a.state.stack ≠ [] := hstack ▸ List.cons_ne_nil _ _
        have hsuffix : b.state.stack <:+ a.state.stack := hstack ▸ List.suffix_cons _ _
        obtain ⟨m₁, k₁, f₁, c₁, d₁, hm₁, hc₁, henters₁, hd₁, habove₁⟩ := ih n n.lt_succ_self hgoes hne
        have hc₁stack : c₁.state.stack = b.state.stack :=
          (List.cons.inj (henters₁.stack.symm.trans (hd₁.trans hstack))).2
        obtain ⟨m, k, f, c, d, hm, hc, henters, hd, habove⟩ := ih m₁ (by omega) hc₁ (hc₁stack ▸ hb)
        rw [hc₁stack] at hd habove
        have hinner := (habove.concat henters₁.step (hd₁ ▸ hsuffix)).trans (habove₁.mono hsuffix)
        exact ⟨m, k + 1 + k₁ + 1, f, c, d, by omega, hc, henters, hd, hinner.concat hab (List.suffix_refl _)⟩

end Program

end Machine

end Dotlang
