import Dotlang.Proofs.Interpreter
import Dotlang.Proofs.Simulation

/-!
# Both codes of a program do the same

The assembly of a program accumulates in place, its three-address code in temporaries. Between two instructions the
variables of the source have the same values on both sides, and the same has been printed.

* `Made`, `Given` : the names that the emitters make up, and the operands that are none of them;
* `Instruction.Plain` : what an instruction needs for its two codes to agree;
* `Abreast is before w k q` : the machine and the interpreter both stand behind the instructions `before`;
* `Abreast.advance` : one instruction further they stand abreast again, or both end alike;
* `backends_agree` : the two codes of a source print the same lines and end in the same way, or both never end.
-/

namespace Dotlang

open Assembly (Line linesOf lines)
open ThreeAddress (Quad quads quadsAll Steps)
open Machine (Program Scene)
open Machine.Program (Goes)
open Store (EqOff)

/-! ## Names -/

/-- The names of scratch variables and temporaries. -/
def Made (name : String) : Prop := Beyond "$t" 0 name ∨ Beyond "t" 0 name

/-- The value of an operand does not depend on scratch variables and temporaries. -/
def Given (w : String) : Prop := ∀ name, Reads w name → ¬ Made name

section Names

variable {s t : Store} {w : String} {n : Nat}

theorem Given.scratch (h : Given w) (n : Nat) : Settled "$t" n w :=
  fun name hname hbeyond => h name hname (Or.inl (hbeyond.mono (Nat.zero_le n)))

theorem Given.temporary (h : Given w) (n : Nat) : Settled "t" n w :=
  fun name hname hbeyond => h name hname (Or.inr (hbeyond.mono (Nat.zero_le n)))

theorem Store.EqOff.of_scratch (h : EqOff (Beyond "$t" n) s t) : EqOff Made s t :=
  h.mono fun _ hname => Or.inl (hname.mono (Nat.zero_le n))

theorem Store.EqOff.of_temporary (h : EqOff (Beyond "t" n) s t) : EqOff Made s t :=
  h.mono fun _ hname => Or.inr (hname.mono (Nat.zero_le n))

end Names

/-! ## Instructions -/

/-- A variable of the source. -/
structure Own (name : String) : Prop where
  reads : Reads name name
  given : Given name

/-- An instruction of a source without functions and prompts, which reads and sets variables of the source only and
whose chain, if it is assigned, does not read the target behind its first operand. -/
def Instruction.Plain : Instruction → Prop
  | .assign target c => Own target ∧ (∀ o ∈ c.operands, Given o.lexeme) ∧ ∀ x ∈ c.rest, ¬ Reads x.2.lexeme target
  | .step target _ o => Own target ∧ Given o.lexeme
  | .compare cond _ _ => (∀ o ∈ cond.lhs.operands, Given o.lexeme) ∧ Given cond.rhs.lexeme
  | .call name args none =>
    Machine.printNames.contains name = true ∧ ∀ a ∈ args, a.chain?.isSome = true ∧ ∀ w ∈ a.words, Given w
  | .jump _ | .label _ => True
  | .call _ _ (some _) | .functionBegin _ | .functionEnd => False

section Instructions

variable {s t : Store} (h : EqOff Made s t) (m n : Nat)
include h

theorem Chain.value_eqOff {c : Chain} (hc : ∀ o ∈ c.operands, Given o.lexeme) : c.value s = c.value t :=
  Chain.value_congr fun o ho => h.resolve (hc o ho)

/-- An assignment changes the same variable of the source on both sides. -/
theorem alike_assign {target : String} {c : Chain} (hplain : Instruction.Plain (.assign target c)) :
    Alike (EqOff Made) (((lines (.assign target c)).run m).1.foldlM Line.effect s)
      (((quads (.assign target c)).run n).1.foldlM Quad.effect t) := by
  obtain ⟨-, hc, htarget⟩ := hplain
  have hreduce := (ThreeAddress.alike_reduce (fun o ho => (hc o ho).temporary n) t).1
  show Alike _ ((Assembly.accumulate target c).foldlM Line.effect s) (List.foldlM Quad.effect t
    (((ThreeAddress.reduce c).run n).1.1 ++ [.assign ((ThreeAddress.reduce c).run n).1.2 target]))
  rw [Assembly.foldlM_accumulate htarget, Chain.value_eqOff h hc, List.foldlM_append, map_eq_pure_bind]
  refine hreduce.bind fun v t' ht => ?_
  show EqOff Made (s.set target v) (t'.set target (t'.resolve _))
  rw [ht.2]
  exact (h.trans ht.1.of_temporary).set target v

theorem alike_step {target : String} {op : Operator} {o : Operand} (hplain : Instruction.Plain (.step target op o)) :
    Alike (EqOff Made) (((lines (.step target op o)).run m).1.foldlM Line.effect s)
      (((quads (.step target op o)).run n).1.foldlM Quad.effect t) := by
  obtain ⟨⟨hreads, htarget⟩, ho⟩ := hplain
  have htemporary := ThreeAddress.reads_temporary (n + 1)
  have hmade : Made ("t" ++ toString (n + 1)) := Or.inr ⟨n + 1, Nat.succ_pos n, rfl⟩
  show Alike _ (List.foldlM Line.effect s [.arith op.accumulator target o.lexeme]) (List.foldlM Quad.effect t
    [.assign target ("t" ++ toString (n + 1)),
      .binary op ("t" ++ toString (n + 1)) o.lexeme ("t" ++ toString (n + 1)),
      .assign ("t" ++ toString (n + 1)) target])
  generalize "t" ++ toString (n + 1) = temporary at htemporary hmade
  have hmoved : EqOff Made s (t.set temporary (t.resolve target)) := h.trans (Store.eqOff_set hmade t _)
  have hleft : s.get target = (t.set temporary (t.resolve target)).resolve temporary := by
    rw [Store.resolve_of_reads htemporary, Store.get_set_self, ← h.resolve htarget, Store.resolve_of_reads hreads]
  simp only [List.foldlM_cons, List.foldlM_nil, Line.effect, Quad.effect, bind_map_left, hleft, hmoved.resolve ho]
  refine (Alike.refl _).bind fun v v' hv => ?_
  subst hv
  show EqOff Made (s.set target v) ((((t.set temporary _).set temporary v)).set target (Store.resolve _ temporary))
  rw [Store.resolve_of_reads htemporary, Store.get_set_self]
  exact (hmoved.trans (Store.eqOff_set hmade _ v)).set target v

/-- The left side of a condition has the same value on both sides. -/
theorem alike_compare {c : Chain} (hc : ∀ o ∈ c.operands, Given o.lexeme) :
    Alike (fun s' t' => EqOff Made s' t' ∧
        s'.resolve ((Assembly.operand c).run m).1.2 = t'.resolve ((ThreeAddress.reduceInPlace c).run n).1.2)
      (((Assembly.operand c).run m).1.1.foldlM Line.effect s)
      (((ThreeAddress.reduceInPlace c).run n).1.1.foldlM Quad.effect t) := by
  have hleft := (Assembly.alike_operand (fun o ho => (hc o ho).scratch m) s).1
  have hright := ThreeAddress.alike_reduceInPlace (fun o ho => (hc o ho).temporary n) t
  rw [← Chain.value_eqOff h hc] at hright
  refine hleft.join hright fun v s' t' hs ht => ⟨?_, hs.2.trans ht.2.symm⟩
  exact hs.1.of_scratch.symm.trans (h.trans ht.1.of_temporary)

/-- Arguments have the same values on both sides. -/
theorem alike_call {args : List Argument} (hchains : ∀ a ∈ args, a.chain?.isSome = true)
    (hargs : ∀ a ∈ args, ∀ w ∈ a.words, Given w) :
    Alike (fun s' t' => EqOff Made s' t' ∧ ((Assembly.operands args).run m).1.2.map s'.resolve =
        ((ThreeAddress.reduceAll args).run n).1.2.map t'.resolve)
      (((Assembly.operands args).run m).1.1.foldlM Line.effect s)
      (((ThreeAddress.reduceAll args).run n).1.1.foldlM Quad.effect t) := by
  have hleft := Assembly.alike_operands (fun a ha w hw => (hargs a ha w hw).scratch m) s
  have hright := ThreeAddress.alike_reduceAll (fun a ha w hw => (hargs a ha w hw).temporary n) hchains t
  rw [← evaluateAll_congr fun a ha w hw => h.resolve (hargs a ha w hw)] at hright
  refine hleft.join hright fun vs s' t' hs ht => ⟨?_, hs.2.trans ht.2.symm⟩
  exact hs.1.of_scratch.symm.trans (h.trans ht.1.of_temporary)

end Instructions

/-! ## Side by side -/

/-- How the program ends in a state, if it ends there. -/
def Machine.Program.EndsWith (p : Program) (s : Machine.State) : Except Fault Unit → Prop
  | .ok _ => p.lines.size ≤ s.pc
  | .error f => p.step s = .fault f

/-- From here both end alike: with the same lines printed, and with the same result. -/
def EndAlike (loaded : List Line) (code : List Quad) (a : Scene) (q : ThreeAddress.State) : Prop :=
  ∃ m n b t result, Goes (.ofLines loaded) m a b ∧ Steps code n q t ∧
    (Program.ofLines loaded).EndsWith b.state result ∧ ThreeAddress.EndsWith code t result ∧
    b.seen = t.printed.map Event.print ∧ b.replies = a.replies

/-- The line and the place in the three-address code behind some instructions. -/
def lineAfter (is : List Instruction) : Nat := ((linesOf is).run 0).1.length

def quadAfter (is : List Instruction) : Nat := ((quadsAll is).run 0).1.length

/-- Both stand behind the instructions `before`, and look alike. -/
structure Abreast (is before : List Instruction) (w : World) (q : ThreeAddress.State) : Prop where
  start : before <+: is
  pc : q.pc = quadAfter before
  passed : q.passed = []
  store : EqOff Made w.store q.store
  seen : w.seen = q.printed.map Event.print

/-- The two codes of some instructions, with what is needed to follow both. -/
structure Installed (loaded : List Line) (is : List Instruction) : Prop where
  placed : Placed loaded 0 ((linesOf is).run 0).1
  resolved : Resolved loaded
  leaves : ∀ w : World, ∃ n, Goes (.ofLines loaded) n (w.at (lineAfter is)) (w.at loaded.length)
  plain : ∀ i ∈ is, i.Plain
  once : ∀ l, is.count (.label l) ≤ 1
  closed : Closed [] is

section Abreast

variable {loaded : List Line} {code : List Quad} {is before rest : List Instruction} {i : Instruction} {w : World}
  {q : ThreeAddress.State} {a b : Scene} {t : ThreeAddress.State} {k m n : Nat}

theorem EndAlike.after (hgoes : Goes (.ofLines loaded) m a b) (hsteps : Steps code n q t)
    (hreplies : b.replies = a.replies) (h : EndAlike loaded code b t) : EndAlike loaded code a q := by
  obtain ⟨m', n', c, u, result, hgoes', hsteps', hc, hu, hseen, hreplies'⟩ := h
  exact ⟨m + m', n + n', c, u, result, hgoes.trans hgoes', hsteps.trans hsteps', hc, hu, hseen,
    hreplies'.trans hreplies⟩

/-- Computations that are alike end alike, or get to stores that fit. -/
theorem arrive_or_end {fits : Store → Store → Prop} {ls : List Line} {before qs others : List Quad}
    (hplaced : Placed loaded k ls) (hls : ∀ l ∈ ls, l.isEffect = true) (hcode : code = before ++ qs ++ others)
    (hpc : q.pc = before.length) (hqs : ∀ x ∈ qs, x.isEffect = true) (hseen : w.seen = q.printed.map Event.print)
    (halike : Alike fits (ls.foldlM Line.effect w.store) (qs.foldlM Quad.effect q.store)) :
    (∃ s t, fits s t ∧ Goes (.ofLines loaded) ls.length (w.at k) (World.at { w with store := s } (k + ls.length)) ∧
      Steps code qs.length q { q with pc := before.length + qs.length, store := t }) ∨
      EndAlike loaded code (w.at k) q := by
  have hcomputes := Program.computes_effects (a := w.at k) (Program.holds_of_placed hplaced) hls
  have hran := ThreeAddress.ran_of_split hcode hpc hqs
  cases hs : ls.foldlM Line.effect w.store <;> cases ht : qs.foldlM Quad.effect q.store <;>
    rw [hs, ht] at halike <;> rw [World.at, hs] at hcomputes <;> rw [ht] at hran
  case ok.ok s t => exact Or.inl ⟨s, t, halike, hcomputes, hran⟩
  case error.error f g =>
    obtain ⟨m, b, -, hgoes, hfault, hseen', hreplies⟩ := hcomputes
    obtain ⟨n, u, hsteps, hfault', hprinted⟩ := hran
    obtain rfl : f = g := halike
    exact Or.inr ⟨m, n, b, u, .error f, hgoes, hsteps, hfault, hfault', by rw [hseen', hseen, hprinted], hreplies⟩
  all_goals exact halike.elim

theorem lineAfter_concat (before : List Instruction) (i : Instruction) :
    lineAfter (before ++ [i]) = lineAfter before + ((lines i).run ((linesOf before).run 0).2).1.length := by
  rw [lineAfter, Assembly.linesOf_append, Assembly.linesOf_singleton, List.length_append, lineAfter]

theorem quadAfter_concat (before : List Instruction) (i : Instruction) :
    quadAfter (before ++ [i]) = quadAfter before + ((quads i).run ((quadsAll before).run 0).2).1.length := by
  rw [quadAfter, ThreeAddress.quadsAll_append, List.length_append, quadAfter]
  simp only [quadsAll, run_bind, run_pure, List.append_nil]

theorem Installed.placed_lines (h : Installed loaded is) (his : is = before ++ i :: rest) :
    Placed loaded (lineAfter before) ((lines i).run ((linesOf before).run 0).2).1 := by
  have hplaced := h.placed
  rw [his, Assembly.linesOf_append] at hplaced
  have hright := hplaced.right
  rw [Nat.zero_add] at hright
  exact Placed.left hright

/-- The code of an instruction stands behind that of the instructions before, and the code of the rest numbers on. -/
theorem quads_split (his : is = before ++ i :: rest) :
    ((quadsAll is).run 0).1 =
      ((quadsAll before).run 0).1 ++ ((quads i).run ((quadsAll before).run 0).2).1 ++
        ((quadsAll rest).run ((quads i).run ((quadsAll before).run 0).2).2).1 := by
  rw [his, ThreeAddress.quadsAll_append, List.append_assoc]
  rfl

/-! ### Labels -/

theorem label_of_mem_quads (hi : i.Plain) {name : String} (h : .label name ∈ ((quads i).run n).1) :
    ∃ l : Label, i = .label l ∧ name = l.name := by
  cases i with
  | label l =>
    refine ⟨l, rfl, ?_⟩
    have hquad := List.mem_singleton.mp h
    injection hquad
  | assign target c =>
    rcases List.mem_append.mp h with h | h
    · exact absurd (ThreeAddress.isEffect_reduceTerms _ _ _ _ h) Bool.false_ne_true
    · cases List.mem_singleton.mp h
  | step target op o =>
    have hthree : .label name ∈ [Quad.assign target ("t" ++ toString (n + 1)),
      .binary op ("t" ++ toString (n + 1)) o.lexeme ("t" ++ toString (n + 1)),
      .assign ("t" ++ toString (n + 1)) target] := h
    simp at hthree
  | compare cond relation l =>
    rcases List.mem_append.mp h with h | h
    · exact absurd (ThreeAddress.isEffect_reduceInPlace _ _ _ h) Bool.false_ne_true
    · simp at h
  | jump l => cases List.mem_singleton.mp h
  | call name args params =>
    rcases List.mem_append.mp h with h | h
    · rcases List.mem_append.mp h with h | h
      · exact absurd (ThreeAddress.isEffect_reduceAll _ _ _ h) Bool.false_ne_true
      · simp at h
    · cases List.mem_singleton.mp h
  | functionBegin name => exact hi.elim
  | functionEnd => exact hi.elim

theorem label_of_mem_quadsAll (his : ∀ i ∈ is, i.Plain) {name : String} (h : .label name ∈ ((quadsAll is).run n).1) :
    ∃ l : Label, .label l ∈ is ∧ name = l.name := by
  induction is generalizing n with
  | nil => exact absurd h List.not_mem_nil
  | cons i is ih =>
    obtain ⟨hi, hrest⟩ := List.forall_mem_cons.mp his
    rcases List.mem_append.mp h with h | h
    · obtain ⟨l, rfl, hname⟩ := label_of_mem_quads hi h
      exact ⟨l, List.mem_cons_self, hname⟩
    · obtain ⟨l, hl, hname⟩ := ih hrest h
      exact ⟨l, List.mem_cons_of_mem _ hl, hname⟩

/-- A label of the instructions leads to the same place on both sides. -/
theorem Installed.label (h : Installed loaded is) {l : Label} (hl : .label l ∈ is) :
    ∃ before, before <+: is ∧ (Program.ofLines loaded).lineOf? l.name = some (lineAfter before) ∧
      ((quadsAll is).run 0).1.findIdx? (· = .label l.name) = some (quadAfter before) := by
  obtain ⟨before, rest, his⟩ := List.append_of_mem hl
  refine ⟨before, ⟨_, his.symm⟩, h.resolved _ _ (h.placed_lines his).head, ?_⟩
  have hcode := quads_split his
  have hfirst : ∀ x ∈ ((quadsAll before).run 0).1, ¬ x = .label l.name := by
    rintro x hx rfl
    have hbefore : ∀ i ∈ before, i.Plain := fun i hi => h.plain i (his ▸ List.mem_append_left _ hi)
    obtain ⟨l', hl', hname⟩ := label_of_mem_quadsAll hbefore hx
    obtain rfl := Label.name_injective hname
    have honce := h.once l
    have hpos := List.count_pos_iff.mpr hl'
    rw [his, List.count_append, List.count_cons_self] at honce
    omega
  have hnone : ((quadsAll before).run 0).1.findIdx? (· = .label l.name) = none :=
    List.findIdx?_eq_none_iff.mpr fun x hx => by simpa using hfirst x hx
  rw [hcode, List.append_assoc, List.findIdx?_append, hnone]
  show Option.or none (Option.map _ (List.findIdx? _ (Quad.label l.name :: _))) = _
  simp [List.findIdx?_cons, quadAfter]

/-! ### One instruction -/

/-- Both get behind the same instructions again, each in one step or more, or end alike. -/
def Advances (loaded : List Line) (is before : List Instruction) (w : World) (q : ThreeAddress.State) : Prop :=
  (∃ further w' q' m n, 0 < m ∧ 0 < n ∧ Goes (.ofLines loaded) m (w.at (lineAfter before)) (w'.at (lineAfter further)) ∧
    Steps ((quadsAll is).run 0).1 n q q' ∧ Abreast is further w' q' ∧ w'.replies = w.replies) ∨
    EndAlike loaded ((quadsAll is).run 0).1 (w.at (lineAfter before)) q

/-- An instruction that only sets variables. -/
theorem Abreast.advance_effect (h : Installed loaded is) (ha : Abreast is before w q) (his : is = before ++ i :: rest)
    (hls : ∀ m, ∀ l ∈ ((lines i).run m).1, l.isEffect = true) (hqs : ∀ n, ∀ x ∈ ((quads i).run n).1, x.isEffect = true)
    (hne : ∀ m, 0 < ((lines i).run m).1.length) (hne' : ∀ n, 0 < ((quads i).run n).1.length)
    (halike : ∀ m n, Alike (EqOff Made) (((lines i).run m).1.foldlM Line.effect w.store)
      (((quads i).run n).1.foldlM Quad.effect q.store)) : Advances loaded is before w q := by
  have hcode := quads_split his
  obtain ⟨s, t, hst, hgoes, hsteps⟩ | hend :=
    arrive_or_end (h.placed_lines his) (hls _) hcode ha.pc (hqs _) ha.seen (halike _ _)
  · rw [← lineAfter_concat] at hgoes
    refine Or.inl ⟨before ++ [i], { w with store := s }, _, _, _, hne _, hne' _, hgoes, hsteps, ?_, rfl⟩
    exact ⟨⟨rest, by simp [his]⟩, (quadAfter_concat before i).symm, ha.passed, hst, ha.seen⟩
  · exact Or.inr hend

theorem Abreast.advance_jump {l : Label} (h : Installed loaded is) (ha : Abreast is before w q)
    (his : is = before ++ .jump l :: rest) (hl : .label l ∈ is) : Advances loaded is before w q := by
  have hcode := quads_split his
  obtain ⟨further, hstart, hline, hquad⟩ := h.label hl
  have hstep : ThreeAddress.step ((quadsAll is).run 0).1 q = .next { q with pc := quadAfter further } := by
    rw [ThreeAddress.step_of_split (hcode.trans (List.append_assoc ..)) ha.pc]
    show ThreeAddress.goto _ _ l.name = _
    rw [ThreeAddress.goto, hquad]
  refine Or.inl ⟨further, w, _, 1, 1, Nat.one_pos, Nat.one_pos, ?_, .one hstep, ?_, rfl⟩
  · exact goes_jump (h.placed_lines his).head hline w
  · exact ⟨hstart, rfl, ha.passed, ha.store, ha.seen⟩

theorem Abreast.advance_label {l : Label} (h : Installed loaded is) (ha : Abreast is before w q)
    (his : is = before ++ .label l :: rest) : Advances loaded is before w q := by
  have hcode := quads_split his
  have hstep := ThreeAddress.step_of_split (hcode.trans (List.append_assoc ..)) ha.pc
  have hgoes := goes_label (h.placed_lines his).head w
  rw [show lineAfter before + 1 = lineAfter (before ++ [.label l]) from (lineAfter_concat before (.label l)).symm]
    at hgoes
  refine Or.inl ⟨before ++ [.label l], w, _, 1, 1, Nat.one_pos, Nat.one_pos, hgoes, .one hstep, ?_, rfl⟩
  exact ⟨⟨rest, by simp [his]⟩, (quadAfter_concat before (.label l)).symm, ha.passed, ha.store, ha.seen⟩

/-- The left side of a condition is computed first. The values that are compared are the same on both sides. -/
theorem Abreast.advance_compare {cond : Condition} {relation : Relation} {l : Label} (h : Installed loaded is)
    (ha : Abreast is before w q) (his : is = before ++ .compare cond relation l :: rest) (hl : .label l ∈ is)
    (hplain : Instruction.Plain (.compare cond relation l)) : Advances loaded is before w q := by
  obtain ⟨hlhs, hrhs⟩ := hplain
  have hcode := quads_split his
  obtain ⟨further, hstart, hline, hquad⟩ := h.label hl
  have hplaced := h.placed_lines his
  have hlast := lineAfter_concat before (.compare cond relation l)
  have hlast' := quadAfter_concat before (.compare cond relation l)
  have halike := alike_compare ha.store ((linesOf before).run 0).2 ((quadsAll before).run 0).2 hlhs
  have heffects := Assembly.isEffect_operand cond.lhs ((linesOf before).run 0).2
  have heffects' := ThreeAddress.isEffect_reduceInPlace cond.lhs ((quadsAll before).run 0).2
  simp only [lines, quads, run_bind, run_pure] at hplaced hcode hlast hlast'
  -- what computes the left side, and the operand that holds it then
  generalize ((Assembly.operand cond.lhs).run ((linesOf before).run 0).2).1 = left at *
  generalize ((ThreeAddress.reduceInPlace cond.lhs).run ((quadsAll before).run 0).2).1 = left' at *
  obtain ⟨ls, a⟩ := left
  obtain ⟨qs, a'⟩ := left'
  rw [List.append_assoc, List.append_assoc, ← List.append_assoc] at hcode
  rw [List.length_append, ← Nat.add_assoc] at hlast hlast'
  obtain ⟨s, t, ⟨hst, heq⟩, hgoes, hsteps⟩ | hend :=
    arrive_or_end hplaced.left heffects hcode ha.pc heffects' ha.seen halike
  · have hvalues : s.resolve cond.rhs.lexeme = t.resolve cond.rhs.lexeme := hst.resolve hrhs
    have hgoes' := goes_compare hplaced.right.head hplaced.right.tail.head hline { w with store := s }
    have hsteps' := ThreeAddress.steps_compare (s := { q with
      pc := ((quadsAll before).run 0).1.length + qs.length, store := t }) hcode List.length_append.symm hquad
    simp only [heq, hvalues] at hgoes'
    by_cases hholds : relation.holds (t.resolve a') (t.resolve cond.rhs.lexeme) = true
    · simp only [if_pos hholds] at hgoes' hsteps'
      refine Or.inl ⟨further, { w with store := s }, _, _, _, Nat.succ_pos _, Nat.succ_pos _,
        hgoes.trans hgoes', hsteps.trans hsteps', ?_, rfl⟩
      exact ⟨hstart, rfl, ha.passed, hst, ha.seen⟩
    · simp only [if_neg hholds] at hgoes' hsteps'
      rw [List.length_append] at hsteps'
      have hthere := hgoes.trans hgoes'
      rw [show lineAfter before + ls.length + 2 = _ from hlast.symm] at hthere
      refine Or.inl ⟨before ++ [.compare cond relation l], { w with store := s }, _, _, _, Nat.succ_pos _,
        Nat.succ_pos _, hthere, hsteps.trans hsteps', ?_, rfl⟩
      exact ⟨⟨rest, by simp [his]⟩, hlast'.symm, ha.passed, hst, ha.seen⟩
  · exact Or.inr hend

/-- A call that prints leads to the next line. -/
theorem goes_print {name : String} {words : List String} (hline : loaded[k]? = some (.call name words))
    (hname : Machine.printNames.contains name = true) (w : World) :
    Goes (.ofLines loaded) 1 (w.at k) (World.at { w with
      seen := .print (String.intercalate " " ((words.map w.store.resolve).map Value.display)) :: w.seen } (k + 1)) := by
  rw [List.map_map]
  exact Goes.print (a := w.at k) (Machine.lines_ofLines.mpr hline) hname

/-- The arguments of a call are computed first, and what is printed is the same on both sides. -/
theorem Abreast.advance_call {name : String} {args : List Argument} (h : Installed loaded is)
    (ha : Abreast is before w q) (his : is = before ++ .call name args none :: rest)
    (hplain : Instruction.Plain (.call name args none)) : Advances loaded is before w q := by
  obtain ⟨hname, hargs⟩ := hplain
  have hcode := quads_split his
  have hplaced := h.placed_lines his
  have hlast := lineAfter_concat before (.call name args none)
  have hlast' := quadAfter_concat before (.call name args none)
  have halike := alike_call ha.store ((linesOf before).run 0).2 ((quadsAll before).run 0).2
    (fun a ha => (hargs a ha).1) fun a ha => (hargs a ha).2
  have heffects := Assembly.isEffect_operands args ((linesOf before).run 0).2
  have heffects' := ThreeAddress.isEffect_reduceAll args ((quadsAll before).run 0).2
  simp only [lines, quads, run_bind, run_pure] at hplaced hcode hlast hlast'
  -- what computes the arguments, and the operands that hold them then
  generalize ((Assembly.operands args).run ((linesOf before).run 0).2).1 = computed at *
  generalize ((ThreeAddress.reduceAll args).run ((quadsAll before).run 0).2).1 = computed' at *
  obtain ⟨ls, words⟩ := computed
  obtain ⟨qs, addresses⟩ := computed'
  rw [List.append_assoc, List.append_assoc, List.append_assoc, ← List.append_assoc] at hcode
  rw [List.length_append, ← Nat.add_assoc] at hlast
  simp only [List.length_append, List.length_map, List.length_singleton, ← Nat.add_assoc] at hlast'
  obtain ⟨s, t, ⟨hst, heq⟩, hgoes, hsteps⟩ | hend :=
    arrive_or_end hplaced.left heffects hcode ha.pc heffects' ha.seen halike
  · have hgoes' := goes_print hplaced.right.head hname { w with store := s }
    have hsteps' := ThreeAddress.steps_call (s := { q with
      pc := ((quadsAll before).run 0).1.length + qs.length, store := t })
      (hcode.trans (List.append_assoc ..).symm) hname List.length_append.symm ha.passed
    rw [List.length_append] at hsteps'
    have hthere := hgoes.trans hgoes'
    rw [show lineAfter before + ls.length + 1 = _ from hlast.symm, heq] at hthere
    have hseen : Event.print (String.intercalate " " ((addresses.map t.resolve).map Value.display)) :: w.seen = _ :=
      congrArg _ ha.seen
    refine Or.inl ⟨before ++ [.call name args none], ⟨s, w.replies, _⟩, _, _, _, Nat.succ_pos _, Nat.succ_pos _, hthere,
      hsteps.trans hsteps', ?_, rfl⟩
    exact ⟨⟨rest, by simp [his]⟩, hlast'.symm, ha.passed, hst, hseen⟩
  · exact Or.inr hend

/-- Behind the last instruction both end. -/
theorem Abreast.endAlike (h : Installed loaded is) (ha : Abreast is is w q) :
    EndAlike loaded ((quadsAll is).run 0).1 (w.at (lineAfter is)) q := by
  obtain ⟨n, hgoes⟩ := h.leaves w
  have hnone : ((quadsAll is).run 0).1[q.pc]? = none := by
    rw [ha.pc]
    exact List.getElem?_eq_none (Nat.le_refl _)
  refine ⟨n, 0, _, q, .ok (), hgoes, .refl q, ?_, ?_, ha.seen, rfl⟩
  · show (Program.ofLines loaded).lines.size ≤ loaded.length
    simp [Program.ofLines]
  · show ThreeAddress.step _ q = .halt
    rw [ThreeAddress.step, hnone]

/-- **One instruction further, the machine and the interpreter stand abreast again, or both end alike.** -/
theorem Abreast.advance (h : Installed loaded is) (ha : Abreast is before w q) : Advances loaded is before w q := by
  obtain ⟨rest, hrest⟩ := ha.start
  cases rest with
  | nil =>
    rw [List.append_nil] at hrest
    subst hrest
    exact Or.inr (ha.endAlike h)
  | cons i rest =>
    have his := hrest.symm
    have hmem : i ∈ is := his ▸ List.mem_append_right _ List.mem_cons_self
    have hplain := h.plain i hmem
    have htarget : ∀ l, i.target? = some l → .label l ∈ is :=
      fun l hl => (h.closed i hmem l hl).resolve_left List.not_mem_nil
    cases i with
    | assign target c =>
      refine ha.advance_effect h his (fun m => Assembly.isEffect_accumulate) (fun n => ?_) (fun m => Nat.succ_pos _)
        (fun n => ?_) fun m n => alike_assign ha.store m n hplain
      · refine List.forall_mem_append.mpr ⟨ThreeAddress.isEffect_reduceTerms _ _ n, ?_⟩
        exact List.forall_mem_singleton.mpr rfl
      · exact List.length_pos_iff.mpr (List.append_ne_nil_of_right_ne_nil _ (List.cons_ne_nil _ _))
    | step target op o =>
      have heffects : ∀ n, ∀ x ∈ ((quads (.step target op o)).run n).1, x.isEffect = true := fun n =>
        List.forall_mem_cons.mpr ⟨rfl, List.forall_mem_cons.mpr ⟨rfl, List.forall_mem_singleton.mpr rfl⟩⟩
      exact ha.advance_effect h his (fun m => List.forall_mem_singleton.mpr rfl) heffects (fun m => Nat.one_pos)
        (fun n => Nat.succ_pos 2) fun m n => alike_step ha.store m n hplain
    | compare cond relation l => exact ha.advance_compare h his (htarget l rfl) hplain
    | jump l => exact ha.advance_jump h his (htarget l rfl)
    | label l => exact ha.advance_label h his
    | call name args params =>
      cases params with
      | none => exact ha.advance_call h his hplain
      | some params => exact hplain.elim
    | functionBegin name => exact hplain.elim
    | functionEnd => exact hplain.elim

/-! ### Runs -/

/-- However long both are followed, they stand abreast, unless they end alike. -/
theorem Abreast.long (h : Installed loaded is) (ha : Abreast is before w q) (N : Nat) :
    EndAlike loaded ((quadsAll is).run 0).1 (w.at (lineAfter before)) q ∨
      ∃ further w' q' m n, N ≤ m ∧ N ≤ n ∧
        Goes (.ofLines loaded) m (w.at (lineAfter before)) (w'.at (lineAfter further)) ∧
        Steps ((quadsAll is).run 0).1 n q q' ∧ Abreast is further w' q' := by
  induction N generalizing before w q with
  | zero => exact Or.inr ⟨before, w, q, 0, 0, Nat.le_refl 0, Nat.le_refl 0, .refl _, .refl _, ha⟩
  | succ N ih =>
    obtain ⟨further, w', q', m, n, hm, hn, hgoes, hsteps, ha', hreplies⟩ | hend := ha.advance h
    · obtain hend | ⟨last, v, t, m', n', hm', hn', hgoes', hsteps', ha''⟩ := ih ha'
      · exact Or.inl (hend.after hgoes hsteps hreplies)
      · exact Or.inr ⟨last, v, t, m + m', n + n', by omega, by omega, hgoes.trans hgoes', hsteps.trans hsteps', ha''⟩
    · exact Or.inl hend

end Abreast

/-- Both codes end after the same printed lines and with the same result. -/
def BothEnd (p : Program) (code : List Quad) (replies : List (Option String)) : Prop :=
  ∃ printed result, (∃ fuel, ThreeAddress.run code fuel = some (printed, result)) ∧
    ∃ enough, ∀ budget ≥ enough, (p.run budget).replay replies = ⟨printed.map .print, result, replies⟩

/-- Neither code ends. -/
def NeitherEnds (p : Program) (code : List Quad) (replies : List (Option String)) : Prop :=
  (∀ fuel, ThreeAddress.run code fuel = none) ∧
    ∀ budget, ((p.run budget).replay replies).result = .error (.stepBudgetExceeded budget)

section Runs

variable {p : Program} {code : List Quad} {loaded : List Line} {is : List Instruction} {replies : List (Option String)}

theorem Machine.Program.rest_of_endsWith {a : Scene} {result : Except Fault Unit} (h : p.EndsWith a.state result)
    (budget fuel : Nat) : p.rest budget (fuel + 1) a = ⟨a.seen.reverse, result, a.replies⟩ := by
  cases result with
  | ok u => exact Program.rest_halt h budget (fuel + 1)
  | error f => exact Program.rest_fault h budget fuel

theorem EndAlike.bothEnd (hunresolved : (Program.ofLines loaded).unresolved? = none)
    (h : EndAlike loaded code (.start replies) .initial) : BothEnd (.ofLines loaded) code replies := by
  obtain ⟨m, n, b, t, result, hgoes, hsteps, hb, ht, hseen, hreplies⟩ := h
  refine ⟨t.printed.reverse, result, ⟨1 + n, ?_⟩, ⟨1 + m, fun budget hbudget => ?_⟩⟩
  · exact (hsteps.runFrom_eq 1).trans (ThreeAddress.runFrom_of_endsWith ht 0)
  · obtain ⟨fuel, rfl⟩ := Nat.exists_eq_add_of_le' hbudget
    rw [Program.replay_run hunresolved, ← Nat.add_assoc, Program.rest_of_goes hgoes, Program.rest_of_endsWith hb, hseen,
      hreplies, List.map_reverse]
    rfl

/-- Two codes that are installed both end, and alike, or neither of them does. -/
theorem Installed.bothEnd_or_neitherEnds (h : Installed loaded is)
    (hunresolved : (Program.ofLines loaded).unresolved? = none) (replies : List (Option String)) :
    BothEnd (.ofLines loaded) ((quadsAll is).run 0).1 replies ∨
      NeitherEnds (.ofLines loaded) ((quadsAll is).run 0).1 replies := by
  have hstart : Abreast is [] (World.start replies) .initial := ⟨List.nil_prefix, rfl, rfl, .refl _ _, rfl⟩
  by_cases hend : EndAlike loaded ((quadsAll is).run 0).1 (.start replies) .initial
  · exact Or.inl (hend.bothEnd hunresolved)
  · refine Or.inr ⟨fun fuel => ?_, fun budget => ?_⟩
    · obtain ⟨_, _, _, _, _, _, hn, _, hsteps, _⟩ := (hstart.long h fuel).resolve_left hend
      exact hsteps.runFrom_eq_none hn
    · obtain ⟨_, _, _, _, _, hm, _, hgoes, _, _⟩ := (hstart.long h (budget + 1)).resolve_left hend
      rw [Program.replay_run hunresolved]
      exact Program.rest_exhausted hgoes hm budget

/-- What ends does not spend every budget. -/
theorem not_exceeded {result : Except Fault Unit} {enough : Nat} {events : List Event}
    (h : ∀ budget ≥ enough, (p.run budget).replay replies = ⟨events, result, replies⟩) :
    ¬ ∀ budget, ((p.run budget).replay replies).result = .error (.stepBudgetExceeded budget) := by
  intro hexceeded
  have hthis := hexceeded enough
  have hnext := hexceeded (enough + 1)
  rw [h enough (Nat.le_refl _)] at hthis
  rw [h (enough + 1) (Nat.le_succ _), hthis] at hnext
  simp at hnext

theorem iff_of_bothEnd_or_neitherEnds (h : BothEnd p code replies ∨ NeitherEnds p code replies) :
    (∀ printed result, (∃ fuel, ThreeAddress.run code fuel = some (printed, result)) ↔
      ∃ enough, ∀ budget ≥ enough, (p.run budget).replay replies = ⟨printed.map .print, result, replies⟩) ∧
    ((∀ fuel, ThreeAddress.run code fuel = none) ↔
      ∀ budget, ((p.run budget).replay replies).result = .error (.stepBudgetExceeded budget)) := by
  obtain ⟨printed, result, ⟨fuel, hrun⟩, enough, hreplay⟩ | ⟨hnone, hexceeded⟩ := h
  · refine ⟨fun printed' result' => ⟨?_, ?_⟩, ⟨fun hnone => ?_, fun hexceeded => ?_⟩⟩
    · rintro ⟨fuel', hrun'⟩
      cases ThreeAddress.run_unique hrun hrun'
      exact ⟨enough, hreplay⟩
    · rintro ⟨enough', hreplay'⟩
      have hsame := hreplay' (max enough enough') (Nat.le_max_right ..)
      rw [hreplay _ (Nat.le_max_left ..), Transcript.mk.injEq] at hsame
      have hprinted : Function.Injective Event.print := fun a b h => Event.print.inj h
      obtain ⟨hevents, rfl, -⟩ := hsame
      obtain rfl := List.map_injective_iff.mpr hprinted hevents
      exact ⟨fuel, hrun⟩
    · rw [hnone fuel] at hrun
      cases hrun
    · exact (not_exceeded hreplay hexceeded).elim
  · refine ⟨fun printed' result' => ⟨?_, ?_⟩, ⟨fun _ => hexceeded, fun _ => hnone⟩⟩
    · rintro ⟨fuel, hrun⟩
      rw [hnone fuel] at hrun
      cases hrun
    · rintro ⟨enough, hreplay⟩
      exact (not_exceeded hreplay hexceeded).elim

end Runs

/-! ## Sources -/

/-- The names that the three-address code gives its temporaries. -/
def ThreeAddress.isTemporary (name : String) : Bool :=
  match name.toList with
  | 't' :: digits => Text.isDigits digits
  | _ => false

theorem ThreeAddress.isTemporary_numbered (n : Nat) : isTemporary ("t" ++ toString n) = true := by
  have hname : ("t" ++ toString n).toList = 't' :: Nat.toDigits 10 n := by
    rw [String.toList_append, Nat.toString_eq_repr, Nat.toList_repr]
    rfl
  have hdigits : (Nat.toDigits 10 n).all Char.isDigit = true :=
    List.all_eq_true.mpr fun c hc => Nat.isDigit_of_mem_toDigits (by decide) (by decide) hc
  have hne : Nat.toDigits 10 n ≠ [] := Nat.toDigits_ne_nil
  simp only [isTemporary, hname, Text.isDigits, hdigits, Bool.and_true, bne_iff_ne]
  exact hne

namespace Statement

/-- What a statement assigns itself, in declarations and in the steps of loops as well: targets and chains. -/
def assignments : Statement → List (String × Chain)
  | declare _ d => d.value.toList.map (d.name, ·)
  | assign _ name value => value.toList.map (name, ·)
  | counting _ init _ step _ =>
    (init.toList.flatMap fun d => d.value.toList.map (d.name, ·)) ++
      (step.toList.flatMap fun
        | .assign target value => value.toList.map (target, ·)
        | .compound .. => [])
  | _ => []

/-- The arguments that a statement passes itself. -/
def args : Statement → List Argument
  | call _ _ args _ => args
  | _ => []

end Statement

section Source

variable {tokens : List Token} (htokens : Scanned tokens)
  (hnames : ∀ t ∈ tokens, t.kind = .identifier → ThreeAddress.isTemporary t.lexeme = false)
include htokens

/-- An operand of the source that is a variable is that very name. -/
theorem eq_of_reads {t : Token} (ht : t ∈ tokens) (hkind : t.kind.isOperand = true) {name : String}
    (h : Reads t.lexeme name) : name = t.lexeme ∧ t.kind = .identifier := by
  obtain ⟨rfl, hliteral⟩ := h
  have hword := Assembly.Line.withoutComma_operand (Machine.isOperand_of_form hkind (htokens t ht))
  rw [hword] at hliteral
  exact ⟨hword, kind_of_literal?_eq_none hkind (htokens t ht) hliteral⟩

include hnames

theorem given_of_mem {t : Token} (ht : t ∈ tokens) (hkind : t.kind.isOperand = true) : Given t.lexeme := by
  intro name hreads hmade
  obtain ⟨rfl, hidentifier⟩ := eq_of_reads htokens ht hkind hreads
  rcases hmade with ⟨n, -, hn⟩ | ⟨n, -, hn⟩
  · -- the name of a scratch variable begins as no name can
    have hname : Lexer.IsName t.lexeme.toList := IdentifierIn.isName htokens ⟨t, ht, hidentifier, rfl⟩
    obtain ⟨c, cs, hcs, hstart⟩ := hname.head
    rw [hn, String.toList_append] at hcs
    cases hcs
    exact absurd hstart (by decide)
  · have hfalse := hnames t ht hidentifier
    rw [hn, ThreeAddress.isTemporary_numbered] at hfalse
    cases hfalse

theorem own_of_identifierIn {name : String} (h : IdentifierIn tokens name) : Own name := by
  obtain ⟨t, ht, hkind, rfl⟩ := h
  have hname : Lexer.IsName t.lexeme.toList := IdentifierIn.isName htokens ⟨t, ht, hkind, rfl⟩
  have hoperand : t.kind.isOperand = true := by rw [hkind]; rfl
  refine ⟨⟨?_, literal?_of_isName hname⟩, given_of_mem htokens hnames ht hoperand⟩
  exact Assembly.Line.withoutComma_operand (Machine.isOperand_of_form hoperand (htokens t ht))

theorem Chain.ReadIn.given {c : Chain} (h : c.ReadIn tokens) : ∀ o ∈ c.operands, Given o.lexeme := by
  intro o ho
  obtain ⟨ts, hts, hc⟩ := h
  obtain ⟨t, ht, hkind, rfl⟩ := Chain.exists_of_mem_operands hc ho
  exact given_of_mem htokens hnames (hts.subset ht) hkind

/-- The only operand that reads a target is its own name. -/
theorem AssignedIn.plain {target : String} {c : Chain} (h : AssignedIn tokens target c)
    (hapart : ∀ x ∈ c.rest, x.2.lexeme ≠ target) : Instruction.Plain (.assign target c) := by
  refine ⟨own_of_identifierIn htokens hnames h.target, h.readIn.given htokens hnames, fun x hx hreads => ?_⟩
  obtain ⟨ts, hts, hc⟩ := h.readIn
  obtain ⟨t, ht, hkind, hoperand⟩ :=
    Chain.exists_of_mem_operands hc (List.mem_cons_of_mem _ (List.mem_map_of_mem (f := Prod.snd) hx))
  rw [← hoperand] at hreads
  obtain ⟨hname, -⟩ := eq_of_reads htokens (hts.subset ht) hkind hreads
  exact hapart x hx ((congrArg Operand.lexeme hoperand).symm.trans hname.symm)

/-- The instructions of a statement without functions, prompts and data types among its arguments are plain. -/
theorem plain_of_yields {table : SymbolTable} {s : Statement} (hs : s.ReadIn tokens)
    (hstructured : s.isStructured = true) (hprompt : s.isCallOf Machine.promptName = false)
    (hargs : ∀ a ∈ s.args, a.chain?.isSome = true)
    (hapart : ∀ x ∈ s.assignments, ∀ y ∈ x.2.rest, y.2.lexeme ≠ x.1) {i : Instruction} (hi : s.Yields table i) :
    i.Plain := by
  cases hi with
  | @declare pos d c hvalue =>
    have hmem : (d.name, c) ∈ Statement.assignments (.declare pos d) := by simp [Statement.assignments, hvalue]
    exact AssignedIn.plain htokens hnames (hs.2 c hvalue) (hapart _ hmem)
  | @assign pos name c =>
    exact AssignedIn.plain htokens hnames (hs c rfl) (hapart _ List.mem_cons_self)
  | @call pos name args builtin =>
    obtain ⟨rfl, hbuiltin⟩ := Bool.and_eq_true_iff.mp hstructured
    have hprint : Machine.printNames.contains name = true := by
      rw [Machine.isBuiltin, Bool.or_eq_true] at hbuiltin
      refine hbuiltin.resolve_right fun hname => ?_
      rw [Statement.isCallOf, hname] at hprompt
      cases hprompt
    refine ⟨hprint, fun a ha => ⟨hargs a ha, ?_⟩⟩
    cases a with
    | type word => cases hargs _ ha
    | value c =>
      intro w hw
      obtain ⟨o, ho, rfl⟩ := List.mem_map.mp hw
      exact Chain.ReadIn.given htokens hnames (hs.2 _ ha) o ho
  | functionBegin | functionEnd => cases hstructured
  | @test _ c jump label hc =>
    have hgiven := Chain.ReadIn.given htokens hnames (hs.of_mem_conds hc)
    refine ⟨fun o ho => hgiven o (Condition.mem_operands_of_lhs ho), ?_⟩
    rcases Condition.rhs_ofChain c with hrhs | hrhs
    · exact hgiven _ hrhs
    · rw [hrhs]
      rintro name ⟨rfl, hliteral⟩
      exact absurd hliteral (by decide +kernel)
  | @init pos d c cond step body hvalue =>
    have hmem : (d.name, c) ∈ Statement.assignments (.counting pos (some d) cond step body) := by
      simp [Statement.assignments, hvalue]
    exact AssignedIn.plain htokens hnames ((hs.1 _ rfl).2 _ hvalue) (hapart _ hmem)
  | @step pos init cond step body i hstep =>
    have hread : step.ReadIn tokens := hs.2.2 _ rfl
    cases step with
    | assign target value =>
      obtain ⟨c, rfl, rfl⟩ := Instruction.mem_ofValue? hstep
      have hmem : (target, c) ∈
          Statement.assignments (.counting pos init cond (some (.assign target (some c))) body) := by
        simp [Statement.assignments]
      exact AssignedIn.plain htokens hnames (hread c rfl) (hapart _ hmem)
    | compound target op operand =>
      obtain ⟨a, o, b, hin, hkind, rfl, -, -, hb, rfl⟩ := hread
      rw [List.mem_singleton.mp hstep]
      refine ⟨own_of_identifierIn htokens hnames ⟨a, hin.subset (by simp), hkind, rfl⟩, ?_⟩
      exact given_of_mem htokens hnames (hin.subset (by simp)) hb
  | jump => trivial
  | label => trivial

end Source

/-- **Both codes of a source do the same.** The source calls no function of its own and asks nothing, passes no data
types, has no names like those of temporaries, and assigns to no variable a chain that reads it behind its first
operand. Then the three-address code ends after the same printed lines and in the same way as the assembly, given
enough steps, and never ends if the assembly spends every budget. -/
theorem backends_agree (source : String) (hfunctions : ∀ s ∈ bodyNodes (analyze source).body, s.isFunction = false)
    (hcalls : ∀ s ∈ bodyNodes (analyze source).body, s.isUserCall = false)
    (hprompts : ∀ s ∈ bodyNodes (analyze source).body, s.isCallOf Machine.promptName = false)
    (hnames : ∀ t ∈ (analyze source).tokens, t.kind = .identifier → ThreeAddress.isTemporary t.lexeme = false)
    (hargs : ∀ s ∈ bodyNodes (analyze source).body, ∀ a ∈ s.args, a.chain?.isSome = true)
    (hapart : ∀ s ∈ bodyNodes (analyze source).body, ∀ x ∈ s.assignments, ∀ y ∈ x.2.rest, y.2.lexeme ≠ x.1)
    (replies : List (Option String)) :
    (∀ printed result, (∃ fuel, ThreeAddress.run (analyze source).code.threeAddress fuel = some (printed, result)) ↔
      ∃ enough, ∀ budget ≥ enough, (Machine.run (analyze source).code.assembly budget).replay replies =
        ⟨printed.map .print, result, replies⟩) ∧
    ((∀ fuel, ThreeAddress.run (analyze source).code.threeAddress fuel = none) ↔
      ∀ budget, ((Machine.run (analyze source).code.assembly budget).replay replies).result =
        .error (.stepBudgetExceeded budget)) := by
  have hstructured := isStructured_of_mem hfunctions hcalls
  obtain ⟨hresolved, hunresolved, hplaced, hleaves⟩ := Analysis.placed_loaded hstructured
  have hplain : ∀ i ∈ lower (analyze source).symbols (analyze source).body, i.Plain := by
    intro i hi
    obtain ⟨s, hs, hyields⟩ := exists_yields_of_mem_lower hi
    have hread := readIn_of_mem_parse (tokenize source) hs
    exact plain_of_yields (scanned_tokenize source) hnames hread (hstructured s hs) (hprompts s hs) (hargs s hs)
      (hapart s hs) hyields
  have honce : ∀ l, (lower (analyze source).symbols (analyze source).body).count (.label l) ≤ 1 := by
    intro l
    refine ((fresh_body (analyze source).symbols none (analyze source).body 0).2 l).trans ?_
    split_ifs <;> omega
  have hinstalled : Installed (analyze source).loaded (lower (analyze source).symbols (analyze source).body) :=
    ⟨hplaced, hresolved, hleaves, hplain, honce, closed_body (analyze source).symbols none (analyze source).body 0⟩
  unfold Machine.run
  rw [ofText_analyze]
  exact iff_of_bothEnd_or_neitherEnds (hinstalled.bothEnd_or_neitherEnds hunresolved replies)

def countUp : String :=
  "nmb x =. 0; wish (x <. 3) \x7b x =. x +. 1 *. 2; printO(x, x -. 1); \x7d printO(7 /. 0);"

theorem backends_agree_on_countUp :
    ∃ enough, ∀ budget ≥ enough, (Machine.run (analyze countUp).code.assembly budget).replay [] =
      ⟨[.print "2 1", .print "6 5"], .error .divisionByZero, []⟩ := by
  have hagree := backends_agree countUp (by decide +kernel) (by decide +kernel) (by decide +kernel) (by decide +kernel)
    (by decide +kernel) (by decide +kernel) []
  exact (hagree.1 ["2 1", "6 5"] _).mp ⟨40, by decide +kernel⟩

end Dotlang
