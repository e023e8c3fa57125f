import Dotlang.Proofs.Handover
import Dotlang.Proofs.Reading

/-!
# How a program without functions is laid out

* `assemble_eq` : without functions, the assembly is the lines of the instructions one after the other;
* `Fresh m is n` : the labels in `is` are numbered from `m` to `n`, none of them twice;
* `numbered_body` : the labels of a body are the next ones, each of them once;
* `Closed exits is` : the jumps in `is` go to labels in `is` or to one of `exits`;
* `lineOf?_linesOf` : in the lines of such instructions every label names the one line that it stands on;
* `unresolved?_linesOf` : and every jump has a line to go to.
-/

namespace Dotlang

namespace Assembly

theorem linesOf_append (is js : List Instruction) (n : Nat) :
    (linesOf (is ++ js)).run n =
      (((linesOf is).run n).1 ++ ((linesOf js).run ((linesOf is).run n).2).1,
        ((linesOf js).run ((linesOf is).run n).2).2) := by
  induction is generalizing n with
  | nil => rfl
  | cons i is ih =>
    rw [List.cons_append, linesOf, run_bind, run_bind, run_pure, ih, linesOf, run_bind, run_bind, run_pure,
      List.append_assoc]

/-- Without functions there is one buffer only. -/
theorem assemble_eq {is : List Instruction}
    (h : ∀ i ∈ is, (∀ name, i ≠ .functionBegin name) ∧ i ≠ .functionEnd) :
    assemble is = ((linesOf is).run 0).1 := by
  have hemit : ∀ i, (∀ name, i ≠ .functionBegin name) ∧ i ≠ .functionEnd → ∀ main n,
      (Emitter.mk main [] [] n).emit i = ⟨main ++ ((lines i).run n).1, [], [], ((lines i).run n).2⟩ := by
    intro i hi main n
    cases i with
    | functionBegin name => exact absurd rfl (hi.1 name)
    | functionEnd => exact absurd rfl hi.2
    | _ => rfl
  have hfold : ∀ main n, is.foldl Emitter.emit ⟨main, [], [], n⟩ =
      ⟨main ++ ((linesOf is).run n).1, [], [], ((linesOf is).run n).2⟩ := by
    induction is with
    | nil => exact fun main n => by rw [List.foldl_nil, linesOf, run_pure, List.append_nil]
    | cons i is ih =>
      intro main n
      obtain ⟨hi, his⟩ := List.forall_mem_cons.mp h
      rw [List.foldl_cons, hemit i hi, ih his, List.append_assoc]
      rfl
  rw [assemble, Emitter.emitAll, Emitter.empty, hfold]
  rfl

end Assembly

/-! ## Labels -/

open Instruction (ofValue? jumpUnless jumpWhen ofStep branch)

/-- The labels in the instructions are numbered from `m` to `n`, and none of them occurs twice. -/
def Fresh (m : Nat) (is : List Instruction) (n : Nat) : Prop :=
  m ≤ n ∧ ∀ l : Label, is.count (.label l) ≤ if m < l.index ∧ l.index ≤ n then 1 else 0

theorem count_label_eq_zero {is : List Instruction} (h : ∀ i ∈ is, ∀ l, i ≠ .label l) (l : Label) :
    is.count (.label l) = 0 := List.count_eq_zero.mpr fun hmem => h _ hmem l rfl

theorem count_label_ofValue? (target : String) (value : Option Chain) (l : Label) :
    (ofValue? target value).count (.label l) = 0 := by
  refine count_label_eq_zero (fun i hi l => ?_) l
  obtain ⟨c, -, rfl⟩ := Instruction.mem_ofValue? hi
  exact Instruction.noConfusion

theorem count_label_jumpUnless (cond : Option Chain) (label l : Label) :
    (jumpUnless cond label).count (.label l) = 0 := by
  refine count_label_eq_zero (fun i hi l => ?_) l
  obtain ⟨c, -, jump, rfl⟩ := Instruction.mem_jumpUnless hi
  exact Instruction.noConfusion

theorem count_label_jumpWhen (cond : Option Chain) (label l : Label) :
    (jumpWhen cond label).count (.label l) = 0 := by
  refine count_label_eq_zero (fun i hi l => ?_) l
  obtain ⟨c, -, jump, rfl⟩ := Instruction.mem_jumpWhen hi
  exact Instruction.noConfusion

theorem count_label_ofStep (step : Option LoopStep) (l : Label) :
    ((step.map ofStep).getD []).count (.label l) = 0 := by
  cases step with
  | none => rfl
  | some step =>
    cases step with
    | assign target value => exact count_label_ofValue? target value l
    | compound => simp [ofStep]

theorem count_label_init (init : Option Declaration) (l : Label) :
    ((init.map fun d => ofValue? d.name d.value).getD []).count (.label l) = 0 := by
  cases init with
  | none => rfl
  | some d => exact count_label_ofValue? d.name d.value l

/-- The labels in the instructions are the ones behind `m` up to `n`, each of them once. -/
def Numbered (m : Nat) (is : List Instruction) (n : Nat) : Prop :=
  m ≤ n ∧ ∀ l : Label, is.count (.label l) = if m < l.index ∧ l.index ≤ n then 1 else 0

theorem numbered_nil (n : Nat) : Numbered n [] n := ⟨Nat.le_refl n, fun l => by simp⟩

theorem Numbered.append {is js : List Instruction} {m n k : Nat} (hi : Numbered m is n) (hj : Numbered n js k) :
    Numbered m (is ++ js) k := by
  refine ⟨hi.1.trans hj.1, fun l => ?_⟩
  have hil := hi.2 l
  have hjl := hj.2 l
  have := hi.1
  have := hj.1
  rw [List.count_append]
  split_ifs at hil hjl ⊢ <;> omega

/-- Instructions without labels of their own. -/
theorem numbered_of_count {is : List Instruction} (h : ∀ l, is.count (.label l) = 0) (n : Nat) : Numbered n is n :=
  ⟨Nat.le_refl n, fun l => by simp [h l]⟩

theorem Numbered.fresh {is : List Instruction} {m n : Nat} (h : Numbered m is n) : Fresh m is n :=
  ⟨h.1, fun l => (h.2 l).le⟩

theorem count_label_cons (l l' : Label) (is : List Instruction) :
    (Instruction.label l' :: is).count (.label l) = is.count (.label l) + if l'.index = l.index then 1 else 0 := by
  have hindex : l' = l ↔ l'.index = l.index := by
    cases l
    cases l'
    simp
  rw [List.count_cons]
  simp [hindex]

theorem count_jump_cons (l l' : Label) (is : List Instruction) :
    (Instruction.jump l' :: is).count (.label l) = is.count (.label l) := by
  rw [List.count_cons]
  simp

mutual

theorem Statement.numbered (table : SymbolTable) (loopExit : Option Label) :
    ∀ (s : Statement) (n : Nat), Numbered n ((s.lower table loopExit).run n).1 ((s.lower table loopExit).run n).2
  | .block _ body, n => numbered_body table loopExit body n
  | .declare _ d, n => numbered_of_count (count_label_ofValue? _ _) n
  | .assign _ name value, n => numbered_of_count (count_label_ofValue? _ _) n
  | .call _ name args builtin, n => numbered_of_count (fun l => List.count_singleton ..) n
  | .function _ name _ body, n => by
    simp only [Statement.lower, run_bind, run_pure]
    have hbegin : Numbered n [.functionBegin name] n := numbered_of_count (fun l => by simp) n
    exact (hbegin.append (numbered_body table loopExit body n)).append (numbered_of_count (fun l => by simp) _)
  | .conditional _ cond body alternatives, n => by
    simp only [Statement.lower, run_bind, run_pure, run_newLabel, branch]
    obtain ⟨hle, hbody⟩ := numbered_body table loopExit body (n + 1 + 1)
    obtain ⟨hle', hothers⟩ := Alternatives.numbered table loopExit ⟨n + 1⟩ alternatives
      ((lowerBody table loopExit body).run (n + 1 + 1)).2
    refine ⟨by omega, fun l => ?_⟩
    have hbody := hbody l
    have hothers := hothers l
    simp only [List.count_append, List.count_nil, count_label_cons, count_jump_cons, count_label_jumpUnless]
    split_ifs at * <;> omega
  | .whileLoop _ cond body, n => by
    simp only [Statement.lower, run_bind, run_pure, run_newLabel]
    obtain ⟨hle, hbody⟩ := numbered_body table (some ⟨n + 1 + 1⟩) body (n + 1 + 1)
    refine ⟨by omega, fun l => ?_⟩
    have hbody := hbody l
    simp only [List.count_append, List.count_nil, count_label_cons, count_jump_cons, count_label_jumpUnless]
    split_ifs at * <;> omega
  | .doWhile _ body cond, n => by
    simp only [Statement.lower, run_bind, run_pure, run_newLabel]
    obtain ⟨hle, hbody⟩ := numbered_body table (some ⟨n + 1 + 1⟩) body (n + 1 + 1)
    refine ⟨by omega, fun l => ?_⟩
    have hbody := hbody l
    simp only [List.count_append, List.count_nil, count_label_cons, count_label_jumpWhen]
    split_ifs at * <;> omega
  | .counting _ init cond step body, n => by
    simp only [Statement.lower, run_bind, run_pure, run_newLabel]
    obtain ⟨hle, hbody⟩ := numbered_body table (some ⟨n + 1 + 1⟩) body (n + 1 + 1)
    refine ⟨by omega, fun l => ?_⟩
    have hbody := hbody l
    simp only [List.count_append, List.count_nil, count_label_cons, count_jump_cons, count_label_jumpUnless,
      count_label_init, count_label_ofStep]
    split_ifs at * <;> omega
  | .brk _, n => by
    cases loopExit with
    | none => exact numbered_nil n
    | some label => exact numbered_of_count (fun l => count_jump_cons l label []) n

/-- **A body gets the next numbers for its labels, and uses each of them once.** -/
theorem numbered_body (table : SymbolTable) (loopExit : Option Label) :
    ∀ (body : List Statement) (n : Nat),
      Numbered n ((lowerBody table loopExit body).run n).1 ((lowerBody table loopExit body).run n).2
  | [], n => numbered_nil n
  | s :: ss, n => by
    simp only [lowerBody, run_bind, run_pure]
    exact (s.numbered table loopExit n).append (numbered_body table loopExit ss _)

theorem Alternatives.numbered (table : SymbolTable) (loopExit : Option Label) (exit : Label) :
    ∀ (a : Alternatives) (n : Nat),
      Numbered n ((a.lower table loopExit exit).run n).1 ((a.lower table loopExit exit).run n).2
  | .done, n => numbered_nil n
  | .otherwise body, n => numbered_body table loopExit body n
  | .branch cond body rest, n => by
    simp only [Alternatives.lower, run_bind, run_pure, run_newLabel, branch]
    obtain ⟨hle, hbody⟩ := numbered_body table loopExit body (n + 1)
    obtain ⟨hle', hrest⟩ := Alternatives.numbered table loopExit exit rest
      ((lowerBody table loopExit body).run (n + 1)).2
    refine ⟨by omega, fun l => ?_⟩
    have hbody := hbody l
    have hrest := hrest l
    simp only [List.count_append, List.count_nil, count_label_cons, count_jump_cons, count_label_jumpUnless]
    split_ifs at * <;> omega

end

theorem fresh_body (table : SymbolTable) (loopExit : Option Label) (body : List Statement) (n : Nat) :
    Fresh n ((lowerBody table loopExit body).run n).1 ((lowerBody table loopExit body).run n).2 :=
  (numbered_body table loopExit body n).fresh

/-! ## Jumps -/

/-- The label that an instruction jumps to. -/
def Instruction.target? : Instruction → Option Label
  | .jump l | .compare _ _ l => some l
  | _ => none

/-- Every jump goes to one of the exits or to a label among the instructions. -/
def Closed (exits : List Label) (is : List Instruction) : Prop :=
  ∀ i ∈ is, ∀ l, i.target? = some l → l ∈ exits ∨ .label l ∈ is

namespace Closed

variable {exits : List Label} {is js : List Instruction}

theorem of_target? (h : ∀ i ∈ is, ∀ l, i.target? = some l → l ∈ exits) : Closed exits is :=
  fun i hi l hl => Or.inl (h i hi l hl)

theorem append (hi : Closed exits is) (hj : Closed exits js) : Closed exits (is ++ js) := by
  intro i hmem l hl
  rcases List.mem_append.mp hmem with hmem | hmem
  · exact (hi i hmem l hl).imp_right (List.mem_append_left _)
  · exact (hj i hmem l hl).imp_right (List.mem_append_right _)

theorem mono {more : List Label} (h : Closed exits is) (hsub : ∀ l ∈ exits, l ∈ more) : Closed more is :=
  fun i hi l hl => (h i hi l hl).imp_left (hsub l)

/-- An exit whose label is among the instructions is none. -/
theorem discharge {l : Label} (h : Closed (l :: exits) is) (hl : .label l ∈ is) : Closed exits is := by
  intro i hi l' hl'
  rcases h i hi l' hl' with hmem | hmem
  · rcases List.mem_cons.mp hmem with rfl | hmem
    · exact Or.inr hl
    · exact Or.inl hmem
  · exact Or.inr hmem

theorem ofValue? (target : String) (value : Option Chain) : Closed exits (Instruction.ofValue? target value) := by
  refine of_target? fun i hi l hl => ?_
  obtain ⟨c, -, rfl⟩ := Instruction.mem_ofValue? hi
  cases hl

theorem init (init : Option Declaration) :
    Closed exits ((init.map fun d => Instruction.ofValue? d.name d.value).getD []) := by
  cases init with
  | none => exact of_target? fun i hi => absurd hi List.not_mem_nil
  | some d => exact ofValue? d.name d.value

theorem step (step : Option LoopStep) : Closed exits ((step.map Instruction.ofStep).getD []) := by
  cases step with
  | none => exact of_target? fun i hi => absurd hi List.not_mem_nil
  | some step =>
    cases step with
    | assign target value => exact ofValue? target value
    | compound => exact of_target? fun i hi l hl => by rw [List.mem_singleton.mp hi] at hl; cases hl

theorem jumpUnless {cond : Option Chain} {l : Label} (h : l ∈ exits) :
    Closed exits (Instruction.jumpUnless cond l) := by
  refine of_target? fun i hi l' hl => ?_
  obtain ⟨c, -, jump, rfl⟩ := Instruction.mem_jumpUnless hi
  cases hl
  exact h

theorem jumpWhen {cond : Option Chain} {l : Label} (h : l ∈ exits) : Closed exits (Instruction.jumpWhen cond l) := by
  refine of_target? fun i hi l' hl => ?_
  obtain ⟨c, -, jump, rfl⟩ := Instruction.mem_jumpWhen hi
  cases hl
  exact h

theorem label (l : Label) : Closed exits [.label l] :=
  of_target? fun i hi l' hl => by rw [List.mem_singleton.mp hi] at hl; cases hl

theorem jump {l : Label} (h : l ∈ exits) : Closed exits [.jump l] :=
  of_target? fun i hi l' hl => by rw [List.mem_singleton.mp hi] at hl; cases hl; exact h

end Closed

mutual

theorem Statement.closed (table : SymbolTable) :
    ∀ (loopExit : Option Label) (s : Statement) (n : Nat),
      Closed loopExit.toList ((s.lower table loopExit).run n).1
  | loopExit, .block _ body, n => closed_body table loopExit body n
  | _, .declare _ d, _ => Closed.ofValue? _ _
  | _, .assign _ name value, _ => Closed.ofValue? _ _
  | _, .call _ name args builtin, _ =>
    Closed.of_target? fun i hi l hl => by rw [List.mem_singleton.mp hi] at hl; cases hl
  | loopExit, .function _ name _ body, n => by
    simp only [Statement.lower, run_bind, run_pure]
    refine Closed.append (Closed.append ?_ (closed_body table loopExit body n)) ?_
    · exact Closed.of_target? fun i hi l hl => by rw [List.mem_singleton.mp hi] at hl; cases hl
    · exact Closed.of_target? fun i hi l hl => by rw [List.mem_singleton.mp hi] at hl; cases hl
  | loopExit, .conditional _ cond body alternatives, n => by
    simp only [Statement.lower, run_bind, run_pure, run_newLabel, branch]
    have hbody := closed_body table loopExit body (n + 1 + 1)
    have hothers := Alternatives.closed table loopExit ⟨n + 1⟩ alternatives
      ((lowerBody table loopExit body).run (n + 1 + 1)).2
    refine Closed.discharge (l := ⟨n + 1⟩) (Closed.discharge (l := ⟨n + 1 + 1⟩) ?_ (by simp)) (by simp)
    refine Closed.append (Closed.append (Closed.append (Closed.append ?_ ?_) ?_) ?_) (Closed.label _)
    · exact Closed.jumpUnless List.mem_cons_self
    · exact hbody.mono fun l hl => List.mem_cons_of_mem _ (List.mem_cons_of_mem _ hl)
    · exact Closed.append (Closed.jump (List.mem_cons_of_mem _ List.mem_cons_self)) (Closed.label _)
    · exact hothers.mono fun l hl => List.mem_cons_of_mem _ hl
  | loopExit, .whileLoop _ cond body, n => by
    simp only [Statement.lower, run_bind, run_pure, run_newLabel]
    have hbody := closed_body table (some ⟨n + 1 + 1⟩) body (n + 1 + 1)
    refine Closed.discharge (l := ⟨n + 1⟩) (Closed.discharge (l := ⟨n + 1 + 1⟩) ?_ (by simp)) (by simp)
    refine Closed.append (Closed.append (Closed.append (Closed.label _) ?_) ?_) ?_
    · exact Closed.jumpUnless List.mem_cons_self
    · exact hbody.mono fun l hl => by rw [List.mem_singleton.mp hl]; exact List.mem_cons_self
    · exact Closed.append (Closed.jump (List.mem_cons_of_mem _ List.mem_cons_self)) (Closed.label _)
  | loopExit, .doWhile _ body cond, n => by
    simp only [Statement.lower, run_bind, run_pure, run_newLabel]
    have hbody := closed_body table (some ⟨n + 1 + 1⟩) body (n + 1 + 1)
    refine Closed.discharge (l := ⟨n + 1⟩) (Closed.discharge (l := ⟨n + 1 + 1⟩) ?_ (by simp)) (by simp)
    refine Closed.append (Closed.append (Closed.append (Closed.label _) ?_) ?_) (Closed.label _)
    · exact hbody.mono fun l hl => by rw [List.mem_singleton.mp hl]; exact List.mem_cons_self
    · exact Closed.jumpWhen (List.mem_cons_of_mem _ List.mem_cons_self)
  | loopExit, .counting _ init cond step body, n => by
    simp only [Statement.lower, run_bind, run_pure, run_newLabel]
    have hbody := closed_body table (some ⟨n + 1 + 1⟩) body (n + 1 + 1)
    refine Closed.discharge (l := ⟨n + 1⟩) (Closed.discharge (l := ⟨n + 1 + 1⟩) ?_ (by simp)) (by simp)
    refine Closed.append (Closed.append (Closed.append (Closed.append (Closed.append (Closed.init init)
      (Closed.label _)) ?_) ?_) (Closed.step step)) ?_
    · exact Closed.jumpUnless List.mem_cons_self
    · exact hbody.mono fun l hl => by rw [List.mem_singleton.mp hl]; exact List.mem_cons_self
    · exact Closed.append (Closed.jump (List.mem_cons_of_mem _ List.mem_cons_self)) (Closed.label _)
  | none, .brk _, _ => Closed.of_target? fun i hi => absurd hi List.not_mem_nil
  | some label, .brk _, _ => Closed.jump List.mem_cons_self

theorem closed_body (table : SymbolTable) :
    ∀ (loopExit : Option Label) (body : List Statement) (n : Nat),
      Closed loopExit.toList ((lowerBody table loopExit body).run n).1
  | _, [], _ => Closed.of_target? fun i hi => absurd hi List.not_mem_nil
  | loopExit, s :: ss, n => by
    simp only [lowerBody, run_bind, run_pure]
    exact (s.closed table loopExit n).append (closed_body table loopExit ss _)

theorem Alternatives.closed (table : SymbolTable) :
    ∀ (loopExit : Option Label) (exit : Label) (a : Alternatives) (n : Nat),
      Closed (exit :: loopExit.toList) ((a.lower table loopExit exit).run n).1
  | _, _, .done, _ => Closed.of_target? fun i hi => absurd hi List.not_mem_nil
  | loopExit, _, .otherwise body, n =>
    (closed_body table loopExit body n).mono fun l hl => List.mem_cons_of_mem _ hl
  | loopExit, exit, .branch cond body rest, n => by
    simp only [Alternatives.lower, run_bind, run_pure, run_newLabel, branch]
    have hbody := closed_body table loopExit body (n + 1)
    have hrest := Alternatives.closed table loopExit exit rest ((lowerBody table loopExit body).run (n + 1)).2
    refine Closed.discharge (l := ⟨n + 1⟩) ?_ (by simp)
    refine Closed.append (Closed.append (Closed.append ?_ ?_) ?_) ?_
    · exact Closed.jumpUnless List.mem_cons_self
    · exact hbody.mono fun l hl => List.mem_cons_of_mem _ (List.mem_cons_of_mem _ hl)
    · exact Closed.append (Closed.jump (List.mem_cons_of_mem _ List.mem_cons_self)) (Closed.label _)
    · exact hrest.mono fun l hl => List.mem_cons_of_mem _ hl

end

/-! ## Lines -/

/-- Neither a function nor a call of one that the program declares. -/
def Statement.isStructured : Statement → Bool
  | .function .. => false
  | .call _ name _ builtin => builtin && Machine.isBuiltin name
  | _ => true

namespace Instruction

/-- Instructions whose lines all lead to the next line. -/
def isStraight : Instruction → Bool
  | .assign .. | .step .. => true
  | .call name _ none => Machine.isBuiltin name
  | _ => false

theorem isStraight_ofValue? (target : String) (value : Option Chain) :
    ∀ i ∈ ofValue? target value, i.isStraight = true := by
  intro i hi
  obtain ⟨c, -, rfl⟩ := mem_ofValue? hi
  rfl

theorem isStraight_ofStep (step : LoopStep) : ∀ i ∈ ofStep step, i.isStraight = true := by
  cases step with
  | assign target value => exact isStraight_ofValue? target value
  | compound => exact fun i hi => by rw [List.mem_singleton.mp hi]; rfl

theorem isStraight_getD_map {α : Type} {f : α → List Instruction} (h : ∀ a, ∀ i ∈ f a, i.isStraight = true)
    (o : Option α) : ∀ i ∈ (o.map f).getD [], i.isStraight = true := by
  cases o with
  | none => exact fun i hi => absurd hi List.not_mem_nil
  | some a => exact h a

end Instruction

namespace Assembly

namespace Line

/-- Lines that lead to the next line. -/
def isStraight : Line → Bool
  | move .. | arith .. => true
  | call name _ => Machine.isBuiltin name
  | _ => false

end Line

theorem isStraight_accumulate {target : String} {c : Chain} : ∀ l ∈ accumulate target c, l.isStraight = true := by
  intro l hl
  rcases List.mem_cons.mp hl with rfl | hl
  · rfl
  · obtain ⟨term, -, rfl⟩ := List.mem_map.mp hl
    rfl

/-- What holds of the lines that accumulate in scratch variables holds of the lines before an operand. -/
theorem forall_mem_operand {P : Line → Prop} (h : ∀ (n : Nat) c, ∀ l ∈ accumulate ("$t" ++ toString n) c, P l)
    (c : Chain) (n : Nat) : ∀ l ∈ ((operand c).run n).1.1, P l := by
  unfold operand
  split
  · exact fun l hl => absurd hl List.not_mem_nil
  · exact h (n + 1) c

theorem forall_mem_operands {P : Line → Prop} (h : ∀ (n : Nat) c, ∀ l ∈ accumulate ("$t" ++ toString n) c, P l)
    (args : List Argument) (n : Nat) : ∀ l ∈ ((operands args).run n).1.1, P l := by
  induction args generalizing n with
  | nil => exact fun l hl => absurd hl List.not_mem_nil
  | cons a args ih =>
    cases a with
    | type word => exact ih n
    | value c =>
      intro l hl
      exact (List.mem_append.mp hl).elim (forall_mem_operand h c n l) (ih _ l)

theorem isStraight_operand (c : Chain) (n : Nat) : ∀ l ∈ ((operand c).run n).1.1, l.isStraight = true :=
  forall_mem_operand (fun _ _ => isStraight_accumulate) c n

theorem isStraight_operands (args : List Argument) (n : Nat) :
    ∀ l ∈ ((operands args).run n).1.1, l.isStraight = true :=
  forall_mem_operands (fun _ _ => isStraight_accumulate) args n

theorem isStraight_lines {i : Instruction} (h : i.isStraight = true) (n : Nat) :
    ∀ l ∈ ((lines i).run n).1, l.isStraight = true := by
  intro l hl
  cases i with
  | assign target value => exact isStraight_accumulate l hl
  | step =>
    rw [List.mem_singleton.mp hl]
    rfl
  | call name args params =>
    cases params with
    | some params => cases h
    | none =>
      rcases List.mem_append.mp hl with hl | hl
      · exact isStraight_operands args n l hl
      · rw [List.mem_singleton.mp hl]
        exact h
  | _ => cases h

/-- The lines of an instruction of a statement without functions. -/
theorem mem_lines_of_yields {table : SymbolTable} {s : Statement} (hs : s.isStructured = true) {i : Instruction}
    (hi : s.Yields table i) {n : Nat} {l : Line} (hl : l ∈ ((lines i).run n).1) :
    l.isStraight = true ∨ (∃ left right, l = .compare left right) ∨
      (∃ label, i.target? = some label ∧ (l = .jump label.name ∨ ∃ r, l = .jumpIf r label.name)) ∨
      ∃ label, i = .label label ∧ l = .label label.name := by
  cases hi with
  | declare | assign | init => exact Or.inl (isStraight_lines rfl n l hl)
  | @call pos name args builtin =>
    obtain ⟨rfl, hname⟩ := Bool.and_eq_true_iff.mp hs
    exact Or.inl (isStraight_lines (i := .call name args none) hname n l hl)
  | functionBegin | functionEnd => cases hs
  | test hc =>
    rcases List.mem_append.mp hl with hl | hl
    · exact Or.inl (isStraight_operand _ n l hl)
    · rcases List.mem_cons.mp hl with rfl | hl
      · exact Or.inr (Or.inl ⟨_, _, rfl⟩)
      · exact Or.inr (Or.inr (Or.inl ⟨_, rfl, Or.inr ⟨_, List.mem_singleton.mp hl⟩⟩))
  | step hstep => exact Or.inl (isStraight_lines (Instruction.isStraight_ofStep _ _ hstep) n l hl)
  | jump => exact Or.inr (Or.inr (Or.inl ⟨_, rfl, Or.inl (List.mem_singleton.mp hl)⟩))
  | label => exact Or.inr (Or.inr (Or.inr ⟨_, rfl, List.mem_singleton.mp hl⟩))

theorem mem_linesOf {is : List Instruction} {n : Nat} {l : Line} (h : l ∈ ((linesOf is).run n).1) :
    ∃ i ∈ is, ∃ m, l ∈ ((lines i).run m).1 := by
  induction is generalizing n with
  | nil => exact absurd h List.not_mem_nil
  | cons i is ih =>
    rw [linesOf, run_bind, run_bind, run_pure] at h
    rcases List.mem_append.mp h with h | h
    · exact ⟨i, List.mem_cons_self, n, h⟩
    · obtain ⟨j, hj, m, hm⟩ := ih h
      exact ⟨j, List.mem_cons_of_mem _ hj, m, hm⟩

end Assembly

/-! ## Resolution -/

/-- Of the names that begin alike and end in a number, no two are the same. -/
theorem numbered_injective (stem : String) : Function.Injective fun n : Nat => stem ++ toString n := by
  intro m n h
  have hdigits : Nat.toDigits 10 m = Nat.toDigits 10 n := by
    have hlist := congrArg String.toList h
    simpa [String.toList_append, Nat.toString_eq_repr, Nat.toList_repr] using hlist
  have hvalue := congrArg (fun ds => Nat.ofDigitChars 10 ds 0) hdigits
  simpa only [Nat.ofDigitChars_ten_toDigits] using hvalue

theorem Label.name_injective : Function.Injective Label.name := by
  intro l l' h
  have hindex : l.index = l'.index := numbered_injective "L" h
  cases l
  cases l'
  exact congrArg Label.mk hindex

/-- The instructions are ones of statements without functions. -/
def Structured (table : SymbolTable) (is : List Instruction) : Prop :=
  ∀ i ∈ is, ∃ s : Statement, s.isStructured = true ∧ s.Yields table i

namespace Structured

open Assembly (Line linesOf lines)

variable {table : SymbolTable} {is : List Instruction}

theorem of_lower {body : List Statement} (h : ∀ s ∈ bodyNodes body, s.isStructured = true) :
    Structured table (lower table body) := by
  intro i hi
  obtain ⟨s, hs, hyields⟩ := exists_yields_of_mem_lower hi
  exact ⟨s, h s hs, hyields⟩

theorem assemble_eq (h : Structured table is) : Assembly.assemble is = ((linesOf is).run 0).1 := by
  refine Assembly.assemble_eq fun i hi => ?_
  obtain ⟨s, hs, hyields⟩ := h i hi
  refine ⟨fun name hname => ?_, fun hend => ?_⟩
  · subst hname
    cases hyields with
    | functionBegin => cases hs
    | @step _ _ _ step _ _ hstep => cases step <;> simp [ofStep, ofValue?] at hstep
  · subst hend
    cases hyields with
    | functionEnd => cases hs
    | @step _ _ _ step _ _ hstep => cases step <;> simp [ofStep, ofValue?] at hstep

/-- A label is the line of an instruction that is one. -/
theorem label_of_mem_lines (h : Structured table is) {i : Instruction} (hi : i ∈ is) {n : Nat} {name : String}
    (hl : .label name ∈ ((lines i).run n).1) : ∃ label, i = .label label ∧ name = label.name := by
  obtain ⟨s, hs, hyields⟩ := h i hi
  obtain hl | ⟨_, _, hl⟩ | ⟨_, -, hl | ⟨_, hl⟩⟩ | ⟨label, hi, hl⟩ :=
    Assembly.mem_lines_of_yields hs hyields hl
  case inr.inr.inr => exact ⟨label, hi, Line.label.inj hl⟩
  all_goals cases hl

theorem count_label_lines (h : Structured table is) (label : Label) {i : Instruction} (hi : i ∈ is) (n : Nat) :
    ((lines i).run n).1.count (.label label.name) = if i = .label label then 1 else 0 := by
  split_ifs with heq
  · rw [heq]
    exact List.count_singleton_self
  · refine List.count_eq_zero.mpr fun hmem => heq ?_
    obtain ⟨label', rfl, hname⟩ := h.label_of_mem_lines hi hmem
    rw [Label.name_injective hname]

theorem count_label_linesOf (h : Structured table is) (label : Label) (n : Nat) :
    ((linesOf is).run n).1.count (.label label.name) = is.count (.label label) := by
  induction is generalizing n with
  | nil => rfl
  | cons i is ih =>
    have hrest : Structured table is := fun j hj => h j (List.mem_cons_of_mem _ hj)
    rw [linesOf, run_bind, run_bind, run_pure, List.count_append, h.count_label_lines label List.mem_cons_self,
      ih hrest, List.count_cons, Nat.add_comm]
    simp

end Structured

namespace Machine

open Assembly (Line linesOf)

/-- A label goes to a line on which it stands. -/
theorem label_of_lineOf? {lines : List Line} {k : Nat} {name : String}
    (h : (Program.ofLines lines).lineOf? name = some k) : lines[k]? = some (.label name) := by
  obtain ⟨before, after, hlabels, -⟩ := List.lookup_eq_some_iff.mp h
  refine mem_labels_ofLines.mp ?_
  rw [hlabels]
  exact List.mem_append_right _ List.mem_cons_self

/-- Of a label that stands on one line only, that is the line. -/
theorem lineOf?_of_label {lines : List Line} {k : Nat} {name : String} (h : lines[k]? = some (.label name))
    (honce : lines.count (.label name) ≤ 1) : (Program.ofLines lines).lineOf? name = some k := by
  have hmem : (name, k) ∈ (Program.ofLines lines).labels := mem_labels_ofLines.mpr h
  cases hj : (Program.ofLines lines).lineOf? name with
  | none =>
    have hnone := List.lookup_eq_none_iff.mp hj _ hmem
    simp at hnone
  | some j =>
    have hline := label_of_lineOf? hj
    by_contra hne
    have htwice : List.Duplicate (.label name) lines := by
      obtain ⟨hk, hkeq⟩ := List.getElem?_eq_some_iff.mp h
      obtain ⟨hj, hjeq⟩ := List.getElem?_eq_some_iff.mp hline
      rw [List.duplicate_iff_exists_distinct_get]
      rcases Nat.lt_or_gt_of_ne (fun heq => hne (congrArg some heq)) with hlt | hlt
      · exact ⟨⟨j, hj⟩, ⟨k, hk⟩, hlt, hjeq.symm, hkeq.symm⟩
      · exact ⟨⟨k, hk⟩, ⟨j, hj⟩, hlt, hkeq.symm, hjeq.symm⟩
    have := List.duplicate_iff_two_le_count.mp htwice
    omega

end Machine

section Source

open Assembly (Line linesOf)
open Machine (Program)

variable {table : SymbolTable} {is : List Instruction} {n : Nat}

theorem lineOf?_linesOf (h : Structured table is) (hfresh : Fresh 0 is n) {k : Nat} {name : String}
    (hk : ((linesOf is).run 0).1[k]? = some (.label name)) :
    (Program.ofLines ((linesOf is).run 0).1).lineOf? name = some k := by
  refine Machine.lineOf?_of_label hk ?_
  obtain ⟨i, hi, m, hl⟩ := Assembly.mem_linesOf (List.mem_of_getElem? hk)
  obtain ⟨label, rfl, rfl⟩ := h.label_of_mem_lines hi hl
  rw [h.count_label_linesOf]
  have hcount := hfresh.2 label
  split_ifs at hcount <;> omega

theorem Assembly.Line.target?_of_isStraight {l : Line} (h : l.isStraight = true) : l.target? = none := by
  cases l <;> simp_all [Line.isStraight, Line.target?]

theorem unresolved?_linesOf (h : Structured table is) (hfresh : Fresh 0 is n) (hclosed : Closed [] is) :
    (Program.ofLines ((linesOf is).run 0).1).unresolved? = none := by
  refine List.find?_eq_none.mpr fun name hname hlost => ?_
  obtain ⟨l, hl, htarget⟩ := List.mem_filterMap.mp hname
  obtain ⟨i, hi, m, hmem⟩ := Assembly.mem_linesOf hl
  obtain ⟨s, hs, hyields⟩ := h i hi
  have hjump : ∀ label : Label, i.target? = some label →
      (Program.ofLines ((linesOf is).run 0).1).lineOf? label.name ≠ none := by
    intro label hi'
    have hlabel : .label label ∈ is := (hclosed i hi label hi').resolve_left List.not_mem_nil
    have hpos : 0 < ((linesOf is).run 0).1.count (.label label.name) := by
      rw [h.count_label_linesOf]
      exact List.count_pos_iff.mpr hlabel
    obtain ⟨k, hk⟩ := List.mem_iff_getElem?.mp (List.count_pos_iff.mp hpos)
    rw [lineOf?_linesOf h hfresh hk]
    exact Option.some_ne_none k
  obtain hstraight | ⟨left, right, rfl⟩ | ⟨label, hi', rfl | ⟨r, rfl⟩⟩ | ⟨label, -, rfl⟩ :=
    Assembly.mem_lines_of_yields hs hyields hmem
  · rw [Line.target?_of_isStraight hstraight] at htarget
    cases htarget
  · cases htarget
  · cases htarget
    exact hjump label hi' (Option.isNone_iff_eq_none.mp hlost)
  · cases htarget
    exact hjump label hi' (Option.isNone_iff_eq_none.mp hlost)
  · cases htarget

end Source

end Dotlang
