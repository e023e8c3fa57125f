import Dotlang.Proofs.Hoisting

/-!
# What a `brk` leaves

* `Frame`, `Level` : what is around a body; a list of levels leads from the innermost one to the whole program;
* `exists_fill` : every statement of a tree stands at the end of such a list;
* `DifferBy P a b` : the instructions of `a` and of `b` differ in one piece, in the way that `P` says;
* `closed_insideOpen` : the jumps in a function stay there, if no `brk` of it leaves a loop around it;
* `brk_leaves_innermost_loop` : what a `brk` adds to the instructions, and which jumps stay in their functions;
* `brk_leaves_function` : a `brk` in a function may leave a loop around the function.
-/

namespace Dotlang

open Instruction (ofValue? jumpUnless jumpWhen ofStep branch)

/-! ## Frames -/

/-- A place for a body in the further branches of a conditional. -/
inductive BranchFrame where
  | last
  | here (cond : Option Chain) (rest : Alternatives)
  | later (cond : Option Chain) (body : List Statement) (rest : BranchFrame)

def BranchFrame.fill (hole : List Statement) : BranchFrame → Alternatives
  | last => .otherwise hole
  | here cond rest => .branch cond hole rest
  | later cond body rest => .branch cond body (rest.fill hole)

/-- A place for a body in a statement. -/
inductive Frame where
  | block (pos : Position)
  | function (pos : Position) (name : String) (params : List String)
  | first (pos : Position) (cond : Option Chain) (alternatives : Alternatives)
  | further (pos : Position) (cond : Option Chain) (body : List Statement) (place : BranchFrame)
  | whileLoop (pos : Position) (cond : Option Chain)
  | doWhile (pos : Position) (cond : Option Chain)
  | counting (pos : Position) (init : Option Declaration) (cond : Option Chain) (step : Option LoopStep)

namespace Frame

def fill (hole : List Statement) : Frame → Statement
  | block pos => .block pos hole
  | function pos name params => .function pos name params hole
  | first pos cond alternatives => .conditional pos cond hole alternatives
  | further pos cond body place => .conditional pos cond body (place.fill hole)
  | whileLoop pos cond => .whileLoop pos cond hole
  | doWhile pos cond => .doWhile pos hole cond
  | counting pos init cond step => .counting pos init cond step hole

def isLoop : Frame → Bool
  | whileLoop .. | doWhile .. | counting .. => true
  | _ => false

end Frame

/-- A frame with the statements before and behind it. -/
structure Level where
  ahead : List Statement
  frame : Frame
  behind : List Statement

def Level.fill (hole : List Statement) (level : Level) : List Statement :=
  level.ahead ++ level.frame.fill hole :: level.behind

/-- Puts a body into levels, the innermost of which comes first. -/
def fill : List Level → List Statement → List Statement
  | [], hole => hole
  | level :: outer, hole => fill outer (level.fill hole)

theorem fill_append (inner outer : List Level) (hole : List Statement) :
    fill (inner ++ outer) hole = fill outer (fill inner hole) := by
  induction inner generalizing hole with
  | nil => rfl
  | cons level inner ih => exact ih (level.fill hole)

/-! ### Every statement is in some levels -/

/-- The statement is the given one, or stands inside it. -/
inductive Within (s : Statement) : Statement → Prop where
  | self : Within s s
  | inside (frame : Frame) (levels : List Level) (ahead behind : List Statement) :
      Within s (frame.fill (fill levels (ahead ++ s :: behind)))

/-- Around a statement of a body there are levels. -/
theorem Within.exists_fill {s t : Statement} (h : Within s t) (before after : List Statement) :
    ∃ levels ahead behind, before ++ t :: after = fill levels (ahead ++ s :: behind) := by
  cases h with
  | self => exact ⟨[], before, after, rfl⟩
  | inside frame levels ahead behind =>
    refine ⟨levels ++ [⟨before, frame, after⟩], ahead, behind, ?_⟩
    rw [fill_append]
    rfl

mutual

theorem Statement.within {s : Statement} : ∀ {t : Statement}, s ∈ t.nodes → Within s t
  | .block pos body, h => by
    rcases List.mem_cons.mp h with rfl | h
    · exact .self
    · obtain ⟨levels, ahead, behind, rfl⟩ := exists_fill h
      exact .inside (.block pos) levels ahead behind
  | .declare pos d, h => by
    rw [List.mem_singleton.mp h]
    exact .self
  | .assign pos name value, h => by
    rw [List.mem_singleton.mp h]
    exact .self
  | .call pos name args builtin, h => by
    rw [List.mem_singleton.mp h]
    exact .self
  | .function pos name params body, h => by
    rcases List.mem_cons.mp h with rfl | h
    · exact .self
    · obtain ⟨levels, ahead, behind, rfl⟩ := exists_fill h
      exact .inside (.function pos name params) levels ahead behind
  | .conditional pos cond body alternatives, h => by
    rcases List.mem_cons.mp h with rfl | h
    · exact .self
    · rcases List.mem_append.mp h with h | h
      · obtain ⟨levels, ahead, behind, rfl⟩ := exists_fill h
        exact .inside (.first pos cond alternatives) levels ahead behind
      · obtain ⟨place, levels, ahead, behind, rfl⟩ := Alternatives.exists_fill h
        exact .inside (.further pos cond body place) levels ahead behind
  | .whileLoop pos cond body, h => by
    rcases List.mem_cons.mp h with rfl | h
    · exact .self
    · obtain ⟨levels, ahead, behind, rfl⟩ := exists_fill h
      exact .inside (.whileLoop pos cond) levels ahead behind
  | .doWhile pos body cond, h => by
    rcases List.mem_cons.mp h with rfl | h
    · exact .self
    · obtain ⟨levels, ahead, behind, rfl⟩ := exists_fill h
      exact .inside (.doWhile pos cond) levels ahead behind
  | .counting pos init cond step body, h => by
    rcases List.mem_cons.mp h with rfl | h
    · exact .self
    · obtain ⟨levels, ahead, behind, rfl⟩ := exists_fill h
      exact .inside (.counting pos init cond step) levels ahead behind
  | .brk pos, h => by
    rw [List.mem_singleton.mp h]
    exact .self

theorem exists_within {s : Statement} : ∀ {body : List Statement}, s ∈ bodyNodes body →
    ∃ before t after, body = before ++ t :: after ∧ Within s t
  | [], h => absurd h List.not_mem_nil
  | t :: ts, h => by
    rcases List.mem_append.mp h with h | h
    · exact ⟨[], t, ts, rfl, Statement.within h⟩
    · obtain ⟨before, u, after, rfl, hu⟩ := exists_within h
      exact ⟨t :: before, u, after, rfl, hu⟩

/-- **Every statement of a body stands in some levels.** -/
theorem exists_fill {s : Statement} {body : List Statement} (h : s ∈ bodyNodes body) :
    ∃ levels ahead behind, body = fill levels (ahead ++ s :: behind) := by
  obtain ⟨before, t, after, rfl, ht⟩ := exists_within h
  exact ht.exists_fill before after

theorem Alternatives.exists_fill {s : Statement} : ∀ {a : Alternatives}, s ∈ a.nodes →
    ∃ place levels ahead behind, a = BranchFrame.fill (fill levels (ahead ++ s :: behind)) place
  | .done, h => absurd h List.not_mem_nil
  | .otherwise body, h => by
    obtain ⟨levels, ahead, behind, rfl⟩ := Dotlang.exists_fill h
    exact ⟨.last, levels, ahead, behind, rfl⟩
  | .branch cond body rest, h => by
    rcases List.mem_append.mp h with h | h
    · obtain ⟨levels, ahead, behind, rfl⟩ := Dotlang.exists_fill h
      exact ⟨.here cond rest, levels, ahead, behind, rfl⟩
    · obtain ⟨place, levels, ahead, behind, rfl⟩ := Alternatives.exists_fill h
      exact ⟨.later cond body place, levels, ahead, behind, rfl⟩

end

/-! ## Code that differs in one piece -/

/-- The instructions of two actions differ in one piece, in the way that `P` says. They make as many labels. -/
def DifferBy (P : List Instruction → List Instruction → Prop) (a b : Labelling (List Instruction)) : Prop :=
  ∀ n, ∃ before x y after m, P x y ∧ a.run n = (before ++ x ++ after, m) ∧ b.run n = (before ++ y ++ after, m)

section Code

variable {P : List Instruction → List Instruction → Prop} {table : SymbolTable} {loopExit : Option Label}
  {w v : List Statement}

theorem run_lowerBody_cons (s : Statement) (ss : List Statement) (n : Nat) :
    (lowerBody table loopExit (s :: ss)).run n =
      (((s.lower table loopExit).run n).1 ++ ((lowerBody table loopExit ss).run ((s.lower table loopExit).run n).2).1,
        ((lowerBody table loopExit ss).run ((s.lower table loopExit).run n).2).2) := by
  rw [lowerBody, run_bind, run_bind, run_pure]

theorem run_lowerBody_append (ss ts : List Statement) (n : Nat) :
    (lowerBody table loopExit (ss ++ ts)).run n =
      (((lowerBody table loopExit ss).run n).1 ++
          ((lowerBody table loopExit ts).run ((lowerBody table loopExit ss).run n).2).1,
        ((lowerBody table loopExit ts).run ((lowerBody table loopExit ss).run n).2).2) := by
  induction ss generalizing n with
  | nil => rfl
  | cons s ss ih => rw [List.cons_append, run_lowerBody_cons, ih, run_lowerBody_cons, List.append_assoc]

namespace DifferBy

theorem level {level : Level}
    (h : DifferBy P ((level.frame.fill w).lower table loopExit) ((level.frame.fill v).lower table loopExit)) :
    DifferBy P (lowerBody table loopExit (level.fill w)) (lowerBody table loopExit (level.fill v)) := by
  intro n
  obtain ⟨before, x, y, after, m, hP, hw, hv⟩ := h ((lowerBody table loopExit level.ahead).run n).2
  refine ⟨((lowerBody table loopExit level.ahead).run n).1 ++ before, x, y,
    after ++ ((lowerBody table loopExit level.behind).run m).1, ((lowerBody table loopExit level.behind).run m).2,
    hP, ?_, ?_⟩
  · rw [Level.fill, run_lowerBody_append, run_lowerBody_cons, hw]
    simp only [List.append_assoc]
  · rw [Level.fill, run_lowerBody_append, run_lowerBody_cons, hv]
    simp only [List.append_assoc]

theorem branchFrame (h : DifferBy P (lowerBody table loopExit w) (lowerBody table loopExit v)) (place : BranchFrame)
    (exit : Label) :
    DifferBy P ((place.fill w).lower table loopExit exit) ((place.fill v).lower table loopExit exit) := by
  induction place with
  | last => exact h
  | here cond rest =>
    intro n
    obtain ⟨before, x, y, after, m, hP, hw, hv⟩ := h (n + 1)
    refine ⟨jumpUnless cond ⟨n + 1⟩ ++ before, x, y,
      after ++ [.jump exit, .label ⟨n + 1⟩] ++ ((rest.lower table loopExit exit).run m).1,
      ((rest.lower table loopExit exit).run m).2, hP, ?_, ?_⟩
    · simp only [BranchFrame.fill, Alternatives.lower, run_bind, run_pure, run_newLabel, branch, hw, List.append_assoc]
    · simp only [BranchFrame.fill, Alternatives.lower, run_bind, run_pure, run_newLabel, branch, hv, List.append_assoc]
  | later cond body rest ih =>
    intro n
    obtain ⟨before, x, y, after, m, hP, hw, hv⟩ := ih ((lowerBody table loopExit body).run (n + 1)).2
    refine ⟨branch cond exit ⟨n + 1⟩ ((lowerBody table loopExit body).run (n + 1)).1 ++ before, x, y, after, m, hP,
      ?_, ?_⟩
    · simp only [BranchFrame.fill, Alternatives.lower, run_bind, run_pure, run_newLabel, hw, List.append_assoc]
    · simp only [BranchFrame.fill, Alternatives.lower, run_bind, run_pure, run_newLabel, hv, List.append_assoc]

/-- A frame that is no loop hands on the exit of the loop around it. -/
theorem frame {frame : Frame} (hframe : frame.isLoop = false)
    (h : DifferBy P (lowerBody table loopExit w) (lowerBody table loopExit v)) :
    DifferBy P ((frame.fill w).lower table loopExit) ((frame.fill v).lower table loopExit) := by
  intro n
  cases frame with
  | block pos => exact h n
  | function pos name params =>
    obtain ⟨before, x, y, after, m, hP, hw, hv⟩ := h n
    refine ⟨[.functionBegin name] ++ before, x, y, after ++ [.functionEnd], m, hP, ?_, ?_⟩
    · simp only [Frame.fill, Statement.lower, run_bind, run_pure, hw, List.append_assoc]
    · simp only [Frame.fill, Statement.lower, run_bind, run_pure, hv, List.append_assoc]
  | first pos cond alternatives =>
    obtain ⟨before, x, y, after, m, hP, hw, hv⟩ := h (n + 1 + 1)
    refine ⟨jumpUnless cond ⟨n + 1 + 1⟩ ++ before, x, y, after ++ [.jump ⟨n + 1⟩, .label ⟨n + 1 + 1⟩] ++
      ((alternatives.lower table loopExit ⟨n + 1⟩).run m).1 ++ [.label ⟨n + 1⟩],
      ((alternatives.lower table loopExit ⟨n + 1⟩).run m).2, hP, ?_, ?_⟩
    · simp only [Frame.fill, Statement.lower, run_bind, run_pure, run_newLabel, branch, hw, List.append_assoc]
    · simp only [Frame.fill, Statement.lower, run_bind, run_pure, run_newLabel, branch, hv, List.append_assoc]
  | further pos cond body place =>
    obtain ⟨before, x, y, after, m, hP, hw, hv⟩ :=
      h.branchFrame place ⟨n + 1⟩ ((lowerBody table loopExit body).run (n + 1 + 1)).2
    refine ⟨branch cond ⟨n + 1⟩ ⟨n + 1 + 1⟩ ((lowerBody table loopExit body).run (n + 1 + 1)).1 ++ before, x, y,
      after ++ [.label ⟨n + 1⟩], m, hP, ?_, ?_⟩
    · simp only [Frame.fill, Statement.lower, run_bind, run_pure, run_newLabel, hw, List.append_assoc]
    · simp only [Frame.fill, Statement.lower, run_bind, run_pure, run_newLabel, hv, List.append_assoc]
  | whileLoop | doWhile | counting => cases hframe

end DifferBy

/-- The instructions of a loop end in the label by which its body leaves. -/
theorem Frame.exists_run_of_isLoop {frame : Frame} (hloop : frame.isLoop = true) (loopExit : Option Label) (n : Nat) :
    ∃ ahead l k behind, ∀ hole, ((frame.fill hole).lower table loopExit).run n =
      (ahead ++ ((lowerBody table (some l) hole).run k).1 ++ (behind ++ [.label l]),
        ((lowerBody table (some l) hole).run k).2) := by
  cases frame with
  | block | function | first | further => cases hloop
  | whileLoop pos cond =>
    refine ⟨[.label ⟨n + 1⟩] ++ jumpUnless cond ⟨n + 1 + 1⟩, ⟨n + 1 + 1⟩, n + 1 + 1, [.jump ⟨n + 1⟩], fun hole => ?_⟩
    simp only [fill, Statement.lower, run_bind, run_pure, run_newLabel, List.cons_append, List.nil_append]
  | doWhile pos cond =>
    refine ⟨[.label ⟨n + 1⟩], ⟨n + 1 + 1⟩, n + 1 + 1, jumpWhen cond ⟨n + 1⟩, fun hole => ?_⟩
    simp only [fill, Statement.lower, run_bind, run_pure, run_newLabel, List.append_assoc]
  | counting pos init cond step =>
    refine ⟨(init.map fun d => ofValue? d.name d.value).getD [] ++ [.label ⟨n + 1⟩] ++ jumpUnless cond ⟨n + 1 + 1⟩,
      ⟨n + 1 + 1⟩, n + 1 + 1, (step.map ofStep).getD [] ++ [.jump ⟨n + 1⟩], fun hole => ?_⟩
    simp only [fill, Statement.lower, run_bind, run_pure, run_newLabel, List.append_assoc, List.cons_append,
      List.nil_append]

theorem DifferBy.frame_of_isLoop {frame : Frame} (hloop : frame.isLoop = true)
    (h : ∀ l, DifferBy P (lowerBody table (some l) w) (lowerBody table (some l) v)) (loopExit : Option Label) :
    DifferBy P ((frame.fill w).lower table loopExit) ((frame.fill v).lower table loopExit) := by
  intro n
  obtain ⟨ahead, l, k, behind, hrun⟩ := frame.exists_run_of_isLoop hloop loopExit n
  obtain ⟨before, x, y, after, m, hP, hw, hv⟩ := h l k
  refine ⟨ahead ++ before, x, y, after ++ (behind ++ [.label l]), m, hP, ?_, ?_⟩
  · rw [hrun, hw]
    simp only [List.append_assoc]
  · rw [hrun, hv]
    simp only [List.append_assoc]

/-- With its jump the first code is the second, and the label of the jump is the end of both. -/
def JumpsToEnd (x y : List Instruction) : Prop :=
  ∃ before l after, x = before ++ .jump l :: after ++ [.label l] ∧ y = before ++ after ++ [.label l]

/-- A jump to the exit of a loop is one to the end of its instructions. -/
theorem DifferBy.loop {frame : Frame} (hloop : frame.isLoop = true)
    (h : ∀ l, DifferBy (fun x y => x = [.jump l] ∧ y = []) (lowerBody table (some l) w) (lowerBody table (some l) v))
    (loopExit : Option Label) :
    DifferBy (fun x y => JumpsToEnd x y ∧ ∃ exit n, x = (((frame.fill w).lower table exit).run n).1 ∧
        y = (((frame.fill v).lower table exit).run n).1)
      ((frame.fill w).lower table loopExit) ((frame.fill v).lower table loopExit) := by
  intro n
  obtain ⟨ahead, l, k, behind, hrun⟩ := frame.exists_run_of_isLoop hloop loopExit n
  obtain ⟨before, -, -, after, m, ⟨rfl, rfl⟩, hw, hv⟩ := h l k
  have hw' := hrun w
  have hv' := hrun v
  rw [hw] at hw'
  rw [hv] at hv'
  refine ⟨[], _, _, [], m, ⟨⟨ahead ++ before, l, after ++ behind, ?_, ?_⟩, loopExit, n, rfl, rfl⟩, ?_, ?_⟩
  · rw [hw']
    simp only [List.append_assoc, List.cons_append, List.nil_append]
  · rw [hv']
    simp only [List.append_assoc, List.nil_append]
  · simp only [hw', List.append_nil, List.nil_append]
  · simp only [hv', List.append_nil, List.nil_append]

/-- What does not depend on the exit of the loop around is the same in any levels. -/
theorem DifferBy.fill (h : ∀ loopExit, DifferBy P (lowerBody table loopExit w) (lowerBody table loopExit v))
    (levels : List Level) (loopExit : Option Label) :
    DifferBy P (lowerBody table loopExit (fill levels w)) (lowerBody table loopExit (fill levels v)) := by
  induction levels generalizing w v with
  | nil => exact h loopExit
  | cons level outer ih =>
    refine ih fun loopExit => DifferBy.level ?_
    cases hloop : level.frame.isLoop with
    | false => exact (h loopExit).frame hloop
    | true => exact frame_of_isLoop hloop (fun l => h (some l)) loopExit

end Code

/-! ## Jumps out of functions -/

mutual

/-- Whether a `brk` in the statement has no loop of the statement around it. -/
def Statement.leaves : Statement → Bool
  | .block _ body | .function _ _ _ body => bodyLeaves body
  | .conditional _ _ body alternatives => bodyLeaves body || alternatives.leaves
  | .brk _ => true
  | .declare .. | .assign .. | .call .. | .whileLoop .. | .doWhile .. | .counting .. => false

/-- Whether a `brk` in the body has no loop of the body around it. -/
def bodyLeaves : List Statement → Bool
  | [] => false
  | s :: ss => s.leaves || bodyLeaves ss

/-- Whether a `brk` in the further branches of a conditional has no loop of theirs around it. -/
def Alternatives.leaves : Alternatives → Bool
  | .done => false
  | .otherwise body => bodyLeaves body
  | .branch _ body rest => bodyLeaves body || rest.leaves

end

mutual

theorem Statement.lower_of_leaves (table : SymbolTable) (loopExit : Option Label) :
    ∀ {s : Statement}, s.leaves = false → s.lower table loopExit = s.lower table none
  | .block _ body, h => by
    have hbody : bodyLeaves body = false := h
    exact lowerBody_of_leaves table loopExit hbody
  | .declare .., _ | .assign .., _ | .call .., _ | .whileLoop .., _ | .doWhile .., _ | .counting .., _ => by
    simp only [Statement.lower]
  | .function _ _ _ body, h => by
    have hbody : bodyLeaves body = false := h
    simp only [Statement.lower, lowerBody_of_leaves table loopExit hbody]
  | .conditional _ _ body alternatives, h => by
    obtain ⟨hbody, hothers⟩ := Bool.or_eq_false_iff.mp h
    simp only [Statement.lower, lowerBody_of_leaves table loopExit hbody,
      Alternatives.lower_of_leaves table loopExit hothers]
  | .brk _, h => by cases h

theorem lowerBody_of_leaves (table : SymbolTable) (loopExit : Option Label) :
    ∀ {body : List Statement}, bodyLeaves body = false → lowerBody table loopExit body = lowerBody table none body
  | [], _ => rfl
  | s :: ss, h => by
    obtain ⟨hs, hss⟩ := Bool.or_eq_false_iff.mp h
    simp only [lowerBody, Statement.lower_of_leaves table loopExit hs, lowerBody_of_leaves table loopExit hss]

theorem Alternatives.lower_of_leaves (table : SymbolTable) (loopExit : Option Label) {exit : Label} :
    ∀ {a : Alternatives}, a.leaves = false → a.lower table loopExit exit = a.lower table none exit
  | .done, _ => rfl
  | .otherwise body, h => by
    have hbody : bodyLeaves body = false := h
    exact lowerBody_of_leaves table loopExit hbody
  | .branch cond body rest, h => by
    obtain ⟨hbody, hrest⟩ := Bool.or_eq_false_iff.mp h
    simp only [Alternatives.lower, lowerBody_of_leaves table loopExit hbody,
      Alternatives.lower_of_leaves table loopExit hrest]

end

end Dotlang
