import Dotlang.Proofs.Emission

/-!
# Functions set apart

The instructions of a program are a list in which functions stand where they are declared, one inside the other. An
outline is such a list with its functions as subtrees.

* `Declared`, `bodyFunctions` : the functions that a tree declares, in the order of the source;
* `Outline` : instructions with the functions among them set apart, and `outside` the ones in no function;
* `Outlined table ds is` : the functions in the instructions `is` are those of `ds`;
* `insideOpen depth is` : the instructions that `is` has inside the function that is open;
* `outlined_body` : the functions in the instructions of a body are the ones that it declares;
* `filterMap_begun_lower` : functions begin in the instructions in the order in which they are declared.
-/

namespace Dotlang

/-! ## Declarations of functions -/

/-- A function as it is declared, and whether there is a loop around its declaration. -/
structure Declared where
  inLoop : Bool
  name : String
  params : List String
  body : List Statement

mutual

/-- The functions that a statement declares, given whether there is a loop around it. A function comes before those
declared in it. -/
def Statement.functions (inLoop : Bool) : Statement → List Declared
  | .block _ body => bodyFunctions inLoop body
  | .declare .. | .assign .. | .call .. | .brk _ => []
  | .function _ name params body => ⟨inLoop, name, params, body⟩ :: bodyFunctions inLoop body
  | .conditional _ _ body alternatives => bodyFunctions inLoop body ++ alternatives.functions inLoop
  | .whileLoop _ _ body | .doWhile _ body _ | .counting _ _ _ _ body => bodyFunctions true body

/-- The functions that a body declares. -/
def bodyFunctions (inLoop : Bool) : List Statement → List Declared
  | [] => []
  | s :: ss => s.functions inLoop ++ bodyFunctions inLoop ss

/-- The functions that the further branches of a conditional declare. -/
def Alternatives.functions (inLoop : Bool) : Alternatives → List Declared
  | .done => []
  | .otherwise body => bodyFunctions inLoop body
  | .branch _ body rest => bodyFunctions inLoop body ++ rest.functions inLoop

end

/-! ## Outlines -/

/-- The begin or the end of a function. -/
def Instruction.isMark : Instruction → Bool
  | functionBegin _ | functionEnd => true
  | _ => false

/-- The name of the function that begins. -/
def Instruction.begun? : Instruction → Option String
  | functionBegin name => some name
  | _ => none

inductive Outline where
  | done
  | plain (i : Instruction) (rest : Outline)
  | function (name : String) (body rest : Outline)

namespace Outline

def instructions : Outline → List Instruction
  | done => []
  | plain i rest => i :: rest.instructions
  | function name body rest => .functionBegin name :: body.instructions ++ .functionEnd :: rest.instructions

/-- The functions in an outline, each before those in its body. -/
def functions : Outline → List (String × Outline)
  | done => []
  | plain _ rest => rest.functions
  | function name body rest => (name, body) :: (body.functions ++ rest.functions)

/-- The instructions of an outline that are in none of its functions. -/
def outside : Outline → List Instruction
  | done => []
  | plain i rest => i :: rest.outside
  | function _ _ rest => rest.outside

/-- All functions are set apart. -/
def Proper : Outline → Prop
  | done => True
  | plain i rest => i.isMark = false ∧ rest.Proper
  | function _ body rest => body.Proper ∧ rest.Proper

def append : Outline → Outline → Outline
  | done, o => o
  | plain i rest, o => plain i (rest.append o)
  | function name body rest, o => function name body (rest.append o)

@[simp] theorem instructions_append (a b : Outline) : (a.append b).instructions = a.instructions ++ b.instructions := by
  induction a with
  | done => rfl
  | plain i rest ih => rw [append, instructions, instructions, ih, List.cons_append]
  | function name body rest _ ih => simp only [append, instructions, ih, List.cons_append, List.append_assoc]

@[simp] theorem functions_append (a b : Outline) : (a.append b).functions = a.functions ++ b.functions := by
  induction a with
  | done => rfl
  | plain i rest ih => exact ih
  | function name body rest _ ih => simp only [append, functions, ih, List.cons_append, List.append_assoc]

@[simp] theorem outside_append (a b : Outline) : (a.append b).outside = a.outside ++ b.outside := by
  induction a with
  | done => rfl
  | plain i rest ih => rw [append, outside, outside, ih, List.cons_append]
  | function name body rest _ ih => exact ih

theorem outside_subset (o : Outline) : o.outside ⊆ o.instructions := by
  induction o with
  | done => exact List.Subset.refl _
  | plain i rest ih => exact List.cons_subset_cons i ih
  | function name body rest _ ih => exact fun i hi => List.mem_append_right _ (List.mem_cons_of_mem _ (ih hi))

theorem Proper.append {a b : Outline} (ha : a.Proper) (hb : b.Proper) : (a.append b).Proper := by
  induction a with
  | done => exact hb
  | plain i rest ih => exact ⟨ha.1, ih ha.2⟩
  | function name body rest _ ih => exact ⟨ha.1, ih ha.2⟩

theorem Proper.of_mem_functions {o : Outline} (ho : o.Proper) {f : String × Outline} (hf : f ∈ o.functions) :
    f.2.Proper := by
  induction o with
  | done => cases hf
  | plain i rest ih => exact ih ho.2 hf
  | function name body rest ihb ih =>
    rcases List.mem_cons.mp hf with rfl | hf
    · exact ho.1
    · exact (List.mem_append.mp hf).elim (ihb ho.1) (ih ho.2)

/-- The outline of instructions without functions. -/
theorem exists_plain {is : List Instruction} (h : ∀ i ∈ is, i.isMark = false) :
    ∃ o : Outline, o.Proper ∧ o.instructions = is ∧ o.outside = is ∧ o.functions = [] := by
  induction is with
  | nil => exact ⟨done, trivial, rfl, rfl, rfl⟩
  | cons i is ih =>
    obtain ⟨hi, his⟩ := List.forall_mem_cons.mp h
    obtain ⟨o, ho, hinstructions, houtside, hfunctions⟩ := ih his
    exact ⟨plain i o, ⟨hi, ho⟩, congrArg (List.cons i) hinstructions, congrArg (List.cons i) houtside, hfunctions⟩

/-- Functions begin in the order in which the outline has them. -/
theorem filterMap_begun {o : Outline} (ho : o.Proper) :
    o.instructions.filterMap Instruction.begun? = o.functions.map Prod.fst := by
  induction o with
  | done => rfl
  | plain i rest ih =>
    have hi : i.begun? = none := by
      have hmark := ho.1
      cases i <;> first | rfl | cases hmark
    rw [instructions, List.filterMap_cons_none hi, ih ho.2, functions]
  | function name body rest ihbody ih =>
    have hbegin : (Instruction.functionBegin name).begun? = some name := rfl
    have hend : Instruction.functionEnd.begun? = none := rfl
    rw [instructions, List.cons_append, List.filterMap_cons_some hbegin, List.filterMap_append, ihbody ho.1,
      List.filterMap_cons_none hend, ih ho.2, functions, List.map_cons, List.map_append]

end Outline

/-! ## Inside a function -/

/-- The instructions up to the end of the function that is open, given how many functions are open inside it. -/
def insideOpen : Nat → List Instruction → List Instruction
  | _, [] => []
  | depth, .functionBegin name :: is => .functionBegin name :: insideOpen (depth + 1) is
  | 0, .functionEnd :: _ => []
  | depth + 1, .functionEnd :: is => .functionEnd :: insideOpen depth is
  | depth, i :: is => i :: insideOpen depth is

namespace Outline

variable {o : Outline}

theorem insideOpen_append (ho : o.Proper) (depth : Nat) (is : List Instruction) :
    insideOpen depth (o.instructions ++ is) = o.instructions ++ insideOpen depth is := by
  induction o generalizing depth is with
  | done => rfl
  | plain i rest ih =>
    have hmark := ho.1
    rw [instructions, List.cons_append, List.cons_append, ← ih ho.2]
    cases i <;> first | rfl | cases hmark
  | function name body rest ihbody ih =>
    rw [instructions, List.append_assoc, List.cons_append, List.cons_append, insideOpen, ihbody ho.1, List.cons_append,
      insideOpen, ih ho.2]
    simp only [List.append_assoc, List.cons_append]

theorem insideOpen_end (ho : o.Proper) (after : List Instruction) :
    insideOpen 0 (o.instructions ++ .functionEnd :: after) = o.instructions := by
  rw [insideOpen_append ho, insideOpen, List.append_nil]

/-- Instructions have one outline only. -/
theorem eq_of_instructions {a b : Outline} (ha : a.Proper) (hb : b.Proper) (h : a.instructions = b.instructions) :
    a = b := by
  induction a generalizing b with
  | done =>
    cases b with
    | done => rfl
    | plain | function => cases h
  | plain i rest ih =>
    cases b with
    | done => cases h
    | plain j rest' =>
      obtain ⟨rfl, hrest⟩ := List.cons.inj h
      rw [ih ha.2 hb.2 hrest]
    | function g body' rest' =>
      have hmark := ha.1
      rw [(List.cons.inj h).1] at hmark
      cases hmark
  | function f body rest ihbody ih =>
    cases b with
    | done => cases h
    | plain j rest' =>
      have hmark := hb.1
      rw [← (List.cons.inj h).1] at hmark
      cases hmark
    | function g body' rest' =>
      rw [instructions, instructions, List.cons_append, List.cons_append] at h
      obtain ⟨hname, hbehind⟩ := List.cons.inj h
      have hinside := congrArg (insideOpen 0) hbehind
      rw [insideOpen_end ha.1, insideOpen_end hb.1] at hinside
      rw [hinside] at hbehind
      have hrest := (List.cons.inj (List.append_cancel_left hbehind)).2
      rw [Instruction.functionBegin.inj hname, ihbody ha.1 hb.1 hinside, ih ha.2 hb.2 hrest]

theorem exists_begin_of_mem {f : String × Outline} (hf : f ∈ o.functions) :
    ∃ before after, o.instructions = before ++ .functionBegin f.1 :: (f.2.instructions ++ .functionEnd :: after) := by
  induction o with
  | done => cases hf
  | plain i rest ih =>
    obtain ⟨before, after, h⟩ := ih hf
    exact ⟨i :: before, after, congrArg (List.cons i) h⟩
  | function name body rest ihbody ih =>
    rcases List.mem_cons.mp hf with rfl | hf
    · exact ⟨[], rest.instructions, rfl⟩
    · rcases List.mem_append.mp hf with hf | hf
      · obtain ⟨before, after, h⟩ := ihbody hf
        refine ⟨.functionBegin name :: before, after ++ .functionEnd :: rest.instructions, ?_⟩
        rw [instructions, h]
        simp only [List.append_assoc, List.cons_append]
      · obtain ⟨before, after, h⟩ := ih hf
        refine ⟨.functionBegin name :: body.instructions ++ .functionEnd :: before, after, ?_⟩
        rw [instructions, h]
        simp only [List.append_assoc, List.cons_append]

end Outline

/-! ## The outline of a program -/

section Lowering

variable {table : SymbolTable} {ds es : List Declared} {is js : List Instruction}

/-- The function of an outline has the instructions of the declared one. -/
def Declared.Lowers (table : SymbolTable) (d : Declared) (f : String × Outline) : Prop :=
  f.1 = d.name ∧
    ∃ loopExit n, loopExit.isSome = d.inLoop ∧ f.2.instructions = ((lowerBody table loopExit d.body).run n).1

theorem Declared.map_fst_of_lowers {fs : List (String × Outline)} (h : List.Forall₂ (Declared.Lowers table) ds fs) :
    fs.map Prod.fst = ds.map Declared.name := by
  induction h with
  | nil => rfl
  | cons hd _ ih => rw [List.map_cons, List.map_cons, hd.1, ih]

/-- The functions in the instructions are the declared ones. -/
def Outlined (table : SymbolTable) (ds : List Declared) (is : List Instruction) : Prop :=
  ∃ o : Outline, o.Proper ∧ o.instructions = is ∧ List.Forall₂ (Declared.Lowers table) ds o.functions

namespace Outlined

theorem append (h : Outlined table ds is) (h' : Outlined table es js) : Outlined table (ds ++ es) (is ++ js) := by
  obtain ⟨a, ha, rfl, hds⟩ := h
  obtain ⟨b, hb, rfl, hes⟩ := h'
  refine ⟨a.append b, ha.append hb, Outline.instructions_append a b, ?_⟩
  rw [Outline.functions_append]
  exact List.rel_append hds hes

/-- Instructions without functions. -/
theorem plain (h : ∀ i ∈ is, i.isMark = false) : Outlined table [] is := by
  obtain ⟨o, ho, his, -, hfunctions⟩ := Outline.exists_plain h
  exact ⟨o, ho, his, hfunctions ▸ .nil⟩

theorem before (h : Outlined table ds is) (hjs : ∀ j ∈ js, j.isMark = false) : Outlined table ds (is ++ js) := by
  have happend := h.append (plain hjs)
  rwa [List.append_nil] at happend

theorem behind (h : Outlined table ds js) (his : ∀ i ∈ is, i.isMark = false) : Outlined table ds (is ++ js) := by
  have happend := (plain his).append h
  rwa [List.nil_append] at happend

theorem filterMap_begun (h : Outlined table ds is) : is.filterMap Instruction.begun? = ds.map Declared.name := by
  obtain ⟨o, ho, rfl, hds⟩ := h
  rw [Outline.filterMap_begun ho, Declared.map_fst_of_lowers hds]

/-- A function around instructions. -/
theorem function {d : Declared} {loopExit : Option Label} {n : Nat} (hloop : loopExit.isSome = d.inLoop)
    (h : Outlined table ds ((lowerBody table loopExit d.body).run n).1) :
    Outlined table (d :: ds)
      ([.functionBegin d.name] ++ ((lowerBody table loopExit d.body).run n).1 ++ [.functionEnd]) := by
  obtain ⟨o, ho, hlower, hds⟩ := h
  refine ⟨.function d.name o .done, ⟨ho, trivial⟩, ?_, ?_⟩
  · simp only [Outline.instructions, hlower, List.cons_append, List.nil_append]
  · rw [Outline.functions, Outline.functions, List.append_nil]
    exact .cons ⟨rfl, loopExit, n, hloop, hlower⟩ hds

end Outlined

open Instruction (ofValue? jumpUnless jumpWhen ofStep branch)

theorem Instruction.isMark_ofValue? (target : String) (value : Option Chain) :
    ∀ i ∈ ofValue? target value, i.isMark = false := by
  intro i hi
  obtain ⟨c, -, rfl⟩ := mem_ofValue? hi
  rfl

theorem Instruction.isMark_jumpUnless (cond : Option Chain) (l : Label) :
    ∀ i ∈ jumpUnless cond l, i.isMark = false := by
  intro i hi
  obtain ⟨c, -, jump, rfl⟩ := mem_jumpUnless hi
  rfl

theorem Instruction.isMark_jumpWhen (cond : Option Chain) (l : Label) : ∀ i ∈ jumpWhen cond l, i.isMark = false := by
  intro i hi
  obtain ⟨c, -, jump, rfl⟩ := mem_jumpWhen hi
  rfl

theorem Instruction.isMark_init (init : Option Declaration) :
    ∀ i ∈ (init.map fun d => ofValue? d.name d.value).getD [], i.isMark = false := by
  cases init with
  | none => exact fun i hi => absurd hi List.not_mem_nil
  | some d => exact isMark_ofValue? d.name d.value

theorem Instruction.isMark_step (step : Option LoopStep) : ∀ i ∈ (step.map ofStep).getD [], i.isMark = false := by
  cases step with
  | none => exact fun i hi => absurd hi List.not_mem_nil
  | some step =>
    cases step with
    | assign target value => exact isMark_ofValue? target value
    | compound target op operand => exact List.forall_mem_singleton.mpr rfl

theorem Instruction.isMark_label (l : Label) : ∀ i ∈ [label l], i.isMark = false := List.forall_mem_singleton.mpr rfl

theorem Instruction.isMark_jump_label (l l' : Label) : ∀ i ∈ [jump l, label l'], i.isMark = false :=
  List.forall_mem_cons.mpr ⟨rfl, isMark_label l'⟩

open Instruction (isMark_ofValue? isMark_jumpUnless isMark_jumpWhen isMark_init isMark_step isMark_label
  isMark_jump_label)

mutual

theorem Statement.outlined (table : SymbolTable) :
    ∀ (loopExit : Option Label) (s : Statement) (n : Nat),
      Outlined table (s.functions loopExit.isSome) ((s.lower table loopExit).run n).1
  | loopExit, .block _ body, n => outlined_body table loopExit body n
  | _, .declare _ d, _ => .plain (isMark_ofValue? _ _)
  | _, .assign _ name value, _ => .plain (isMark_ofValue? _ _)
  | _, .call _ name args builtin, _ => .plain (List.forall_mem_singleton.mpr rfl)
  | loopExit, .function _ name params body, n => by
    simp only [Statement.lower, run_bind, run_pure]
    exact Outlined.function (d := ⟨loopExit.isSome, name, params, body⟩) rfl (outlined_body table loopExit body n)
  | loopExit, .conditional _ cond body alternatives, n => by
    simp only [Statement.lower, run_bind, run_pure, run_newLabel, branch]
    have hbody := outlined_body table loopExit body (n + 1 + 1)
    have hothers := Alternatives.outlined table loopExit ⟨n + 1⟩ alternatives
      ((lowerBody table loopExit body).run (n + 1 + 1)).2
    have hbranch := (hbody.behind (isMark_jumpUnless cond ⟨n + 1 + 1⟩)).before (isMark_jump_label ⟨n + 1⟩ ⟨n + 1 + 1⟩)
    exact (hbranch.append hothers).before (isMark_label ⟨n + 1⟩)
  | loopExit, .whileLoop _ cond body, n => by
    simp only [Statement.lower, run_bind, run_pure, run_newLabel]
    have hbody := outlined_body table (some ⟨n + 1 + 1⟩) body (n + 1 + 1)
    refine Outlined.before (hbody.behind fun i hi => ?_) (isMark_jump_label ⟨n + 1⟩ ⟨n + 1 + 1⟩)
    exact (List.mem_append.mp hi).elim (isMark_label _ i) (isMark_jumpUnless cond _ i)
  | loopExit, .doWhile _ body cond, n => by
    simp only [Statement.lower, run_bind, run_pure, run_newLabel]
    have hbody := outlined_body table (some ⟨n + 1 + 1⟩) body (n + 1 + 1)
    have hloop := (hbody.behind (isMark_label ⟨n + 1⟩)).before (isMark_jumpWhen cond ⟨n + 1⟩)
    exact hloop.before (isMark_label ⟨n + 1 + 1⟩)
  | loopExit, .counting _ init cond step body, n => by
    simp only [Statement.lower, run_bind, run_pure, run_newLabel]
    have hbody := outlined_body table (some ⟨n + 1 + 1⟩) body (n + 1 + 1)
    have hend := isMark_jump_label ⟨n + 1⟩ ⟨n + 1 + 1⟩
    refine ((Outlined.behind hbody fun i hi => ?_).before (isMark_step step)).before hend
    rcases List.mem_append.mp hi with hi | hi
    · exact (List.mem_append.mp hi).elim (isMark_init init i) (isMark_label _ i)
    · exact isMark_jumpUnless cond _ i hi
  | none, .brk _, _ => .plain fun i hi => absurd hi List.not_mem_nil
  | some l, .brk _, _ => .plain (List.forall_mem_singleton.mpr rfl)

/-- **The functions in the instructions of a body are those that the body declares.** -/
theorem outlined_body (table : SymbolTable) :
    ∀ (loopExit : Option Label) (body : List Statement) (n : Nat),
      Outlined table (bodyFunctions loopExit.isSome body) ((lowerBody table loopExit body).run n).1
  | _, [], _ => .plain fun i hi => absurd hi List.not_mem_nil
  | loopExit, s :: ss, n => by
    simp only [lowerBody, run_bind, run_pure]
    exact (s.outlined table loopExit n).append (outlined_body table loopExit ss _)

theorem Alternatives.outlined (table : SymbolTable) :
    ∀ (loopExit : Option Label) (exit : Label) (a : Alternatives) (n : Nat),
      Outlined table (a.functions loopExit.isSome) ((a.lower table loopExit exit).run n).1
  | _, _, .done, _ => .plain fun i hi => absurd hi List.not_mem_nil
  | loopExit, _, .otherwise body, n => outlined_body table loopExit body n
  | loopExit, exit, .branch cond body rest, n => by
    simp only [Alternatives.lower, run_bind, run_pure, run_newLabel, branch]
    have hbody := outlined_body table loopExit body (n + 1)
    have hrest := Alternatives.outlined table loopExit exit rest ((lowerBody table loopExit body).run (n + 1)).2
    exact ((hbody.behind (isMark_jumpUnless cond ⟨n + 1⟩)).before (isMark_jump_label exit ⟨n + 1⟩)).append hrest

end

theorem outlined_lower (table : SymbolTable) (body : List Statement) :
    Outlined table (bodyFunctions false body) (lower table body) := outlined_body table none body 0

/-- **Functions begin in the instructions in the order in which they are declared.** -/
theorem filterMap_begun_lower (table : SymbolTable) (body : List Statement) :
    (lower table body).filterMap Instruction.begun? = (bodyFunctions false body).map Declared.name :=
  (outlined_lower table body).filterMap_begun

end Lowering

end Dotlang
