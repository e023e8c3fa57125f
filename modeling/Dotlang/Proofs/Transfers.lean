import Dotlang.Proofs.Hoisting
import Dotlang.Proofs.Interpreter

/-!
# Where both codes of a program transfer control

The two emitters walk over the instructions on their own: the assembly has the functions behind the main program, the
three-address code has them where they are declared. Otherwise their labels, jumps, calls and returns are the same.

* `Transfer` : a label, a jump, a call or a return, and nothing of how values are computed;
* `ThreeAddress.transfers`, `Assembly.transfers` : the transfers of a code;
* `entries is` : which of the transfers of `is` are the labels of functions;
* `outsideFunctions`, `segment`, `segments`, `hoisted` : transfers in source order, rearranged as the assembly has them;
* `transfers_generate`, `transfers_assemble` : the transfers of either code in terms of the outline of a program;
* `codes_transfer_alike` : rearranged, the transfers of the three-address code are those of the assembly.
-/

namespace Dotlang

open Assembly (Line lines assemble bindAll bind sectionOf)
open ThreeAddress (Quad quads quadsAll generate)

/-! ## Transfers -/

/-- A point where control may come from somewhere else or go there. A conditional jump is taken with the right side of
the comparison directly before it. -/
inductive Transfer where
  | label (name : String)
  | jump (name : String)
  | branch (relation : Relation) (right : Option String) (name : String)
  | call (name : String)
  | ret
  deriving DecidableEq, Repr

/-- The transfers of three-address code, given the right side of the comparison directly before it. -/
def ThreeAddress.transfers : Option String → List Quad → List Transfer
  | _, [] => []
  | _, .compare _ right :: qs => transfers (some right) qs
  | right, .jumpIf relation name :: qs => .branch relation right name :: transfers none qs
  | _, .label name :: qs => .label name :: transfers none qs
  | _, .goto name :: qs => .jump name :: transfers none qs
  | _, .call name _ :: qs => .call name :: transfers none qs
  | _, .ret :: qs => .ret :: transfers none qs
  | _, .assign .. :: qs | _, .binary .. :: qs | _, .param _ :: qs => transfers none qs

/-- The transfers of assembly lines, given the right side of the comparison directly before them. -/
def Assembly.transfers : Option String → List Line → List Transfer
  | _, [] => []
  | _, .compare _ right :: ls => transfers (some right) ls
  | right, .jumpIf relation name :: ls => .branch relation right name :: transfers none ls
  | _, .label name :: ls => .label name :: transfers none ls
  | _, .jump name :: ls => .jump name :: transfers none ls
  | _, .call name _ :: ls => .call name :: transfers none ls
  | _, .ret :: ls => .ret :: transfers none ls
  | _, .blank :: ls | _, .move .. :: ls | _, .arith .. :: ls => transfers none ls

/-- Whether an instruction that transfers control begins a function. -/
def Instruction.entry? : Instruction → Option Bool
  | assign .. | step .. => none
  | functionBegin _ => some true
  | _ => some false

/-- One flag for each transfer of the instructions, set at the labels of functions. -/
def entries (is : List Instruction) : List Bool := is.filterMap Instruction.entry?

/-! ## Rearrangement -/

/-- What stands outside functions, given how many of them are open. -/
def outsideFunctions : Nat → List (Bool × Transfer) → List Transfer
  | _, [] => []
  | depth, (true, _) :: ts => outsideFunctions (depth + 1) ts
  | depth + 1, (false, .ret) :: ts => outsideFunctions depth ts
  | depth + 1, (false, _) :: ts => outsideFunctions (depth + 1) ts
  | 0, (false, t) :: ts => t :: outsideFunctions 0 ts

/-- What stands in the function that is open, up to its own `ret`, given how many functions are open inside it. -/
def segment : Nat → List (Bool × Transfer) → List Transfer
  | _, [] => []
  | depth, (true, _) :: ts => segment (depth + 1) ts
  | 0, (false, .ret) :: _ => [.ret]
  | depth + 1, (false, .ret) :: ts => segment depth ts
  | depth + 1, (false, _) :: ts => segment (depth + 1) ts
  | 0, (false, t) :: ts => t :: segment 0 ts

/-- The segments of functions in the order of their `ret`s, given those of the functions that are open, innermost
first. A segment is read off where its label stands and comes in its turn where its `ret` stands. -/
def segments : List (List Transfer) → List (Bool × Transfer) → List (List Transfer)
  | _, [] => []
  | opened, (true, t) :: ts => segments ((t :: segment 0 ts) :: opened) ts
  | s :: opened, (false, .ret) :: ts => s :: segments opened ts
  | opened, (false, _) :: ts => segments opened ts

/-- What stands outside functions and then, behind a `ret` of its own, every segment there is. -/
def hoisted (ts : List (Bool × Transfer)) : List Transfer :=
  outsideFunctions 0 ts ++ if segments [] ts = [] then [] else .ret :: (segments [] ts).flatten

/-! ## Transfers of instructions -/

/-- The transfer that an instruction comes to in either code. -/
def Instruction.transfer? : Instruction → Option Transfer
  | assign .. | step .. => none
  | compare cond relation l => some (.branch relation (some cond.rhs.lexeme) l.name)
  | jump l => some (.jump l.name)
  | label l => some (.label l.name)
  | call name .. => some (.call name)
  | functionBegin name => some (.label name)
  | functionEnd => some .ret

theorem ThreeAddress.transfers_effects {effects : List Quad} (h : ∀ q ∈ effects, q.isEffect = true) (qs : List Quad) :
    transfers none (effects ++ qs) = transfers none qs := by
  induction effects with
  | nil => rfl
  | cons q effects ih =>
    have hq := h q List.mem_cons_self
    rw [List.cons_append]
    cases q with
    | assign | binary => exact ih fun x hx => h x (List.mem_cons_of_mem _ hx)
    | _ => cases hq

theorem ThreeAddress.transfers_params (values : List String) (qs : List Quad) :
    transfers none (values.map Quad.param ++ qs) = transfers none qs := by
  induction values with
  | nil => rfl
  | cons value values ih => exact ih

theorem ThreeAddress.transfers_quads (i : Instruction) (n : Nat) (qs : List Quad) :
    transfers none (((quads i).run n).1 ++ qs) = i.transfer?.toList ++ transfers none qs := by
  cases i with
  | assign target value =>
    simp only [quads, reduce, run_bind, run_pure, List.append_assoc]
    rw [transfers_effects (isEffect_reduceTerms value.rest _ n)]
    rfl
  | compare cond relation l =>
    simp only [quads, run_bind, run_pure, List.append_assoc]
    rw [transfers_effects (isEffect_reduceInPlace cond.lhs n)]
    rfl
  | call name args params =>
    simp only [quads, run_bind, run_pure, List.append_assoc]
    rw [transfers_effects (isEffect_reduceAll args n), transfers_params]
    rfl
  | step | jump | label | functionBegin | functionEnd => rfl

theorem Assembly.transfers_effects {effects : List Line} (h : ∀ l ∈ effects, l.isEffect = true) (ls : List Line) :
    transfers none (effects ++ ls) = transfers none ls := by
  induction effects with
  | nil => rfl
  | cons l effects ih =>
    have hl := h l List.mem_cons_self
    rw [List.cons_append]
    cases l with
    | move | arith => exact ih fun x hx => h x (List.mem_cons_of_mem _ hx)
    | _ => cases hl

/-- The marks around a function have no lines of their own. -/
theorem Assembly.transfers_lines {i : Instruction} (hi : i.isMark = false) (n : Nat) (ls : List Line) :
    transfers none (((lines i).run n).1 ++ ls) = i.transfer?.toList ++ transfers none ls := by
  cases i with
  | assign target value => exact transfers_effects isEffect_accumulate ls
  | compare cond relation l =>
    simp only [lines, run_bind, run_pure, List.append_assoc]
    rw [transfers_effects (isEffect_operand cond.lhs n)]
    rfl
  | call name args params =>
    cases params with
    | none =>
      simp only [lines, run_bind, run_pure, List.append_assoc]
      rw [transfers_effects (isEffect_operands args n)]
      rfl
    | some params =>
      simp only [lines, run_pure, List.append_assoc]
      rw [transfers_effects (isEffect_bindAll params args)]
      rfl
  | step | jump | label => rfl
  | functionBegin | functionEnd => cases hi

/-- The transfers of three-address code are those of its instructions, one after the other. -/
theorem ThreeAddress.transfers_generate (is : List Instruction) :
    transfers none (generate is) = is.filterMap Instruction.transfer? := by
  unfold generate
  generalize 0 = n
  induction is generalizing n with
  | nil => rfl
  | cons i is ih =>
    simp only [quadsAll, run_bind, run_pure]
    rw [transfers_quads, ih, List.filterMap_cons]
    cases i.transfer? <;> rfl

/-! ## Transfers of outlines -/

/-- The transfer of an instruction, and whether it is the label of a function. -/
def Instruction.flagged? (i : Instruction) : Option (Bool × Transfer) := i.transfer?.map fun t => (i.begun?.isSome, t)

theorem zip_entries (is : List Instruction) :
    (entries is).zip (is.filterMap Instruction.transfer?) = is.filterMap Instruction.flagged? := by
  induction is with
  | nil => rfl
  | cons i is ih =>
    unfold entries at ih ⊢
    cases i with
    | assign | step => exact ih
    | _ => exact congrArg (List.cons _) ih

namespace Outline

/-- The transfers of an outline, with the labels of functions flagged. -/
def flagged (o : Outline) : List (Bool × Transfer) := o.instructions.filterMap Instruction.flagged?

/-- The transfers outside the functions of an outline. -/
def outer (o : Outline) : List Transfer := o.outside.filterMap Instruction.transfer?

/-- The transfers of the functions of an outline, in the order in which they end. -/
def inner : Outline → List (List Transfer)
  | done => []
  | plain _ rest => rest.inner
  | function name body rest => body.inner ++ (.label name :: (body.outer ++ [.ret])) :: rest.inner

variable {o : Outline} {ts : List (Bool × Transfer)}

theorem flagged_function (name : String) (body rest : Outline) :
    (function name body rest).flagged ++ ts =
      (true, .label name) :: (body.flagged ++ (false, .ret) :: (rest.flagged ++ ts)) := by
  have hbegin : (Instruction.functionBegin name).flagged? = some (true, .label name) := rfl
  have hend : Instruction.functionEnd.flagged? = some (false, .ret) := rfl
  simp only [flagged, instructions, List.filterMap_cons, List.filterMap_append, hbegin, hend, List.cons_append,
    List.append_assoc]

theorem outsideFunctions_inside (ho : o.Proper) (depth : Nat) (ts : List (Bool × Transfer)) :
    outsideFunctions (depth + 1) (o.flagged ++ ts) = outsideFunctions (depth + 1) ts := by
  induction o generalizing depth ts with
  | done => rfl
  | plain i rest ih =>
    have hrest := ih ho.2 depth ts
    have hmark := ho.1
    cases i with
    | functionBegin | functionEnd => cases hmark
    | _ => exact hrest
  | function name body rest ihbody ih =>
    rw [flagged_function, outsideFunctions, ihbody ho.1, outsideFunctions, ih ho.2]

theorem outsideFunctions_outer (ho : o.Proper) (ts : List (Bool × Transfer)) :
    outsideFunctions 0 (o.flagged ++ ts) = o.outer ++ outsideFunctions 0 ts := by
  induction o with
  | done => rfl
  | plain i rest ih =>
    have hrest := ih ho.2
    have hmark := ho.1
    cases i with
    | functionBegin | functionEnd => cases hmark
    | assign | step => exact hrest
    | _ => exact congrArg (List.cons _) hrest
  | function name body rest _ ih =>
    rw [flagged_function, outsideFunctions, outsideFunctions_inside ho.1, outsideFunctions]
    exact ih ho.2

theorem segment_inside (ho : o.Proper) (depth : Nat) (ts : List (Bool × Transfer)) :
    segment (depth + 1) (o.flagged ++ ts) = segment (depth + 1) ts := by
  induction o generalizing depth ts with
  | done => rfl
  | plain i rest ih =>
    have hrest := ih ho.2 depth ts
    have hmark := ho.1
    cases i with
    | functionBegin | functionEnd => cases hmark
    | _ => exact hrest
  | function name body rest ihbody ih =>
    rw [flagged_function, segment, ihbody ho.1, segment, ih ho.2]

theorem segment_outer (ho : o.Proper) (ts : List (Bool × Transfer)) :
    segment 0 (o.flagged ++ (false, .ret) :: ts) = o.outer ++ [.ret] := by
  induction o with
  | done => rfl
  | plain i rest ih =>
    have hrest := ih ho.2
    have hmark := ho.1
    cases i with
    | functionBegin | functionEnd => cases hmark
    | assign | step => exact hrest
    | _ => exact congrArg (List.cons _) hrest
  | function name body rest _ ih =>
    rw [flagged_function, segment, segment_inside ho.1, segment]
    exact ih ho.2

/-- A function comes behind those that end in it. -/
theorem segments_inner (ho : o.Proper) (opened : List (List Transfer)) (ts : List (Bool × Transfer)) :
    segments opened (o.flagged ++ ts) = o.inner ++ segments opened ts := by
  induction o generalizing opened ts with
  | done => rfl
  | plain i rest ih =>
    rw [inner, ← ih ho.2]
    have hmark := ho.1
    cases i with
    | functionBegin | functionEnd => cases hmark
    | assign | step => rfl
    | _ => cases opened <;> rfl
  | function name body rest ihbody ih =>
    rw [flagged_function, segments, segment_outer ho.1, ihbody ho.1, segments, ih ho.2, inner, List.append_assoc,
      List.cons_append]

/-- The rearranged transfers of an outline. -/
theorem hoisted_flagged (ho : o.Proper) :
    hoisted o.flagged = o.outer ++ if o.inner = [] then [] else .ret :: o.inner.flatten := by
  have houter := outsideFunctions_outer ho []
  have hinner := segments_inner ho [] []
  simp only [List.append_nil, outsideFunctions, segments] at houter hinner
  rw [hoisted, houter, hinner]

theorem transfers_own (ho : o.Proper) (n : Nat) (ls : List Line) :
    Assembly.transfers none (o.own n ++ ls) = o.outer ++ Assembly.transfers none ls := by
  induction o generalizing n with
  | done => rfl
  | plain i rest ih =>
    rw [own_plain, List.append_assoc, Assembly.transfers_lines ho.1, ih ho.2, outer, outer, outside,
      List.filterMap_cons]
    cases i.transfer? <;> rfl
  | function name body rest _ ih =>
    rw [own_function]
    exact ih ho.2 _

theorem transfers_sections (ho : o.Proper) (n : Nat) (ls : List Line) :
    Assembly.transfers none ((o.sections n).flatten ++ ls) = o.inner.flatten ++ Assembly.transfers none ls := by
  induction o generalizing n ls with
  | done => rfl
  | plain i rest ih =>
    rw [sections_plain]
    exact ih ho.2 _ ls
  | function name body rest ihbody ih =>
    have hsection : ∀ more, Assembly.transfers none (sectionOf name (body.own n) ++ more) =
        .label name :: (body.outer ++ .ret :: Assembly.transfers none more) := by
      intro more
      rw [sectionOf, List.append_assoc, List.cons_append, Assembly.transfers, transfers_own ho.1]
      rfl
    rw [sections_function, List.flatten_append, List.flatten_cons, List.append_assoc, List.append_assoc, ihbody ho.1,
      hsection, ih ho.2, inner]
    simp only [List.flatten_append, List.flatten_cons, List.append_assoc, List.cons_append, List.nil_append]

theorem flatten_sections_eq_nil_iff (o : Outline) (n : Nat) : (o.sections n).flatten = [] ↔ o.inner = [] := by
  induction o generalizing n with
  | done => exact iff_of_true rfl rfl
  | plain i rest ih => exact ih _
  | function name body rest _ _ => simp [sections_function, inner, sectionOf]

end Outline

/-- The transfers of the assembly are those outside functions and, behind a `ret`, those of the functions. -/
theorem Assembly.transfers_assemble {o : Outline} (ho : o.Proper) :
    transfers none (assemble o.instructions) =
      o.outer ++ if o.inner = [] then [] else .ret :: o.inner.flatten := by
  rw [assemble_instructions ho, Outline.transfers_own ho]
  congr 1
  by_cases hnone : o.inner = []
  · rw [if_pos hnone, if_pos ((o.flatten_sections_eq_nil_iff 0).mpr hnone)]
    rfl
  · rw [if_neg hnone, if_neg fun h => hnone ((o.flatten_sections_eq_nil_iff 0).mp h), Assembly.transfers]
    have hsections := Outline.transfers_sections ho 0 []
    rw [List.append_nil] at hsections
    rw [hsections, Assembly.transfers, List.append_nil]

/-- The flagged transfers are the labels of the functions that begin. -/
theorem filterMap_flagged? (is : List Instruction) :
    (is.filterMap Instruction.flagged?).filterMap (fun t => if t.1 then some t.2 else none) =
      (is.filterMap Instruction.begun?).map Transfer.label := by
  induction is with
  | nil => rfl
  | cons i is ih =>
    cases i with
    | functionBegin name => exact congrArg (List.cons (Transfer.label name)) ih
    | _ => exact ih

/-- **Both codes of a program transfer control alike.** The flags are one for each transfer of the three-address code,
set at the labels of the functions that the tree declares; if the functions are moved behind the rest, each without the
ones in it and in the order in which they end, with a `ret` before them if there are any, the transfers are those of the
assembly. -/
theorem codes_transfer_alike (table : SymbolTable) (body : List Statement) :
    let is := lower table body
    let flagged := (entries is).zip (ThreeAddress.transfers none (generate is))
    flagged.map Prod.snd = ThreeAddress.transfers none (generate is) ∧
      flagged.filterMap (fun t => if t.1 then some t.2 else none) =
        (bodyFunctions false body).map (fun d => .label d.name) ∧
      hoisted flagged = Assembly.transfers none (assemble is) := by
  obtain ⟨o, ho, his, -⟩ := outlined_lower table body
  simp only [ThreeAddress.transfers_generate, zip_entries, filterMap_flagged?, filterMap_begun_lower]
  refine ⟨?_, ?_, ?_⟩
  · rw [List.map_filterMap]
    congr 1
    funext i
    cases h : i.transfer? <;> simp [Instruction.flagged?, h]
  · rw [List.map_map]
    rfl
  · rw [← his, Assembly.transfers_assemble ho]
    exact Outline.hoisted_flagged ho

/-- A function in another one, in source order and rearranged. -/
example :
    hoisted [(true, .label "f"), (true, .label "g"), (false, .ret), (false, .call "g"), (false, .ret),
      (false, .call "f")] =
      [.call "f", .ret, .label "g", .ret, .label "f", .call "g", .ret] := by decide

end Dotlang
