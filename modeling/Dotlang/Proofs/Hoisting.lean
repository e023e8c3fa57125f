import Dotlang.Proofs.Fragments
import Dotlang.Proofs.Outline

/-!
# Where the lines of functions stand

The assembly of a program with functions is the lines outside them, then a `RET` if there are functions at all, and
then one section for each function, in the order in which they end.

* `Outline.code` : the lines outside the functions of an outline, and the sections of the functions;
* `assemble_instructions` : the assembly of an outline's instructions;
* `LeadsAway` : which lines of an instruction do not just lead to the next one;
* `count_label_assemble` : the labels of the assembly are those of the instructions and the names of the functions;
* `exists_placed_lines` : the lines of an instruction stand together;
* `exists_last_section` : of the sections with one name, which is the last.
-/

namespace Dotlang

open Assembly (Line Scratch lines assemble Emitter)

/-! ## Sections -/

/-- The lines of a function that has the given ones inside. -/
def Assembly.sectionOf (name : String) (inside : List Line) : List Line := .label name :: inside ++ [.ret]

open Assembly (sectionOf)

namespace Outline

/-- The lines outside the functions of an outline, and the sections of these functions in the order in which they
end. Scratch variables are numbered through. -/
def code : Outline → Scratch (List Line × List (List Line))
  | done => return ([], [])
  | plain i rest => do
    let ls ← lines i
    let (own, sections) ← rest.code
    return (ls ++ own, sections)
  | function name body rest => do
    let (inside, inner) ← body.code
    let (own, sections) ← rest.code
    return (own, inner ++ sectionOf name inside :: sections)

/-- The lines of an outline outside its functions, numbering scratch variables from `n`. -/
def own (o : Outline) (n : Nat) : List Line := (o.code.run n).1.1

/-- The sections of the functions of an outline. -/
def sections (o : Outline) (n : Nat) : List (List Line) := (o.code.run n).1.2

variable {i : Instruction} {name : String} {body rest : Outline} {n : Nat}

theorem own_plain : (plain i rest).own n = ((lines i).run n).1 ++ rest.own ((lines i).run n).2 := rfl

theorem sections_plain : (plain i rest).sections n = rest.sections ((lines i).run n).2 := rfl

theorem own_function : (function name body rest).own n = rest.own (body.code.run n).2 := rfl

theorem sections_function : (function name body rest).sections n =
    body.sections n ++ sectionOf name (body.own n) :: rest.sections (body.code.run n).2 := rfl

end Outline

/-! ## Emission -/

namespace Assembly.Emitter

theorem put_nil (e : Emitter) : e.put [] = e := by
  obtain ⟨main, finished, opened, scratch⟩ := e
  cases opened <;> simp [put]

theorem emit_of_isMark {i : Instruction} (h : i.isMark = false) (e : Emitter) :
    e.emit i = { e.put ((lines i).run e.scratch).1 with scratch := ((lines i).run e.scratch).2 } := by
  cases i with
  | functionBegin name => cases h
  | functionEnd => cases h
  | _ => rfl

theorem main_finish (e : Emitter) : e.finish.main = e.main ++ if e.finished = [] then [] else .ret :: e.finished := by
  unfold finish
  split_ifs
  · rw [List.append_nil]
  · rw [List.append_assoc, List.cons_append, List.nil_append]

end Assembly.Emitter

variable {o : Outline} {n : Nat}

/-- The lines outside functions go to the innermost open buffer, the sections behind what is finished. -/
theorem Outline.foldl_emit (ho : o.Proper) (e : Emitter) :
    o.instructions.foldl Emitter.emit e =
      { e.put (o.own e.scratch) with
        finished := e.finished ++ (o.sections e.scratch).flatten, scratch := (o.code.run e.scratch).2 } := by
  induction o generalizing e with
  | done =>
    have hcode : done.own e.scratch = [] ∧ (done.sections e.scratch).flatten = [] := ⟨rfl, rfl⟩
    rw [hcode.1, hcode.2, Emitter.put_nil, List.append_nil]
    rfl
  | plain i rest ih =>
    rw [instructions, List.foldl_cons, ih ho.2, Emitter.emit_of_isMark ho.1, own_plain, sections_plain]
    obtain ⟨main, finished, opened, scratch⟩ := e
    cases opened <;> simp only [Emitter.put, List.append_assoc] <;> rfl
  | function name body rest ihbody ih =>
    have hopen : e.emit (.functionBegin name) = { e with opened := [.label name] :: e.opened } := rfl
    rw [instructions, List.cons_append, List.foldl_cons, List.foldl_append, List.foldl_cons, hopen, ihbody ho.1,
      ih ho.2, own_function, sections_function]
    obtain ⟨main, finished, opened, scratch⟩ := e
    cases opened <;>
      simp only [Emitter.emit, Emitter.put, Emitter.close, sectionOf, List.flatten_append, List.flatten_cons,
        List.append_assoc, List.cons_append, List.nil_append] <;> rfl

/-- **The assembly of an outline is the lines outside its functions and the sections of these behind a `RET`.** -/
theorem assemble_instructions (ho : o.Proper) :
    assemble o.instructions =
      o.own 0 ++ if (o.sections 0).flatten = [] then [] else .ret :: (o.sections 0).flatten := by
  rw [assemble, Emitter.emitAll, Emitter.main_finish, Outline.foldl_emit ho]
  rfl

/-! ## Lines of instructions -/

namespace Assembly

/-- Which line of an instruction does not just lead to the next one. -/
inductive LeadsAway : Instruction → Line → Prop where
  | label (l : Label) : LeadsAway (.label l) (.label l.name)
  | jump (l : Label) : LeadsAway (.jump l) (.jump l.name)
  | compare (cond : Condition) (r : Relation) (l : Label) (left : String) :
      LeadsAway (.compare cond r l) (.compare left cond.rhs.lexeme)
  | jumpIf (cond : Condition) (r : Relation) (l : Label) : LeadsAway (.compare cond r l) (.jumpIf r l.name)
  | builtin (name : String) (args : List Argument) (words : List String) :
      LeadsAway (.call name args none) (.call name words)
  | call (name : String) (args : List Argument) (params : List String) :
      LeadsAway (.call name args (some params)) (.call name [])

theorem isStraight_bind (param : String) (arg : Option Argument) : ∀ l ∈ bind param arg, l.isStraight = true := by
  intro l hl
  cases arg with
  | none => rw [List.mem_singleton.mp hl]; rfl
  | some a =>
    cases a with
    | value c => exact isStraight_accumulate l hl
    | type word => rw [List.mem_singleton.mp hl]; rfl

theorem isStraight_bindAll (params : List String) (args : List Argument) :
    ∀ l ∈ bindAll params args, l.isStraight = true := by
  induction params generalizing args with
  | nil => exact fun l hl => absurd hl List.not_mem_nil
  | cons param params ih =>
    exact fun l hl => (List.mem_append.mp hl).elim (isStraight_bind param args.head? l) (ih args.tail l)

theorem isStraight_or_leadsAway {i : Instruction} {n : Nat} {l : Line} (h : l ∈ ((lines i).run n).1) :
    l.isStraight = true ∨ LeadsAway i l := by
  cases i with
  | assign target value => exact Or.inl (isStraight_accumulate l h)
  | step target op operand =>
    rw [List.mem_singleton.mp h]
    exact Or.inl rfl
  | compare cond r label =>
    rcases List.mem_append.mp h with h | h
    · exact Or.inl (isStraight_operand cond.lhs n l h)
    · rcases List.mem_cons.mp h with rfl | h
      · exact Or.inr (.compare ..)
      · rw [List.mem_singleton.mp h]
        exact Or.inr (.jumpIf ..)
  | jump label =>
    rw [List.mem_singleton.mp h]
    exact Or.inr (.jump label)
  | label label =>
    rw [List.mem_singleton.mp h]
    exact Or.inr (.label label)
  | call name args params =>
    cases params with
    | none =>
      rcases List.mem_append.mp h with h | h
      · exact Or.inl (isStraight_operands args n l h)
      · rw [List.mem_singleton.mp h]
        exact Or.inr (.builtin ..)
    | some params =>
      rcases List.mem_append.mp h with h | h
      · exact Or.inl (isStraight_bindAll params args l h)
      · rw [List.mem_singleton.mp h]
        exact Or.inr (.call ..)
  | functionBegin name => exact absurd h List.not_mem_nil
  | functionEnd => exact absurd h List.not_mem_nil

/-- A label is the only line of its instruction. -/
theorem eq_label_of_mem_lines {i : Instruction} {n : Nat} {name : String} (h : .label name ∈ ((lines i).run n).1) :
    ∃ l : Label, i = .label l ∧ l.name = name := by
  rcases isStraight_or_leadsAway h with hstraight | haway
  · cases hstraight
  · cases haway with
    | label l => exact ⟨l, rfl, rfl⟩

end Assembly

/-! ## Labels of the assembly -/

/-- A label is made once. -/
theorem count_label_eq_one {table : SymbolTable} {body : List Statement} {l : Label} (h : .label l ∈ lower table body) :
    (lower table body).count (.label l) = 1 := by
  have hpos := List.count_pos_iff.mpr h
  have hle := (fresh_body table none body 0).2 l
  unfold lower at hpos ⊢
  split_ifs at hle <;> omega

/-- The label that an instruction puts into the assembly. -/
def Instruction.bears? : Instruction → Option String
  | .label l => some l.name
  | .functionBegin name => some name
  | _ => none

namespace Assembly

theorem count_label_lines {i : Instruction} (hi : i.isMark = false) (name : String) (n : Nat) :
    ((lines i).run n).1.count (.label name) = i.bears?.toList.count name := by
  cases i with
  | functionBegin _ => cases hi
  | functionEnd => cases hi
  | label l =>
    show [Line.label l.name].count (.label name) = [l.name].count name
    simp only [List.count_singleton, beq_iff_eq, Line.label.injEq]
  | _ =>
    refine List.count_eq_zero.mpr fun hmem => ?_
    obtain ⟨l, hl, -⟩ := eq_label_of_mem_lines hmem
    cases hl

theorem count_label_sectionOf (name f : String) (inside : List Line) :
    (sectionOf f inside).count (.label name) = [f].count name + inside.count (.label name) := by
  rw [sectionOf, List.cons_append, List.count_cons, List.count_append]
  have hret : [Line.ret].count (.label name) = 0 := rfl
  have hname : ((Line.label f == .label name) = true) ↔ ((f == name) = true) := by simp
  simp only [hret, List.count_singleton, hname]
  omega

end Assembly

/-- In an outline and in its lines there are the same labels. -/
theorem Outline.count_label_code (ho : o.Proper) (name : String) (n : Nat) :
    (o.own n).count (.label name) + (o.sections n).flatten.count (.label name) =
      (o.instructions.filterMap Instruction.bears?).count name := by
  induction o generalizing n with
  | done => rfl
  | plain i rest ih =>
    have hrest := ih ho.2 ((lines i).run n).2
    have hbears : (i :: rest.instructions).filterMap Instruction.bears? =
        i.bears?.toList ++ rest.instructions.filterMap Instruction.bears? := by
      rw [List.filterMap_cons]
      cases i.bears? <;> rfl
    rw [own_plain, sections_plain, instructions, hbears, List.count_append, List.count_append,
      Assembly.count_label_lines ho.1]
    omega
  | function f body rest ihbody ih =>
    have hbody := ihbody ho.1 n
    have hrest := ih ho.2 (body.code.run n).2
    rw [own_function, sections_function, instructions, List.flatten_append, List.flatten_cons, List.count_append,
      List.count_append, Assembly.count_label_sectionOf, List.count_singleton]
    simp only [List.cons_append, List.filterMap_cons, List.filterMap_append, Instruction.bears?, List.count_cons,
      List.count_append]
    omega

theorem count_label_assemble (ho : o.Proper) (name : String) :
    (assemble o.instructions).count (.label name) = (o.instructions.filterMap Instruction.bears?).count name := by
  rw [assemble_instructions ho, ← Outline.count_label_code ho name 0, List.count_append]
  split_ifs with hsections
  · rw [hsections]
  · rw [List.count_cons_of_ne (by simp)]

/-! ## Blocks -/

theorem Placed.behind {ls code : List Line} {k : Nat} (h : Placed ls k code) (before : List Line) :
    Placed (before ++ ls) (before.length + k) code := by
  obtain ⟨first, last, rfl, rfl⟩ := h
  exact ⟨before ++ first, last, by simp only [List.append_assoc], List.length_append⟩

/-- Blocks that `P` holds of, one behind the other. -/
def Blocks (P : List Line → Prop) (ls : List Line) : Prop :=
  ∃ blocks : List (List Line), (∀ b ∈ blocks, P b) ∧ blocks.flatten = ls

namespace Blocks

variable {P : List Line → Prop} {ls more : List Line}

theorem nil : Blocks P [] := ⟨[], fun _ h => absurd h List.not_mem_nil, rfl⟩

theorem one (h : P ls) : Blocks P ls := ⟨[ls], List.forall_mem_singleton.mpr h, List.flatten_singleton⟩

theorem append (h : Blocks P ls) (h' : Blocks P more) : Blocks P (ls ++ more) := by
  obtain ⟨bs, hbs, rfl⟩ := h
  obtain ⟨cs, hcs, rfl⟩ := h'
  exact ⟨bs ++ cs, fun b hb => (List.mem_append.mp hb).elim (hbs b) (hcs b), List.flatten_append⟩

/-- Every line is in one of the blocks. -/
theorem exists_placed (h : Blocks P ls) {k : Nat} {l : Line} (hk : ls[k]? = some l) :
    ∃ b start j, P b ∧ Placed ls start b ∧ start + j = k ∧ b[j]? = some l := by
  obtain ⟨blocks, hblocks, rfl⟩ := h
  induction blocks generalizing k with
  | nil => simp at hk
  | cons b bs ih =>
    obtain ⟨hb, hbs⟩ := List.forall_mem_cons.mp hblocks
    rw [List.flatten_cons] at hk ⊢
    rcases Nat.lt_or_ge k b.length with hlt | hge
    · rw [List.getElem?_append_left hlt] at hk
      exact ⟨b, 0, k, hb, ⟨[], bs.flatten, rfl, rfl⟩, Nat.zero_add k, hk⟩
    · rw [List.getElem?_append_right hge] at hk
      obtain ⟨c, start, j, hc, hplaced, hj, hline⟩ := ih hbs hk
      exact ⟨c, b.length + start, j, hc, hplaced.behind b, by omega, hline⟩

end Blocks

/-- What the assembly of instructions is put together from. -/
inductive Assembly.IsBlock (is : List Instruction) : List Line → Prop where
  | ret : IsBlock is [.ret]
  | label {name : String} (h : .functionBegin name ∈ is) : IsBlock is [.label name]
  | lines {i : Instruction} (h : i ∈ is) (n : Nat) : IsBlock is ((lines i).run n).1

open Assembly (IsBlock)

theorem Outline.blocks_code {is : List Instruction} (h : o.instructions ⊆ is) (n : Nat) :
    Blocks (IsBlock is) (o.own n) ∧ Blocks (IsBlock is) (o.sections n).flatten := by
  induction o generalizing n with
  | done => exact ⟨.nil, .nil⟩
  | plain i rest ih =>
    obtain ⟨hi, hsub⟩ := List.cons_subset.mp h
    obtain ⟨hown, hsections⟩ := ih hsub ((lines i).run n).2
    exact ⟨(Blocks.one (.lines hi n)).append hown, hsections⟩
  | function f body rest ihbody ih =>
    obtain ⟨hbodysub, hsub⟩ := List.append_subset.mp h
    obtain ⟨hf, hbodysub⟩ := List.cons_subset.mp hbodysub
    obtain ⟨hinside, hinner⟩ := ihbody hbodysub n
    obtain ⟨hown, hsections⟩ := ih (List.cons_subset.mp hsub).2 (body.code.run n).2
    have hsection : Blocks (IsBlock is) (sectionOf f (body.own n)) :=
      ((Blocks.one (.label hf)).append hinside).append (.one .ret)
    rw [own_function, sections_function, List.flatten_append, List.flatten_cons]
    exact ⟨hown, hinner.append (hsection.append hsections)⟩

/-- The assembly of an outline is put together from blocks. -/
theorem Outline.blocks_assemble (ho : o.Proper) : Blocks (IsBlock o.instructions) (assemble o.instructions) := by
  obtain ⟨hown, hsections⟩ := Outline.blocks_code (List.Subset.refl o.instructions) 0
  rw [assemble_instructions ho]
  refine hown.append ?_
  split_ifs
  · exact .nil
  · exact (Blocks.one .ret).append hsections

/-- A line of the assembly ends a function, is the label of one, or stands among the lines of an instruction. -/
theorem exists_placed_lines (ho : o.Proper) {k : Nat} {l : Line} (h : (assemble o.instructions)[k]? = some l) :
    l = .ret ∨ (∃ name, .functionBegin name ∈ o.instructions ∧ l = .label name) ∨
      ∃ i ∈ o.instructions, ∃ n start j, Placed (assemble o.instructions) start ((lines i).run n).1 ∧ start + j = k ∧
        ((lines i).run n).1[j]? = some l := by
  obtain ⟨b, start, j, hb, hplaced, hj, hline⟩ := (Outline.blocks_assemble ho).exists_placed h
  cases hb with
  | ret => exact Or.inl (List.mem_singleton.mp (List.mem_of_getElem? hline))
  | label hname => exact Or.inr (Or.inl ⟨_, hname, List.mem_singleton.mp (List.mem_of_getElem? hline)⟩)
  | lines hi n => exact Or.inr (Or.inr ⟨_, hi, n, start, j, hplaced, hj, hline⟩)

/-! ## The last section of a name -/

namespace Outline

theorem exists_of_mem_own {l : Line} (h : l ∈ o.own n) : ∃ i ∈ o.outside, ∃ m, l ∈ ((lines i).run m).1 := by
  induction o generalizing n with
  | done => exact absurd h List.not_mem_nil
  | plain i rest ih =>
    rcases List.mem_append.mp h with h | h
    · exact ⟨i, List.mem_cons_self, n, h⟩
    · obtain ⟨j, hj, m, hm⟩ := ih h
      exact ⟨j, List.mem_cons_of_mem _ hj, m, hm⟩
  | function f body rest _ ih => exact ih h

theorem exists_of_mem_sections {s : List Line} (h : s ∈ o.sections n) :
    ∃ f ∈ o.functions, ∃ m, s = sectionOf f.1 (f.2.own m) := by
  induction o generalizing n with
  | done => exact absurd h List.not_mem_nil
  | plain i rest ih => exact ih h
  | function f body rest ihbody ih =>
    rw [sections_function] at h
    rcases List.mem_append.mp h with h | h
    · obtain ⟨g, hg, hs⟩ := ihbody h
      exact ⟨g, List.mem_cons_of_mem _ (List.mem_append_left _ hg), hs⟩
    · rcases List.mem_cons.mp h with rfl | h
      · exact ⟨(f, body), List.mem_cons_self, n, rfl⟩
      · obtain ⟨g, hg, hs⟩ := ih h
        exact ⟨g, List.mem_cons_of_mem _ (List.mem_append_right _ hg), hs⟩

/-- The functions of an outline that bear a name. -/
def named (o : Outline) (name : String) : List (String × Outline) := o.functions.filter fun f => f.1 = name

theorem named_function (f name : String) (body rest : Outline) :
    (function f body rest).named name =
      (if f = name then [(f, body)] else []) ++ body.named name ++ rest.named name := by
  simp only [named, functions, List.filter_cons, List.filter_append, decide_eq_true_eq]
  split_ifs <;> rfl

/-- Behind the first function of a name come those in its body. -/
theorem exists_named_eq {name : String} {f : String × Outline} {fs : List (String × Outline)}
    (h : o.named name = f :: fs) : ∃ others, fs = f.2.named name ++ others := by
  induction o generalizing fs with
  | done => cases h
  | plain i rest ih => exact ih h
  | function g body rest ihbody ih =>
    rw [named_function] at h
    split_ifs at h with hg
    · rw [List.append_assoc, List.singleton_append] at h
      obtain ⟨rfl, rfl⟩ := List.cons.inj h
      exact ⟨rest.named name, rfl⟩
    · rw [List.nil_append] at h
      cases hbody : body.named name with
      | nil => exact ih (by rwa [hbody, List.nil_append] at h)
      | cons g' gs =>
        rw [hbody, List.cons_append] at h
        obtain ⟨rfl, rfl⟩ := List.cons.inj h
        obtain ⟨others, rfl⟩ := ihbody hbody
        exact ⟨others ++ rest.named name, List.append_assoc ..⟩

/-- **If all other functions of a name are in the body of the first, its section is the last of that name.** -/
theorem exists_last_section {name : String} {f : String × Outline} (h : o.named name = f :: f.2.named name) (n : Nat) :
    ∃ before m after, o.sections n = before ++ sectionOf name (f.2.own m) :: after ∧
      ∀ s ∈ after, ∃ g ∈ o.functions, g.1 ≠ name ∧ ∃ m', s = sectionOf g.1 (g.2.own m') := by
  have hother : ∀ {o' : Outline} {k : Nat}, o'.named name = [] → ∀ s ∈ o'.sections k,
      ∃ g ∈ o'.functions, g.1 ≠ name ∧ ∃ m', s = sectionOf g.1 (g.2.own m') := by
    intro o' k hnil s hs
    obtain ⟨g, hg, m', rfl⟩ := exists_of_mem_sections hs
    exact ⟨g, hg, of_decide_eq_false (Bool.eq_false_of_not_eq_true (List.filter_eq_nil_iff.mp hnil g hg)), m', rfl⟩
  induction o generalizing n with
  | done => cases h
  | plain i rest ih => exact ih h _
  | function g body rest ihbody ih =>
    have hbodyfs : ∀ g' ∈ body.functions, g' ∈ (function g body rest).functions :=
      fun g' hg' => List.mem_cons_of_mem _ (List.mem_append_left _ hg')
    have hrestfs : ∀ g' ∈ rest.functions, g' ∈ (function g body rest).functions :=
      fun g' hg' => List.mem_cons_of_mem _ (List.mem_append_right _ hg')
    rw [sections_function]
    rw [named_function] at h
    split_ifs at h with hg
    · -- The function is the first of its name, and there is none behind it.
      rw [List.append_assoc, List.singleton_append] at h
      obtain ⟨rfl, hrest⟩ := List.cons.inj h
      refine ⟨body.sections n, n, rest.sections (body.code.run n).2, by rw [← hg], fun s hs => ?_⟩
      obtain ⟨g', hg', hne, hs⟩ := hother (List.append_right_eq_self.mp hrest) s hs
      exact ⟨g', hrestfs g' hg', hne, hs⟩
    · rw [List.nil_append] at h
      cases hbody : body.named name with
      | nil =>
        rw [hbody, List.nil_append] at h
        obtain ⟨before, m, after, hsections, hafter⟩ := ih h (body.code.run n).2
        refine ⟨body.sections n ++ sectionOf g (body.own n) :: before, m, after, ?_, fun s hs => ?_⟩
        · rw [hsections, List.append_assoc, List.cons_append]
        · obtain ⟨g', hg', hne, hs⟩ := hafter s hs
          exact ⟨g', hrestfs g' hg', hne, hs⟩
      | cons g' gs =>
        obtain ⟨others, rfl⟩ := exists_named_eq hbody
        rw [hbody, List.cons_append, List.append_assoc] at h
        obtain ⟨rfl, hnil⟩ := List.cons.inj h
        obtain ⟨rfl, hrest⟩ := List.append_eq_nil_iff.mp (List.append_right_eq_self.mp hnil)
        rw [List.append_nil] at hbody
        obtain ⟨before, m, after, hsections, hafter⟩ := ihbody hbody n
        refine ⟨before, m, after ++ sectionOf g (body.own n) :: rest.sections (body.code.run n).2, ?_, fun s hs => ?_⟩
        · rw [hsections, List.append_assoc, List.cons_append]
        · rcases List.mem_append.mp hs with hs | hs
          · obtain ⟨g', hg', hne, hs⟩ := hafter s hs
            exact ⟨g', hbodyfs g' hg', hne, hs⟩
          · rcases List.mem_cons.mp hs with rfl | hs
            · exact ⟨(g, body), List.mem_cons_self, hg, n, rfl⟩
            · obtain ⟨g', hg', hne, hs⟩ := hother hrest s hs
              exact ⟨g', hrestfs g' hg', hne, hs⟩

end Outline

end Dotlang
