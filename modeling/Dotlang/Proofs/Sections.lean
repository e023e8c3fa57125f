import Dotlang.Proofs.Calls
import Dotlang.Proofs.Control

/-!
# The sections of the assembly

The main program and every function have a section of their own, which ends with the first `RET` in it.

* `Confined exits made is` : the jumps outside the functions in `is` go to labels outside them, or to one of `exits`;
* `sectionFrom ls start` : the lines from a line on, up to the first `RET`;
* `InSection ls start pc` : a place in such a section;
* `Outline.exists_section` : every function of an outline has its section in the assembly, behind a `RET`;
* `Sectioned ls names` : what is needed of lines with the sections of the functions `names`;
* `sectioned_loaded` : the lines of a source, if no two functions have one name, none is called like a label, none is
  declared in a loop, and only functions that there are are called.
-/

namespace Dotlang

open Assembly (Line lines assemble sectionOf)
open Instruction (ofValue? jumpUnless jumpWhen ofStep branch isMark_ofValue? isMark_jumpUnless isMark_jumpWhen
  isMark_init isMark_step isMark_label isMark_jump_label)

/-! ## Jumps outside functions -/

/-- Outside the functions in `is` there are the labels `made`, and every jump goes to a label or to one of the exits. -/
def Confined (exits made : List Label) (is : List Instruction) : Prop :=
  ∃ o : Outline, o.Proper ∧ o.instructions = is ∧ Closed exits o.outside ∧ ∀ l ∈ made, .label l ∈ o.outside

namespace Confined

variable {exits made more : List Label} {is js : List Instruction} {l : Label}

theorem append (h : Confined exits made is) (h' : Confined exits more js) :
    Confined exits (made ++ more) (is ++ js) := by
  obtain ⟨a, ha, rfl, hclosed, hmade⟩ := h
  obtain ⟨b, hb, rfl, hclosed', hmade'⟩ := h'
  refine ⟨a.append b, ha.append hb, Outline.instructions_append a b, ?_, fun l hl => ?_⟩
  · rw [Outline.outside_append]
    exact hclosed.append hclosed'
  · rw [Outline.outside_append]
    rcases List.mem_append.mp hl with hl | hl
    · exact List.mem_append_left _ (hmade l hl)
    · exact List.mem_append_right _ (hmade' l hl)

theorem plain (hmark : ∀ i ∈ is, i.isMark = false) (hclosed : Closed exits is) (hmade : ∀ l ∈ made, .label l ∈ is) :
    Confined exits made is := by
  obtain ⟨o, ho, rfl, houtside, -⟩ := Outline.exists_plain hmark
  exact ⟨o, ho, rfl, houtside.symm ▸ hclosed, houtside.symm ▸ hmade⟩

theorem bare (hmark : ∀ i ∈ is, i.isMark = false) (hclosed : Closed exits is) : Confined exits [] is :=
  plain hmark hclosed fun _ hl => absurd hl List.not_mem_nil

theorem nil : Confined exits [] [] :=
  bare (fun _ hi => absurd hi List.not_mem_nil) (Closed.of_target? fun _ hi => absurd hi List.not_mem_nil)

theorem label (l : Label) : Confined exits [l] [.label l] :=
  plain (isMark_label l) (Closed.label l) (List.forall_mem_singleton.mpr List.mem_cons_self)

theorem jump_label {l' : Label} (h : l ∈ exits) : Confined exits [l'] [.jump l, .label l'] :=
  plain (isMark_jump_label l l') (Closed.append (Closed.jump h) (Closed.label l'))
    (List.forall_mem_singleton.mpr (List.mem_cons_of_mem _ List.mem_cons_self))

/-- What is inside a function is not outside. -/
theorem function (name : String) (h : Confined more made is) :
    Confined exits [] ([.functionBegin name] ++ is ++ [.functionEnd]) := by
  obtain ⟨o, ho, rfl, -, -⟩ := h
  refine ⟨.function name o .done, ⟨ho, trivial⟩, ?_, ?_, fun _ hl => absurd hl List.not_mem_nil⟩
  · simp only [Outline.instructions, List.cons_append, List.nil_append]
  · exact Closed.of_target? fun i hi => absurd hi List.not_mem_nil

theorem mono (h : Confined exits made is) (hsub : ∀ l ∈ exits, l ∈ more) : Confined more made is := by
  obtain ⟨o, ho, his, hclosed, hmade⟩ := h
  exact ⟨o, ho, his, hclosed.mono hsub, hmade⟩

theorem forget (h : Confined exits made is) : Confined exits [] is := by
  obtain ⟨o, ho, his, hclosed, -⟩ := h
  exact ⟨o, ho, his, hclosed, fun _ hl => absurd hl List.not_mem_nil⟩

/-- An exit whose label is among the instructions is none. -/
theorem discharge (h : Confined (l :: exits) made is) (hl : l ∈ made) : Confined exits made is := by
  obtain ⟨o, ho, his, hclosed, hmade⟩ := h
  exact ⟨o, ho, his, hclosed.discharge (hmade l hl), hmade⟩

theorem branch (cond : Option Chain) (exit next : Label) (h : Confined exits [] is) :
    Confined (exit :: exits) [] (Instruction.branch cond exit next is) := by
  have htest : Confined (next :: exit :: exits) [] (jumpUnless cond next) :=
    .bare (isMark_jumpUnless cond next) (Closed.jumpUnless List.mem_cons_self)
  have hbody : Confined (next :: exit :: exits) [] is :=
    h.mono fun l hl => List.mem_cons_of_mem _ (List.mem_cons_of_mem _ hl)
  have hend : Confined (next :: exit :: exits) [next] [.jump exit, .label next] :=
    .jump_label (List.mem_cons_of_mem _ List.mem_cons_self)
  exact (((htest.append hbody).append hend).discharge List.mem_cons_self).forget

/-- What is around the body of a loop: jumps to its start and to its exit. -/
theorem loop {start exit : Label} (h : Confined (start :: exit :: exits) made is) (hstart : start ∈ made)
    (hexit : exit ∈ made) : Confined exits [] is := ((h.discharge hstart).discharge hexit).forget

/-- The body of a loop may leave it. -/
theorem inLoop {start exit : Label} (h : Confined [exit] [] is) : Confined (start :: exit :: exits) [] is :=
  h.mono (List.forall_mem_singleton.mpr (List.mem_cons_of_mem _ List.mem_cons_self))

end Confined

mutual

theorem Statement.confined (table : SymbolTable) :
    ∀ (loopExit : Option Label) (s : Statement) (n : Nat),
      Confined loopExit.toList [] ((s.lower table loopExit).run n).1
  | loopExit, .block _ body, n => confined_body table loopExit body n
  | _, .declare _ d, _ => .bare (isMark_ofValue? _ _) (Closed.ofValue? _ _)
  | _, .assign _ name value, _ => .bare (isMark_ofValue? _ _) (Closed.ofValue? _ _)
  | _, .call _ name args builtin, _ =>
    .bare (List.forall_mem_singleton.mpr rfl)
      (Closed.of_target? fun i hi l hl => by rw [List.mem_singleton.mp hi] at hl; cases hl)
  | loopExit, .function _ name params body, n => by
    simp only [Statement.lower, run_bind, run_pure]
    exact .function name (confined_body table loopExit body n)
  | loopExit, .conditional _ cond body alternatives, n => by
    simp only [Statement.lower, run_bind, run_pure, run_newLabel]
    have hbranch := (confined_body table loopExit body (n + 1 + 1)).branch cond ⟨n + 1⟩ ⟨n + 1 + 1⟩
    have hothers := Alternatives.confined table loopExit ⟨n + 1⟩ alternatives
      ((lowerBody table loopExit body).run (n + 1 + 1)).2
    exact (((hbranch.append hothers).append (.label ⟨n + 1⟩)).discharge (List.mem_singleton_self _)).forget
  | loopExit, .whileLoop _ cond body, n => by
    simp only [Statement.lower, run_bind, run_pure, run_newLabel]
    have hbody := confined_body table (some ⟨n + 1 + 1⟩) body (n + 1 + 1)
    have htest : Closed (⟨n + 1⟩ :: ⟨n + 1 + 1⟩ :: loopExit.toList) (jumpUnless cond ⟨n + 1 + 1⟩) :=
      Closed.jumpUnless (List.mem_cons_of_mem _ List.mem_cons_self)
    refine Confined.loop (((Confined.append (.label ⟨n + 1⟩) (.bare (isMark_jumpUnless cond _) htest)).append
      hbody.inLoop).append (.jump_label List.mem_cons_self)) ?_ ?_ <;> simp
  | loopExit, .doWhile _ body cond, n => by
    simp only [Statement.lower, run_bind, run_pure, run_newLabel]
    have hbody := confined_body table (some ⟨n + 1 + 1⟩) body (n + 1 + 1)
    have htest : Closed (⟨n + 1⟩ :: ⟨n + 1 + 1⟩ :: loopExit.toList) (jumpWhen cond ⟨n + 1⟩) :=
      Closed.jumpWhen List.mem_cons_self
    refine Confined.loop (((Confined.append (.label ⟨n + 1⟩) hbody.inLoop).append
      (.bare (isMark_jumpWhen cond _) htest)).append (.label ⟨n + 1 + 1⟩)) ?_ ?_ <;> simp
  | loopExit, .counting _ init cond step body, n => by
    simp only [Statement.lower, run_bind, run_pure, run_newLabel]
    have hbody := confined_body table (some ⟨n + 1 + 1⟩) body (n + 1 + 1)
    have htest : Closed (⟨n + 1⟩ :: ⟨n + 1 + 1⟩ :: loopExit.toList) (jumpUnless cond ⟨n + 1 + 1⟩) :=
      Closed.jumpUnless (List.mem_cons_of_mem _ List.mem_cons_self)
    refine Confined.loop (((((Confined.append (.bare (isMark_init init) (Closed.init init)) (.label ⟨n + 1⟩)).append
      (.bare (isMark_jumpUnless cond _) htest)).append hbody.inLoop).append
      (.bare (isMark_step step) (Closed.step step))).append (.jump_label List.mem_cons_self)) ?_ ?_ <;> simp
  | none, .brk _, _ => .nil
  | some label, .brk _, _ => .bare (List.forall_mem_singleton.mpr rfl) (Closed.jump List.mem_cons_self)

/-- **Outside functions, the jumps of a body go to labels outside functions or leave the loop around the body.** -/
theorem confined_body (table : SymbolTable) :
    ∀ (loopExit : Option Label) (body : List Statement) (n : Nat),
      Confined loopExit.toList [] ((lowerBody table loopExit body).run n).1
  | _, [], _ => .nil
  | loopExit, s :: ss, n => by
    simp only [lowerBody, run_bind, run_pure]
    exact (s.confined table loopExit n).append (confined_body table loopExit ss _)

theorem Alternatives.confined (table : SymbolTable) :
    ∀ (loopExit : Option Label) (exit : Label) (a : Alternatives) (n : Nat),
      Confined (exit :: loopExit.toList) [] ((a.lower table loopExit exit).run n).1
  | _, _, .done, _ => .nil
  | loopExit, _, .otherwise body, n =>
    (confined_body table loopExit body n).mono fun l hl => List.mem_cons_of_mem _ hl
  | loopExit, exit, .branch cond body rest, n => by
    simp only [Alternatives.lower, run_bind, run_pure, run_newLabel]
    exact ((confined_body table loopExit body (n + 1)).branch cond exit ⟨n + 1⟩).append
      (Alternatives.confined table loopExit exit rest ((lowerBody table loopExit body).run (n + 1)).2)

end

/-! ## Places -/

/-- The lines from a line on, up to the first `RET`. -/
def sectionFrom (ls : List Line) (start : Nat) : List Line := (ls.drop start).takeWhile (· ≠ .ret)

/-- A place in the section that begins at a line: at one of its lines, or behind the last of them. -/
def InSection (ls : List Line) (start pc : Nat) : Prop := start ≤ pc ∧ pc ≤ start + (sectionFrom ls start).length

section Places

variable {ls code : List Line} {l : Line} {start pc i : Nat}

theorem sectionFrom_of_placed (h : Placed ls start (code ++ [.ret])) (hret : .ret ∉ code) :
    sectionFrom ls start = code := by
  obtain ⟨before, after, rfl, rfl⟩ := h
  have hcode : ∀ l ∈ code, decide (l ≠ .ret) = true := fun l hl => decide_eq_true fun heq => hret (heq ▸ hl)
  rw [sectionFrom, List.append_assoc, List.drop_left, List.append_assoc, List.takeWhile_append_of_pos hcode,
    List.singleton_append, List.takeWhile_cons_of_neg (by simp), List.append_nil]

theorem getElem?_sectionFrom (h : i < (sectionFrom ls start).length) : (sectionFrom ls start)[i]? = ls[start + i]? := by
  rw [← List.getElem?_drop, ← List.takeWhile_append_dropWhile (p := (· ≠ Line.ret)) (l := ls.drop start)]
  exact (List.getElem?_append_left h).symm

/-- What follows a section is a `RET`, if anything. -/
theorem eq_ret_of_getElem? (h : ls[start + (sectionFrom ls start).length]? = some l) : l = .ret := by
  have hhead : ((ls.drop start).dropWhile (· ≠ Line.ret)).head? = some l := by
    rw [← List.getElem?_drop, ← List.takeWhile_append_dropWhile (p := (· ≠ Line.ret)) (l := ls.drop start),
      sectionFrom, List.getElem?_append_right (Nat.le_refl _), Nat.sub_self] at h
    rwa [List.head?_eq_getElem?]
  have hstop := List.head?_dropWhile_not (· ≠ Line.ret) (ls.drop start)
  rw [hhead] at hstop
  simpa using hstop

theorem ret_not_mem_sectionFrom : .ret ∉ sectionFrom ls start := fun h => by
  have hret := List.mem_takeWhile_imp h
  simp at hret

namespace InSection

theorem self (ls : List Line) (start : Nat) : InSection ls start start := ⟨Nat.le_refl start, Nat.le_add_right _ _⟩

theorem lt (h : InSection ls start pc) (hl : ls[pc]? = some l) (hne : l ≠ .ret) :
    pc < start + (sectionFrom ls start).length := by
  refine lt_of_le_of_ne h.2 ?_
  rintro rfl
  exact hne (eq_ret_of_getElem? hl)

/-- No section is left to the next line but by a `RET`. -/
theorem next (h : InSection ls start pc) (hl : ls[pc]? = some l) (hne : l ≠ .ret) : InSection ls start (pc + 1) :=
  ⟨h.1.trans (Nat.le_succ pc), h.lt hl hne⟩

theorem mem (h : InSection ls start pc) (hl : ls[pc]? = some l) (hne : l ≠ .ret) : l ∈ sectionFrom ls start := by
  have hlt := h.lt hl hne
  obtain ⟨i, rfl⟩ := Nat.exists_eq_add_of_le h.1
  exact List.mem_of_getElem? ((getElem?_sectionFrom (by omega)).trans hl)

theorem of_mem (h : l ∈ sectionFrom ls start) : ∃ pc, ls[pc]? = some l ∧ InSection ls start pc := by
  obtain ⟨i, hi⟩ := List.mem_iff_getElem?.mp h
  have hlt := (List.getElem?_eq_some_iff.mp hi).1
  exact ⟨start + i, (getElem?_sectionFrom hlt).symm.trans hi, Nat.le_add_right _ _, by omega⟩

/-- No `RET` stands between the begin of a section and a place in it. -/
theorem ne_ret (h : InSection ls start pc) {k : Nat} (hk : start ≤ k) (hlt : k < pc) : ls[k]? ≠ some .ret := by
  intro hret
  obtain ⟨i, rfl⟩ := Nat.exists_eq_add_of_le hk
  have hle := h.2
  exact ret_not_mem_sectionFrom (List.mem_of_getElem? ((getElem?_sectionFrom (by omega)).trans hret))

end InSection

end Places

/-! ## The sections of an outline -/

theorem Confined.closed {o : Outline} {exits made : List Label} (h : Confined exits made o.instructions)
    (ho : o.Proper) : Closed exits o.outside := by
  obtain ⟨o', ho', heq, hclosed, -⟩ := h
  rwa [Outline.eq_of_instructions ho' ho heq] at hclosed

namespace Outline

variable {o : Outline} {n : Nat}

theorem ret_not_mem_own : .ret ∉ o.own n := by
  intro h
  obtain ⟨i, -, m, hmem⟩ := exists_of_mem_own h
  rcases Assembly.isStraight_or_leadsAway hmem with hstraight | haway
  · cases hstraight
  · cases haway

theorem label_mem_own {l : Label} (h : .label l ∈ o.outside) (n : Nat) : .label l.name ∈ o.own n := by
  induction o generalizing n with
  | done => cases h
  | plain i rest ih =>
    rw [own_plain]
    rcases List.mem_cons.mp h with rfl | h
    · exact List.mem_append_left _ List.mem_cons_self
    · exact List.mem_append_right _ (ih h _)
  | function f body rest _ ih => exact ih h _

/-- Where jumps go to labels outside functions, they go to lines there. -/
theorem exists_label_of_jump (hclosed : Closed [] o.outside) {line : Line} (h : line ∈ o.own n) {name : String}
    (hjump : line = .jump name ∨ ∃ r, line = .jumpIf r name) : ∃ l : Label, .label l ∈ o.outside ∧ l.name = name := by
  obtain ⟨i, hi, m, hmem⟩ := exists_of_mem_own h
  obtain ⟨l, htarget, hname⟩ := Assembly.target?_of_jump_mem_lines hmem hjump
  exact ⟨l, (hclosed i hi l htarget).resolve_left List.not_mem_nil, hname⟩

theorem exists_section_of_mem {f : String × Outline} (hf : f ∈ o.functions) (n : Nat) :
    ∃ m, sectionOf f.1 (f.2.own m) ∈ o.sections n := by
  induction o generalizing n with
  | done => cases hf
  | plain i rest ih => exact ih hf _
  | function g body rest ihbody ih =>
    rw [sections_function]
    rcases List.mem_cons.mp hf with rfl | hf
    · exact ⟨n, List.mem_append_right _ List.mem_cons_self⟩
    · rcases List.mem_append.mp hf with hf | hf
      · obtain ⟨m, hm⟩ := ihbody hf n
        exact ⟨m, List.mem_append_left _ hm⟩
      · obtain ⟨m, hm⟩ := ih hf (body.code.run n).2
        exact ⟨m, List.mem_append_right _ (List.mem_cons_of_mem _ hm)⟩

/-- Ahead of a section stands the `RET` of the one before, or that of the main program. -/
theorem exists_ret_ahead (before : List (List Line)) (h : ∀ s ∈ before, ∃ f inside, s = sectionOf f inside) :
    ∃ ahead, .ret :: before.flatten = ahead ++ [.ret] := by
  rcases List.eq_nil_or_concat before with rfl | ⟨others, s, rfl⟩
  · exact ⟨[], rfl⟩
  · obtain ⟨f, inside, rfl⟩ := h s (by simp)
    refine ⟨.ret :: (others.flatten ++ .label f :: inside), ?_⟩
    simp [sectionOf]

/-- **Every function has its section in the assembly, behind a `RET`.** -/
theorem exists_section (ho : o.Proper) {f : String × Outline} (hf : f ∈ o.functions) :
    ∃ m k, (assemble o.instructions)[k]? = some .ret ∧
      Placed (assemble o.instructions) (k + 1) (sectionOf f.1 (f.2.own m)) := by
  obtain ⟨m, hm⟩ := exists_section_of_mem hf 0
  obtain ⟨before, after, hsections⟩ := List.append_of_mem hm
  obtain ⟨ahead, hahead⟩ := exists_ret_ahead before fun s hs => by
    have hmem : s ∈ o.sections 0 := hsections ▸ List.mem_append_left _ hs
    obtain ⟨g, -, m', rfl⟩ := exists_of_mem_sections hmem
    exact ⟨g.1, g.2.own m', rfl⟩
  have hne : (o.sections 0).flatten ≠ [] := by
    rw [hsections]
    simp [sectionOf]
  have hassemble : assemble o.instructions =
      (o.own 0 ++ ahead) ++ .ret :: (sectionOf f.1 (f.2.own m) ++ after.flatten) := by
    rw [assemble_instructions ho, if_neg hne, hsections, List.flatten_append, List.flatten_cons, ← List.cons_append,
      hahead]
    simp only [List.append_assoc, List.cons_append, List.nil_append]
  refine ⟨m, (o.own 0 ++ ahead).length, ?_, o.own 0 ++ ahead ++ [.ret], after.flatten, ?_, ?_⟩
  · rw [hassemble, List.getElem?_append_right (Nat.le_refl _), Nat.sub_self]
    rfl
  · rw [hassemble]
    simp only [List.append_assoc, List.cons_append, List.nil_append]
  · rw [List.length_append, List.length_singleton]

end Outline

/-! ## Sections for functions -/

/-- Where a section begins: with the first line, or with the label of one of the functions. -/
def Begins (ls : List Line) (names : List String) (start : Nat) : Prop :=
  start = 0 ∨ ∃ f ∈ names, ls[start]? = some (.label f)

/-- Lines in which functions have sections that are entered by calls only. -/
structure Sectioned (ls : List Line) (names : List String) : Prop where
  once : ∀ f ∈ names, ls.count (.label f) = 1
  called : ∀ (k : Nat) (f : String) (args : List String), ls[k]? = some (.call f args) →
    Machine.isBuiltin f = false → f ∈ names
  behind : ∀ f ∈ names, ∀ k : Nat, ls[k]? = some (.label f) → ∃ j, k = j + 1 ∧ ls[j]? = some .ret
  jumps : ∀ start, Begins ls names start → ∀ line ∈ sectionFrom ls start, ∀ name,
    (line = .jump name ∨ ∃ r, line = .jumpIf r name) →
      .label name ∈ sectionFrom ls start ∧ ls.count (.label name) = 1

namespace Sectioned

variable {ls : List Line} {names : List String} {start start' pc k : Nat}

/-- A jump goes to its own section. -/
theorem jump (h : Sectioned ls names) (hstart : Begins ls names start) (hpc : InSection ls start pc) {line : Line}
    {name : String} (hline : ls[pc]? = some line) (hjump : line = .jump name ∨ ∃ r, line = .jumpIf r name)
    (hk : ls[k]? = some (.label name)) : InSection ls start k := by
  have hne : line ≠ .ret := by
    rintro rfl
    obtain hjump | ⟨r, hjump⟩ := hjump <;> cases hjump
  obtain ⟨hlabel, honce⟩ := h.jumps start hstart line (hpc.mem hline hne) name hjump
  obtain ⟨j, hj, hin⟩ := InSection.of_mem hlabel
  rwa [Machine.eq_of_label hk hj honce.le]

/-- Two sections have no place in common. -/
theorem start_unique (h : Sectioned ls names) (hstart : Begins ls names start) (hstart' : Begins ls names start')
    (hpc : InSection ls start pc) (hpc' : InSection ls start' pc) : start = start' := by
  have hle {a b : Nat} (hb : Begins ls names b) (ha : InSection ls a pc) (hb' : InSection ls b pc) : b ≤ a := by
    obtain rfl | ⟨f, hf, hlabel⟩ := hb
    · exact Nat.zero_le a
    · obtain ⟨j, rfl, hret⟩ := h.behind f hf b hlabel
      exact Nat.lt_of_not_le fun hj => ha.ne_ret hj hb'.1 hret
  exact Nat.le_antisymm (hle hstart hpc' hpc) (hle hstart' hpc hpc')

end Sectioned

/-! ## The sections of a source -/

/-- Names of functions that no label of lowering has stand on as many lines as functions of this name are declared. -/
theorem count_bears_of_ne {name : String} (hname : ∀ l : Label, name ≠ l.name) (is : List Instruction) :
    (is.filterMap Instruction.bears?).count name = (is.filterMap Instruction.begun?).count name := by
  induction is with
  | nil => rfl
  | cons i is ih =>
    cases i with
    | label l =>
      have hother : ¬l.name = name := fun h => hname l h.symm
      simp only [List.filterMap_cons, Instruction.bears?, Instruction.begun?, List.count_cons, beq_iff_eq, hother,
        if_false, Nat.add_zero, ih]
    | _ => simp only [List.filterMap_cons, Instruction.bears?, Instruction.begun?, List.count_cons, ih]

theorem Declared.exists_lowered {table : SymbolTable} {ds : List Declared} {fs : List (String × Outline)}
    (h : List.Forall₂ (Declared.Lowers table) ds fs) {d : Declared} (hd : d ∈ ds) : ∃ f ∈ fs, d.Lowers table f := by
  induction h with
  | nil => cases hd
  | cons hlowers _ ih =>
    rcases List.mem_cons.mp hd with rfl | hd
    · exact ⟨_, List.mem_cons_self, hlowers⟩
    · obtain ⟨f, hf, hlowers⟩ := ih hd
      exact ⟨f, List.mem_cons_of_mem _ hf, hlowers⟩

/-- The names of the functions that a source declares. -/
def Analysis.functionNames (a : Analysis) : List String := (bodyFunctions false a.body).map Declared.name

/-- Each name is that of one function and of no label, no function is declared in a loop, and every function that is
called and not built in is declared. -/
structure Analysis.Callable (a : Analysis) : Prop where
  names : a.functionNames.Nodup
  labels : ∀ f ∈ a.functionNames, ∀ l : Label, f ≠ l.name
  loops : ∀ d ∈ bodyFunctions false a.body, d.inLoop = false
  calls : ∀ pos f args, .call pos f args false ∈ bodyNodes a.body → f ≠ "showout" → f ∈ a.functionNames

/-- An outline of which no jump outside functions leads away from there, in the instructions of a source. -/
structure Outline.Enclosed (source : String) (o : Outline) : Prop where
  closed : Closed [] o.outside
  subset : o.outside ⊆ lower (analyze source).symbols (analyze source).body

/-- The section of the main program. -/
theorem exists_main_section (source : String) :
    ∃ o : Outline, o.Proper ∧ o.instructions = lower (analyze source).symbols (analyze source).body ∧
      o.Enclosed source ∧ sectionFrom (analyze source).lines 0 = o.own 0 := by
  obtain ⟨o, ho, hlower, -⟩ := outlined_lower (analyze source).symbols (analyze source).body
  have hconfined : Confined [] [] (lower (analyze source).symbols (analyze source).body) :=
    confined_body (analyze source).symbols none (analyze source).body 0
  rw [← hlower] at hconfined
  refine ⟨o, ho, hlower, ⟨hconfined.closed ho, hlower ▸ o.outside_subset⟩, ?_⟩
  have hown : ∀ l ∈ o.own 0, decide (l ≠ .ret) = true :=
    fun l hl => decide_eq_true fun heq => Outline.ret_not_mem_own (heq ▸ hl)
  rw [sectionFrom, List.drop_zero, Analysis.lines, ← hlower, assemble_instructions ho,
    List.takeWhile_append_of_pos hown]
  split_ifs
  · rw [List.takeWhile_nil, List.append_nil]
  · rw [List.takeWhile_cons_of_neg (by simp), List.append_nil]

section Source

variable {source : String} (h : (analyze source).Callable)
include h

/-- A function that a source declares has a section with its instructions, behind a `RET`. -/
theorem exists_section_of_declared {d : Declared} (hd : d ∈ bodyFunctions false (analyze source).body) :
    ∃ (g : Outline) (m k : Nat), d.Lowers (analyze source).symbols (d.name, g) ∧ g.Enclosed source ∧
      (analyze source).lines[k]? = some .ret ∧ Placed (analyze source).lines (k + 1) (sectionOf d.name (g.own m)) := by
  obtain ⟨o, ho, hlower, hds⟩ := outlined_lower (analyze source).symbols (analyze source).body
  obtain ⟨⟨f, g⟩, hf, hlowers⟩ := Declared.exists_lowered hds hd
  obtain ⟨m, k, hret, hplaced⟩ := Outline.exists_section ho hf
  obtain rfl : f = d.name := hlowers.1
  have hclosed : Closed [] g.outside := by
    obtain ⟨-, loopExit, n, hloop, hinstructions⟩ := hlowers
    rw [h.loops d hd, Option.isSome_eq_false_iff, Option.isNone_iff_eq_none] at hloop
    have hconfined := confined_body (analyze source).symbols loopExit d.body n
    rw [← hinstructions, hloop] at hconfined
    exact hconfined.closed (ho.of_mem_functions hf)
  have hsubset : g.instructions ⊆ o.instructions := by
    obtain ⟨before, after, hbegin⟩ := Outline.exists_begin_of_mem hf
    rw [hbegin]
    exact fun i hi => List.mem_append_right _ (List.mem_cons_of_mem _ (List.mem_append_left _ hi))
  rw [hlower] at hret hplaced hsubset
  exact ⟨g, m, k, hlowers, ⟨hclosed, List.Subset.trans g.outside_subset hsubset⟩, hret, hplaced⟩

theorem count_label_function {f : String} (hf : f ∈ (analyze source).functionNames) :
    (analyze source).lines.count (.label f) = 1 := by
  obtain ⟨o, ho, hlower, -⟩ := outlined_lower (analyze source).symbols (analyze source).body
  rw [Analysis.lines, ← hlower, count_label_assemble ho, count_bears_of_ne (h.labels f hf), hlower,
    filterMap_begun_lower]
  exact List.count_eq_one_of_mem h.names hf

/-- The label that a jump outside functions goes to stands on one line, and that line is outside functions too. -/
theorem Outline.Enclosed.label {o : Outline} (ho : o.Enclosed source) {m : Nat} {line : Line} (hline : line ∈ o.own m)
    {name : String} (hjump : line = .jump name ∨ ∃ r, line = .jumpIf r name) :
    .label name ∈ o.own m ∧ (analyze source).lines.count (.label name) = 1 := by
  obtain ⟨l, hl, rfl⟩ := exists_label_of_jump ho.closed hline hjump
  exact ⟨label_mem_own hl m, count_label_lower (ho.subset hl) fun d hd => h.labels _ (List.mem_map_of_mem hd) l⟩

theorem sectioned_lines : Sectioned (analyze source).lines (analyze source).functionNames where
  once f hf := count_label_function h hf
  called k f args hline hbuiltin := by
    obtain ⟨-, pos, args, -, hs, -, -⟩ := exists_placed_call hline hbuiltin
    refine h.calls pos f args hs ?_
    rintro rfl
    exact absurd hbuiltin (by decide)
  behind f hf k hk := by
    have honce := count_label_function h hf
    obtain ⟨d, hd, rfl⟩ := List.mem_map.mp hf
    obtain ⟨g, m, j, -, -, hret, hplaced⟩ := exists_section_of_declared h hd
    exact ⟨j, Machine.eq_of_label hk hplaced.left.head honce.le, hret⟩
  jumps start hstart line hline name hjump := by
    obtain rfl | ⟨f, hf, hlabel⟩ := hstart
    · obtain ⟨o, -, -, ho, hmain⟩ := exists_main_section source
      rw [hmain] at hline ⊢
      exact ho.label h hline hjump
    · have honce := count_label_function h hf
      obtain ⟨d, hd, rfl⟩ := List.mem_map.mp hf
      obtain ⟨g, m, j, -, hg, -, hplaced⟩ := exists_section_of_declared h hd
      obtain rfl := Machine.eq_of_label hlabel hplaced.left.head honce.le
      have hret : Line.ret ∉ .label d.name :: g.own m := by
        simp [Outline.ret_not_mem_own]
      rw [sectionFrom_of_placed hplaced hret] at hline ⊢
      rcases List.mem_cons.mp hline with rfl | hline
      · obtain hjump | ⟨r, hjump⟩ := hjump <;> cases hjump
      · obtain ⟨hname, hcount⟩ := hg.label h hline hjump
        exact ⟨List.mem_cons_of_mem _ hname, hcount⟩

/-- **The functions of a source have sections that are entered by calls only.** -/
theorem sectioned_loaded : Sectioned (analyze source).loaded (analyze source).functionNames := by
  have hlines := sectioned_lines h
  unfold Analysis.loaded
  split_ifs with hnil
  · -- Without lines there is no function.
    have hnone : (analyze source).functionNames = [] := List.eq_nil_iff_forall_not_mem.mpr fun f hf => by
      have honce := hlines.once f hf
      rw [hnil] at honce
      cases honce
    have hblank {k : Nat} {l : Line} (hl : [Line.blank][k]? = some l) : l = .blank :=
      List.mem_singleton.mp (List.mem_of_getElem? hl)
    rw [hnone]
    refine ⟨fun f hf => absurd hf List.not_mem_nil, fun k f args hcall => ?_, fun f hf => absurd hf List.not_mem_nil,
      fun start _ line hline name hjump => ?_⟩
    · cases hblank hcall
    · obtain ⟨k, hk, -⟩ := InSection.of_mem hline
      obtain rfl := hblank hk
      obtain hjump | ⟨r, hjump⟩ := hjump <;> cases hjump
  · exact hlines

end Source

end Dotlang
