import Dotlang.Proofs.Hoisting
import Dotlang.Proofs.Nesting

/-!
# Hoisting is a rearrangement

Every instruction is at home in the innermost function around it, or in none. The assembly of well nested instructions
is what is at home in no function, and then the functions in the order in which they end.

* `Site`, `homes` : a function by the place where it begins, and the home of every instruction;
* `pieces` : the lines of every instruction, with scratch variables numbered through;
* `atHome`, `ended` : the lines of the instructions with one home, and the functions in the order in which they end;
* `perm_ended` : every function ends once;
* `atHome_outline`, `sections_eq_map` : what an outline puts where;
* `hoisting_is_faithful` : the assembly in these terms.
-/

namespace Dotlang

open Assembly (Line lines linesOf assemble sectionOf)

/-! ## Homes -/

/-- A function, by the place of its begin and its name. -/
structure Site where
  place : Nat
  name : String
  deriving DecidableEq

/-- The functions that are open behind an instruction at `place`, innermost first, given those open before it. -/
def Instruction.openBehind (place : Nat) (opened : List Site) : Instruction → List Site
  | functionBegin name => ⟨place, name⟩ :: opened
  | functionEnd => opened.tail
  | _ => opened

/-- For every instruction the innermost function around it. The first instruction is at `place`, where the functions
`opened` are open. The end of a function is in it, the begin is not. -/
def homes : (place : Nat) → (opened : List Site) → List Instruction → List (Option Site)
  | _, _, [] => []
  | place, opened, i :: is => opened.head? :: homes (place + 1) (i.openBehind place opened) is

/-- The lines of every instruction. Scratch variables are numbered through from `n`. -/
def pieces : (n : Nat) → List Instruction → List (List Line)
  | _, [] => []
  | n, i :: is => ((lines i).run n).1 :: pieces ((lines i).run n).2 is

/-- The pieces with the given home. -/
def atHome (home : Option Site) (hs : List (Option Site)) (ps : List (List Line)) : List Line :=
  (hs.zip ps).flatMap fun x => if x.1 = home then x.2 else []

/-- The functions in the order of their ends. -/
def ended (hs : List (Option Site)) (is : List Instruction) : List Site :=
  (hs.zip is).filterMap fun x => if x.2 = .functionEnd then x.1 else none

/-- The functions, in the order in which they begin. -/
def sites : (place : Nat) → List Instruction → List Site
  | _, [] => []
  | place, .functionBegin name :: is => ⟨place, name⟩ :: sites (place + 1) is
  | place, _ :: is => sites (place + 1) is

/-- The functions that are open behind instructions, the first of them at `place`. -/
def openAfter : (place : Nat) → (opened : List Site) → List Instruction → List Site
  | _, opened, [] => opened
  | place, opened, i :: is => openAfter (place + 1) (i.openBehind place opened) is

/-- What a function adds to the lines of the instructions in it. -/
def Site.frame (s : Site) : List Line := [.label s.name, .ret]

/-! ## Lists in two parts -/

theorem length_homes (place : Nat) (opened : List Site) (is : List Instruction) :
    (homes place opened is).length = is.length := by
  induction is generalizing place opened with
  | nil => rfl
  | cons i is ih => exact congrArg Nat.succ (ih _ _)

theorem length_pieces (n : Nat) (is : List Instruction) : (pieces n is).length = is.length := by
  induction is generalizing n with
  | nil => rfl
  | cons i is ih => exact congrArg Nat.succ (ih _)

theorem sites_append (place : Nat) (is js : List Instruction) :
    sites place (is ++ js) = sites place is ++ sites (place + is.length) js := by
  induction is generalizing place with
  | nil => rfl
  | cons i is ih =>
    have hplace : place + (i :: is).length = place + 1 + is.length := by
      rw [List.length_cons]
      omega
    rw [List.cons_append, hplace]
    cases i <;> simp only [sites, ih, List.cons_append]

theorem openAfter_append (place : Nat) (opened : List Site) (is js : List Instruction) :
    openAfter place opened (is ++ js) = openAfter (place + is.length) (openAfter place opened is) js := by
  induction is generalizing place opened with
  | nil => rfl
  | cons i is ih =>
    rw [List.cons_append, openAfter, openAfter, ih, List.length_cons, Nat.add_right_comm, Nat.add_assoc]

theorem homes_append (place : Nat) (opened : List Site) (is js : List Instruction) :
    homes place opened (is ++ js) =
      homes place opened is ++ homes (place + is.length) (openAfter place opened is) js := by
  induction is generalizing place opened with
  | nil => rfl
  | cons i is ih =>
    rw [List.cons_append, homes, homes, openAfter, ih, List.length_cons, Nat.add_right_comm, Nat.add_assoc,
      List.cons_append]

theorem pieces_append (n : Nat) (is js : List Instruction) :
    pieces n (is ++ js) = pieces n is ++ pieces ((linesOf is).run n).2 js := by
  induction is generalizing n with
  | nil => rfl
  | cons i is ih =>
    rw [List.cons_append, pieces, pieces, ih, List.cons_append]
    rfl

theorem place_of_mem_sites {place : Nat} {is : List Instruction} {s : Site} (h : s ∈ sites place is) :
    place ≤ s.place ∧ s.place < place + is.length := by
  induction is generalizing place with
  | nil => cases h
  | cons i is ih =>
    have hrest : s ∈ sites (place + 1) is → place ≤ s.place ∧ s.place < place + (i :: is).length := by
      intro hs
      obtain ⟨hle, hlt⟩ := ih hs
      rw [List.length_cons]
      omega
    cases i with
    | functionBegin name =>
      rcases List.mem_cons.mp h with rfl | h
      · exact ⟨Nat.le_refl place, Nat.lt_add_of_pos_right (Nat.zero_lt_succ _)⟩
      · exact hrest h
    | _ => exact hrest h

section Parts

variable {home : Option Site} {hs hs' : List (Option Site)} {ps ps' : List (List Line)} {is js : List Instruction}

theorem atHome_append (h : hs.length = ps.length) :
    atHome home (hs ++ hs') (ps ++ ps') = atHome home hs ps ++ atHome home hs' ps' := by
  rw [atHome, List.zip_append h, List.flatMap_append]
  rfl

theorem atHome_eq_nil (h : home ∉ hs) : atHome home hs ps = [] := by
  refine List.flatMap_eq_nil_iff.mpr fun x hx => if_neg fun hhome => h ?_
  exact hhome ▸ (List.of_mem_zip hx).1

theorem atHome_cons (h : Option Site) (p : List Line) :
    atHome home (h :: hs) (p :: ps) = (if h = home then p else []) ++ atHome home hs ps := rfl

theorem ended_append (h : hs.length = is.length) : ended (hs ++ hs') (is ++ js) = ended hs is ++ ended hs' js := by
  rw [ended, List.zip_append h, List.filterMap_append]
  rfl

end Parts

/-! ## Homes in an outline -/

namespace Outline

variable {o body : Outline} {name : String} {n place : Nat} {opened : List Site} {is : List Instruction}

theorem openBehind_plain {i : Instruction} (hi : i.isMark = false) : i.openBehind place opened = opened := by
  cases i <;> first | rfl | cases hi

/-- Behind an outline the same functions are open as before it. -/
theorem openAfter_instructions (ho : o.Proper) (place : Nat) (opened : List Site) :
    openAfter place opened o.instructions = opened := by
  induction o generalizing place opened with
  | done => rfl
  | plain i rest ih => rw [instructions, openAfter, openBehind_plain ho.1, ih ho.2]
  | function name body rest ihbody ih =>
    rw [instructions, List.cons_append, openAfter, Instruction.openBehind, openAfter_append, ihbody ho.1, openAfter]
    exact ih ho.2 _ _

/-- The scratch variables of an outline are those of its instructions. -/
theorem run_code_snd (o : Outline) (n : Nat) : (o.code.run n).2 = ((linesOf o.instructions).run n).2 := by
  induction o generalizing n with
  | done => rfl
  | plain i rest ih => exact ih _
  | function name body rest ihbody ih =>
    have hcode : ((function name body rest).code.run n).2 = (rest.code.run (body.code.run n).2).2 := rfl
    rw [hcode, ih, ihbody, instructions, Assembly.linesOf_append]
    rfl

theorem homes_plain {i : Instruction} (hi : i.isMark = false) :
    homes place opened (i :: is) = opened.head? :: homes (place + 1) opened is := by
  rw [homes, openBehind_plain hi]

/-- The homes in a function and behind it. -/
theorem homes_function (hbody : body.Proper) :
    homes place opened (.functionBegin name :: (body.instructions ++ .functionEnd :: is)) =
      opened.head? :: (homes (place + 1) (⟨place, name⟩ :: opened) body.instructions ++
        some ⟨place, name⟩ :: homes (place + 1 + body.instructions.length + 1) opened is) := by
  rw [homes, Instruction.openBehind, homes_append, openAfter_instructions hbody]
  rfl

/-- The pieces of a function and of what is behind it. -/
theorem pieces_function (name : String) (body : Outline) (n : Nat) (is : List Instruction) :
    pieces n (.functionBegin name :: (body.instructions ++ .functionEnd :: is)) =
      [] :: (pieces n body.instructions ++ [] :: pieces (body.code.run n).2 is) := by
  rw [pieces, run_code_snd]
  exact congrArg (List.cons []) (pieces_append n _ _)

/-- What is at home somewhere in a function and behind it. -/
theorem atHome_function (hbody : body.Proper) (home : Option Site) :
    atHome home (homes place opened (.functionBegin name :: (body.instructions ++ .functionEnd :: is)))
        (pieces n (.functionBegin name :: (body.instructions ++ .functionEnd :: is))) =
      atHome home (homes (place + 1) (⟨place, name⟩ :: opened) body.instructions) (pieces n body.instructions) ++
        atHome home (homes (place + 1 + body.instructions.length + 1) opened is) (pieces (body.code.run n).2 is) := by
  rw [homes_function hbody, pieces_function, atHome_cons,
    atHome_append ((length_homes ..).trans (length_pieces ..).symm), atHome_cons, ite_self, ite_self, List.nil_append,
    List.nil_append]

theorem ended_plain {i : Instruction} (hi : i.isMark = false) :
    ended (homes place opened (i :: is)) (i :: is) = ended (homes (place + 1) opened is) is := by
  rw [homes_plain hi]
  cases i <;> first | rfl | cases hi

/-- The functions that end in a function, with it, and behind it. -/
theorem ended_function (hbody : body.Proper) :
    ended (homes place opened (.functionBegin name :: (body.instructions ++ .functionEnd :: is)))
        (.functionBegin name :: (body.instructions ++ .functionEnd :: is)) =
      ended (homes (place + 1) (⟨place, name⟩ :: opened) body.instructions) body.instructions ++
        ⟨place, name⟩ :: ended (homes (place + 1 + body.instructions.length + 1) opened is) is := by
  rw [homes_function hbody]
  exact ended_append (length_homes ..)

/-- The functions that are open have begun before `place`. -/
def Before (place : Nat) (opened : List Site) : Prop := ∀ s ∈ opened, s.place < place

theorem Before.mono {later : Nat} (h : Before place opened) (hle : place ≤ later) : Before later opened :=
  fun s hs => Nat.lt_of_lt_of_le (h s hs) hle

theorem Before.enter (h : Before place opened) (name : String) : Before (place + 1) (⟨place, name⟩ :: opened) :=
  List.forall_mem_cons.mpr ⟨Nat.lt_succ_self place, h.mono (Nat.le_succ place)⟩

theorem Before.ne_head {s : Site} (h : Before place opened) (hs : place ≤ s.place) : some s ≠ opened.head? :=
  fun heq => Nat.not_lt.mpr hs (h s (List.mem_of_mem_head? heq.symm))

/-- The functions of an outline end once each. -/
theorem perm_ended (ho : o.Proper) (place : Nat) (opened : List Site) :
    (ended (homes place opened o.instructions) o.instructions).Perm (sites place o.instructions) := by
  induction o generalizing place opened with
  | done => exact .refl _
  | plain i rest ih =>
    have hsites : sites place (i :: rest.instructions) = sites (place + 1) rest.instructions := by
      have hmark := ho.1
      cases i <;> first | rfl | cases hmark
    rw [instructions, ended_plain ho.1, hsites]
    exact ih ho.2 _ _
  | function name body rest ihbody ih =>
    have hsites (is : List Instruction) (p : Nat) : sites p (.functionEnd :: is) = sites (p + 1) is := rfl
    rw [instructions, List.cons_append, ended_function ho.1, sites, sites_append, hsites]
    exact List.perm_middle.trans (((ihbody ho.1 _ _).append (ih ho.2 _ _)).cons _)

/-- The homes in an outline are the function around it and the functions in it. -/
theorem home_cases (ho : o.Proper) {home : Option Site} (h : home ∈ homes place opened o.instructions) :
    home = opened.head? ∨ ∃ s, home = some s ∧ place ≤ s.place ∧ s.place < place + o.instructions.length := by
  induction o generalizing place opened with
  | done => cases h
  | plain i rest ih =>
    rw [instructions, homes_plain ho.1] at h
    rcases List.mem_cons.mp h with hhead | hrest
    · exact Or.inl hhead
    · refine (ih ho.2 hrest).imp_right ?_
      rintro ⟨s, hs, hle, hlt⟩
      rw [instructions, List.length_cons]
      exact ⟨s, hs, by omega, by omega⟩
  | function name body rest ihbody ih =>
    have hlength : (function name body rest).instructions.length =
        body.instructions.length + rest.instructions.length + 2 := by
      rw [instructions, List.length_append, List.length_cons, List.length_cons]
      omega
    rw [instructions, List.cons_append, homes_function ho.1] at h
    rw [hlength]
    rcases List.mem_cons.mp h with hhead | h
    · exact Or.inl hhead
    · rcases List.mem_append.mp h with hbody | h
      · rcases ihbody ho.1 hbody with hself | ⟨s, hs, hle, hlt⟩
        · exact Or.inr ⟨⟨place, name⟩, hself, Nat.le_refl place, Nat.lt_add_of_pos_right (Nat.succ_pos _)⟩
        · exact Or.inr ⟨s, hs, by omega, by omega⟩
      · rcases List.mem_cons.mp h with hself | hrest
        · exact Or.inr ⟨⟨place, name⟩, hself, Nat.le_refl place, Nat.lt_add_of_pos_right (Nat.succ_pos _)⟩
        · refine (ih ho.2 hrest).imp_right ?_
          rintro ⟨s, hs, hle, hlt⟩
          exact ⟨s, hs, by omega, by omega⟩

/-- Where a function is neither around an outline nor in it, nothing is at home in it. -/
theorem atHome_elsewhere (ho : o.Proper) {home : Option Site} (hhead : home ≠ opened.head?)
    (helse : ∀ s, home = some s → s.place < place ∨ place + o.instructions.length ≤ s.place) (ps : List (List Line)) :
    atHome home (homes place opened o.instructions) ps = [] := by
  refine atHome_eq_nil fun hmem => ?_
  rcases home_cases ho hmem with heq | ⟨s, hs, hle, hlt⟩
  · exact hhead heq
  · rcases helse s hs with h | h <;> omega

/-- What is at home around an outline is the lines outside its functions. -/
theorem atHome_outline (ho : o.Proper) (hopened : Before place opened) (n : Nat) :
    atHome opened.head? (homes place opened o.instructions) (pieces n o.instructions) = o.own n := by
  induction o generalizing place n with
  | done => rfl
  | plain i rest ih =>
    have hrest := ih ho.2 (hopened.mono (Nat.le_succ place)) ((lines i).run n).2
    rw [instructions, homes_plain ho.1, pieces, atHome_cons, if_pos rfl, hrest, own_plain]
  | function name body rest _ ih =>
    have hbody : atHome opened.head? (homes (place + 1) (⟨place, name⟩ :: opened) body.instructions)
        (pieces n body.instructions) = [] := by
      refine atHome_elsewhere ho.1 (hopened.ne_head (Nat.le_refl place)).symm (fun s hs => Or.inl ?_) _
      exact Nat.lt_succ_of_lt (hopened s (List.mem_of_mem_head? hs))
    have hbehind : Before (place + 1 + body.instructions.length + 1) opened := hopened.mono (by omega)
    rw [instructions, List.cons_append, atHome_function ho.1, hbody, ih ho.2 hbehind, own_function, List.nil_append]

/-- Nothing that stands behind a function is at home in it, or in a function inside it. -/
theorem atHome_of_lt (ho : o.Proper) {start : Nat} (hopened : Before start opened) {s : Site} (hle : start ≤ s.place)
    (hlt : s.place < place) (ps : List (List Line)) : atHome (some s) (homes place opened o.instructions) ps = [] := by
  refine atHome_elsewhere ho (hopened.ne_head hle) (fun t ht => Or.inl ?_) ps
  rwa [← Option.some.inj ht]

/-- Nothing that stands in a function is at home in a later one. -/
theorem atHome_of_le (ho : o.Proper) {s : Site} (hle : place + 1 + o.instructions.length ≤ s.place)
    (ps : List (List Line)) :
    atHome (some s) (homes (place + 1) (⟨place, name⟩ :: opened) o.instructions) ps = [] := by
  refine atHome_elsewhere ho (fun h => ?_) (fun t ht => Or.inr ?_) ps
  · have hself : s.place = place := congrArg Site.place (Option.some.inj h)
    omega
  · rwa [← Option.some.inj ht]

/-- The sections of an outline are its functions, each with what is at home in it, in the order in which they end. -/
theorem sections_eq_map (ho : o.Proper) (hopened : Before place opened) (n : Nat) :
    o.sections n = (ended (homes place opened o.instructions) o.instructions).map fun s =>
      sectionOf s.name (atHome (some s) (homes place opened o.instructions) (pieces n o.instructions)) := by
  induction o generalizing place opened n with
  | done => rfl
  | plain i rest ih =>
    rw [instructions, ended_plain ho.1, sections_plain, ih ho.2 (hopened.mono (Nat.le_succ place))]
    refine List.map_congr_left fun s hs => ?_
    have hplace := (place_of_mem_sites ((perm_ended ho.2 _ _).subset hs)).1
    have hhead : opened.head? ≠ some s := (hopened.ne_head (Nat.le_of_succ_le hplace)).symm
    rw [homes_plain ho.1, pieces, atHome_cons, if_neg hhead, List.nil_append]
  | function name body rest ihbody ih =>
    have hinside := hopened.enter name
    have hbehind : Before (place + 1 + body.instructions.length + 1) opened := hopened.mono (by omega)
    rw [instructions, List.cons_append, ended_function ho.1, List.map_append, List.map_cons, sections_function,
      ihbody ho.1 hinside, ih ho.2 hbehind, ← atHome_outline ho.1 hinside n]
    -- The functions inside this one, this one itself, and those behind it.
    congr 1
    · refine List.map_congr_left fun s hs => ?_
      obtain ⟨hle, hlt⟩ := place_of_mem_sites ((perm_ended ho.1 _ _).subset hs)
      rw [atHome_function ho.1, atHome_of_lt ho.2 hopened (by omega) (by omega), List.append_nil]
    · congr 1
      · rw [atHome_function ho.1, atHome_of_lt ho.2 hopened (Nat.le_refl place), List.append_nil]
        · rfl
        · show place < place + 1 + body.instructions.length + 1
          omega
      · refine List.map_congr_left fun s hs => ?_
        have hle := (place_of_mem_sites ((perm_ended ho.2 _ _).subset hs)).1
        rw [atHome_function ho.1, atHome_of_le ho.1 (by omega), List.nil_append]

/-- The lines of an outline are those of its instructions, and a label and a `ret` for every function. -/
theorem perm_code (ho : o.Proper) (place : Nat) (opened : List Site) (n : Nat) :
    (o.own n ++ (o.sections n).flatten).Perm ((pieces n o.instructions).flatten ++
      (ended (homes place opened o.instructions) o.instructions).flatMap Site.frame) := by
  induction o generalizing place opened n with
  | done => exact .refl _
  | plain i rest ih =>
    rw [instructions, ended_plain ho.1, own_plain, sections_plain, pieces, List.flatten_cons, List.append_assoc,
      List.append_assoc]
    exact (ih ho.2 _ _ _).append_left _
  | function name body rest ihbody ih =>
    have hbody := List.perm_iff_count.mp (ihbody ho.1 (place + 1) (⟨place, name⟩ :: opened) n)
    have hrest := List.perm_iff_count.mp
      (ih ho.2 (place + 1 + body.instructions.length + 1) opened (body.code.run n).2)
    refine List.perm_iff_count.mpr fun l => ?_
    have hbody := hbody l
    have hrest := hrest l
    rw [instructions, List.cons_append, ended_function ho.1, pieces_function, own_function, sections_function]
    simp only [List.flatten_append, List.flatten_cons, List.flatMap_append, List.flatMap_cons, List.count_append,
      List.nil_append, sectionOf, Site.frame, List.count_cons, List.count_nil] at hbody hrest ⊢
    omega

end Outline

/-! ## The assembly -/

/-- The lines of the instructions of a program whose home is the given one. -/
def linesAt (is : List Instruction) (home : Option Site) : List Line := atHome home (homes 0 [] is) (pieces 0 is)

/-- The functions of a program in the order in which they end. -/
def endedSites (is : List Instruction) : List Site := ended (homes 0 [] is) is

/-- **Main result.** The assembly of well nested instructions is the lines of the instructions in no function, and
behind them, if there are functions, a `ret` and the functions in the order in which they end. Each function is its
label, the lines of the instructions whose innermost function it is, and a `ret`. The functions that end are the ones
that begin, each of them once, and all lines of all instructions are there just as often as they were emitted. -/
theorem hoisting_is_faithful {is : List Instruction} (h : WellNested 0 is) :
    assemble is = linesAt is none ++ (if endedSites is = [] then [] else
      .ret :: (endedSites is).flatMap fun s => sectionOf s.name (linesAt is (some s))) ∧
    (endedSites is).Perm (sites 0 is) ∧
    (assemble is).Perm ((pieces 0 is).flatten ++ if endedSites is = [] then [] else
      .ret :: (endedSites is).flatMap Site.frame) := by
  obtain ⟨o, ho, rfl⟩ := wellNested_iff.mp h
  have hnone : Outline.Before 0 [] := List.forall_mem_nil _
  have hown : linesAt o.instructions none = o.own 0 := Outline.atHome_outline ho hnone 0
  have hsections : o.sections 0 = (endedSites o.instructions).map fun s =>
      sectionOf s.name (linesAt o.instructions (some s)) := Outline.sections_eq_map ho hnone 0
  have hempty : (o.sections 0).flatten = [] ↔ endedSites o.instructions = [] := by
    rw [hsections]
    cases endedSites o.instructions <;> simp [sectionOf]
  have hperm : (o.own 0 ++ (o.sections 0).flatten).Perm
      ((pieces 0 o.instructions).flatten ++ (endedSites o.instructions).flatMap Site.frame) :=
    Outline.perm_code ho 0 [] 0
  refine ⟨?_, Outline.perm_ended ho 0 [], ?_⟩
  · rw [assemble_instructions ho, hown, if_congr hempty rfl rfl, hsections, List.flatMap_def]
  · rw [assemble_instructions ho, if_congr hempty rfl rfl]
    by_cases hfunctions : endedSites o.instructions = []
    · rw [if_pos hfunctions, if_pos hfunctions]
      rwa [hempty.mpr hfunctions, hfunctions] at hperm
    · rw [if_neg hfunctions, if_neg hfunctions]
      exact List.perm_middle.trans ((hperm.cons _).trans List.perm_middle.symm)

/-- A function inside another one, which ends first, with lines of the outer one before and behind it. -/
def functionInside : List Instruction :=
  [.functionBegin "f", .jump ⟨1⟩, .functionBegin "g", .jump ⟨2⟩, .functionEnd, .label ⟨1⟩, .functionEnd, .label ⟨2⟩]

theorem hoisting_is_faithful_functionInside :
    WellNested 0 functionInside ∧
      assemble functionInside = [.label "L2", .ret, .label "g", .jump "L2", .ret, .label "f", .jump "L1", .label "L1",
        .ret] ∧
      linesAt functionInside none = [.label "L2"] ∧
      linesAt functionInside (some ⟨0, "f"⟩) = [.jump "L1", .label "L1"] ∧
      endedSites functionInside = [⟨2, "g"⟩, ⟨0, "f"⟩] := by
  have hnested : WellNested 0 functionInside := by decide
  have hended : endedSites functionInside = [⟨2, "g"⟩, ⟨0, "f"⟩] := by decide
  have hassembly := (hoisting_is_faithful hnested).1
  rw [hended] at hassembly
  exact ⟨hnested, hassembly.trans (by decide), by decide, by decide, hended⟩

end Dotlang
