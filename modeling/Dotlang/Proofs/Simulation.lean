import Dotlang.Proofs.Fragments

/-!
# The assembly of a tree does what the tree means

* `Statement.run_meaning` : a reading numbers scratch variables as the lines do;
* `Statement.follows` : the lines of a statement do what the statement means, wherever they stand;
* `run_as_read` : the assembly of a source without functions does what the tree means.
-/

namespace Dotlang

open Assembly (Line Scratch linesOf)
open Machine (Program)
open Machine.Program (Goes)
open Instruction (ofValue? jumpUnless jumpWhen ofStep branch)
open Reading (performed)

/-! ## Instructions -/

theorem Assembly.linesOf_singleton (i : Instruction) (m : Nat) : (linesOf [i]).run m = (lines i).run m := by
  simp only [linesOf, run_bind, run_pure, List.append_nil]
  rfl

theorem Assembly.linesOf_label (l : Label) (m : Nat) : (linesOf [.label l]).run m = ([.label l.name], m) := rfl

theorem Assembly.linesOf_jump_label (l l' : Label) (m : Nat) :
    (linesOf [.jump l, .label l']).run m = ([.jump l.name, .label l'.name], m) := rfl

theorem Reading.run_performed (is : List Instruction) (m : Nat) :
    (performed is).run m = (straight ((linesOf is).run m).1, ((linesOf is).run m).2) := rfl

/-- A reading numbers scratch variables as the lines of the condition do. -/
theorem Reading.run_guard (cond : Option Chain) (l : Label) (m : Nat) :
    ((guard cond).run m).2 = ((linesOf (jumpUnless cond l)).run m).2 := by
  cases cond <;> rfl

theorem Reading.run_again (cond : Option Chain) (l : Label) (m : Nat) :
    ((again cond).run m).2 = ((linesOf (jumpWhen cond l)).run m).2 := by
  cases cond <;> rfl

section Instructions

variable {lines : List Line} {k m x : Nat} {exit : Option Nat} {label : Label}

theorem Follows.performed {is : List Instruction} (his : ∀ i ∈ is, i.isStraight = true)
    (hcode : Placed lines k ((linesOf is).run m).1) :
    Follows (.ofLines lines) k (k + ((linesOf is).run m).1.length) exit ((performed is).run m).1 := by
  refine Follows.straight hcode fun l hl => ?_
  obtain ⟨i, hi, n, hmem⟩ := Assembly.mem_linesOf hl
  exact Assembly.isStraight_lines (his i hi) n l hmem

/-- A test is the lines of its left-hand side with a comparison and a jump behind them. -/
theorem linesOf_compare (c : Chain) (jump : Relation) (label : Label) (m : Nat) :
    ((linesOf [.compare (Condition.ofChain c) jump label]).run m).1 =
      ((Assembly.operand (Condition.ofChain c).lhs).run m).1.1 ++
        [.compare ((Assembly.operand (Condition.ofChain c).lhs).run m).1.2 (Condition.ofChain c).rhs.lexeme,
          .jumpIf jump label.name] := by
  rw [Assembly.linesOf_singleton]
  rfl

/-- A guard goes on behind its lines, or to the label where it does not hold. -/
theorem Follows.guard {cond : Option Chain} (hcode : Placed lines k ((linesOf (jumpUnless cond label)).run m).1)
    (hx : (Program.ofLines lines).lineOf? label.name = some x) :
    Follows (.ofLines lines) k (k + ((linesOf (jumpUnless cond label)).run m).1.length) (some x)
      ((Reading.guard cond).run m).1 := by
  cases cond with
  | none => exact .skip _ k _
  | some c =>
    have hlines : ((linesOf (jumpUnless (some c) label)).run m).1 = _ := linesOf_compare c _ label m
    rw [hlines] at hcode ⊢
    rw [List.length_append, ← Nat.add_assoc]
    refine (Follows.straight hcode.left (Assembly.isStraight_operand _ m)).seq ?_
    refine Follows.compare hcode.right hx (fun _ w => ?_) (fun _ w => ?_)
    · exact ⟨x, rfl, 0, .refl _⟩
    · exact ⟨0, .refl _⟩

/-- A test behind a block goes on to the label, or is left behind its lines. -/
theorem Follows.again {cond : Option Chain} (hcode : Placed lines k ((linesOf (jumpWhen cond label)).run m).1)
    (hx : (Program.ofLines lines).lineOf? label.name = some x) :
    Follows (.ofLines lines) k x (some (k + ((linesOf (jumpWhen cond label)).run m).1.length))
      ((Reading.again cond).run m).1 := by
  cases cond with
  | none => exact .leave rfl
  | some c =>
    have hlines : ((linesOf (jumpWhen (some c) label)).run m).1 = _ := linesOf_compare c _ label m
    rw [hlines] at hcode ⊢
    rw [List.length_append, ← Nat.add_assoc]
    refine (Follows.straight hcode.left (Assembly.isStraight_operand _ m)).seq ?_
    refine Follows.compare hcode.right hx (fun _ w => ?_) (fun _ w => ?_)
    · exact ⟨0, .refl _⟩
    · exact ⟨_, rfl, 0, .refl _⟩

end Instructions

/-! ## Scratch variables -/

mutual

/-- A reading numbers scratch variables as the lines of the statement do. -/
theorem Statement.run_meaning (table : SymbolTable) (inLoop : Bool) (loopExit : Option Label) :
    ∀ (s : Statement) (n m : Nat), (∀ t ∈ s.nodes, t.isStructured = true) →
      ((s.meaning inLoop).run m).2 = ((linesOf ((s.lower table loopExit).run n).1).run m).2
  | .block _ body, n, m, h => run_bodyMeaning table inLoop loopExit body n m (List.forall_mem_cons.mp h).2
  | .declare _ d, _, _, _ => rfl
  | .assign _ name value, _, _, _ => rfl
  | .call _ name args builtin, _, _, h => by
    obtain ⟨rfl, -⟩ := Bool.and_eq_true_iff.mp (List.forall_mem_cons.mp h).1
    rfl
  | .function _ name _ body, _, _, h => absurd (List.forall_mem_cons.mp h).1 Bool.false_ne_true
  | .conditional _ cond body alternatives, n, m, h => by
    obtain ⟨hbody, halternatives⟩ := List.forall_mem_append.mp (List.forall_mem_cons.mp h).2
    simp only [Statement.meaning, Statement.lower, run_bind, run_pure, run_newLabel, branch, Assembly.linesOf_append,
      Assembly.linesOf_label, Assembly.linesOf_jump_label]
    rw [Reading.run_guard cond ⟨n + 1 + 1⟩, run_bodyMeaning table inLoop loopExit body (n + 1 + 1) _ hbody]
    exact Alternatives.run_meaning table inLoop loopExit ⟨n + 1⟩ alternatives _ _ halternatives
  | .whileLoop _ cond body, n, m, h => by
    simp only [Statement.meaning, Statement.lower, run_bind, run_pure, run_newLabel, Assembly.linesOf_append,
      Assembly.linesOf_label, Assembly.linesOf_jump_label]
    rw [Reading.run_guard cond ⟨n + 1 + 1⟩]
    exact run_bodyMeaning table true _ body _ _ (List.forall_mem_cons.mp h).2
  | .doWhile _ body cond, n, m, h => by
    simp only [Statement.meaning, Statement.lower, run_bind, run_pure, run_newLabel, Assembly.linesOf_append,
      Assembly.linesOf_label]
    rw [Reading.run_again cond ⟨n + 1⟩,
      run_bodyMeaning table true (some ⟨n + 1 + 1⟩) body (n + 1 + 1) _ (List.forall_mem_cons.mp h).2]
  | .counting _ init cond step body, n, m, h => by
    simp only [Statement.meaning, Statement.lower, run_bind, run_pure, run_newLabel, Assembly.linesOf_append,
      Assembly.linesOf_label, Assembly.linesOf_jump_label, Reading.run_performed]
    rw [Reading.run_guard cond ⟨n + 1 + 1⟩,
      run_bodyMeaning table true (some ⟨n + 1 + 1⟩) body (n + 1 + 1) _ (List.forall_mem_cons.mp h).2]
  | .brk _, _, _, _ => by
    cases loopExit <;> rfl

theorem run_bodyMeaning (table : SymbolTable) (inLoop : Bool) (loopExit : Option Label) :
    ∀ (body : List Statement) (n m : Nat), (∀ t ∈ bodyNodes body, t.isStructured = true) →
      ((bodyMeaning inLoop body).run m).2 = ((linesOf ((lowerBody table loopExit body).run n).1).run m).2
  | [], _, _, _ => rfl
  | s :: ss, n, m, h => by
    obtain ⟨hs, hss⟩ := List.forall_mem_append.mp h
    simp only [bodyMeaning, lowerBody, run_bind, run_pure, Assembly.linesOf_append]
    rw [s.run_meaning table inLoop loopExit n m hs]
    exact run_bodyMeaning table inLoop loopExit ss _ _ hss

theorem Alternatives.run_meaning (table : SymbolTable) (inLoop : Bool) (loopExit : Option Label) (exit : Label) :
    ∀ (a : Alternatives) (n m : Nat), (∀ t ∈ a.nodes, t.isStructured = true) →
      ((a.meaning inLoop).run m).2 = ((linesOf ((a.lower table loopExit exit).run n).1).run m).2
  | .done, _, _, _ => rfl
  | .otherwise body, n, m, h => run_bodyMeaning table inLoop loopExit body n m h
  | .branch cond body rest, n, m, h => by
    obtain ⟨hbody, hrest⟩ := List.forall_mem_append.mp h
    simp only [Alternatives.meaning, Alternatives.lower, run_bind, run_pure, run_newLabel, branch,
      Assembly.linesOf_append, Assembly.linesOf_jump_label]
    rw [Reading.run_guard cond ⟨n + 1⟩, run_bodyMeaning table inLoop loopExit body (n + 1) _ hbody]
    exact Alternatives.run_meaning table inLoop loopExit exit rest _ _ hrest

end

/-! ## Statements -/

section Statements

variable {lines : List Line}

/-- Line `exit` is the one to go to when the loop is left. -/
def LeavesAt (lines : List Line) (loopExit : Option Label) (exit : Option Nat) : Prop :=
  ∀ l, loopExit = some l → ∃ x, exit = some x ∧ (Program.ofLines lines).lineOf? l.name = some x

theorem LeavesAt.some {l : Label} {x : Nat} (h : (Program.ofLines lines).lineOf? l.name = some x) :
    LeavesAt lines (some l) (some x) := by
  intro l' hl'
  cases hl'
  exact ⟨x, rfl, h⟩

mutual

/-- **The lines of a statement do what the statement means, wherever they stand.** -/
theorem Statement.follows (hresolved : Resolved lines) (table : SymbolTable) :
    ∀ (loopExit : Option Label) (exit : Option Nat) (s : Statement) (n m k : Nat), LeavesAt lines loopExit exit →
      (∀ t ∈ s.nodes, t.isStructured = true) →
      Placed lines k ((linesOf ((s.lower table loopExit).run n).1).run m).1 →
      Follows (.ofLines lines) k (k + ((linesOf ((s.lower table loopExit).run n).1).run m).1.length) exit
        ((s.meaning loopExit.isSome).run m).1
  | loopExit, exit, .block _ body, n, m, k, hexit, h, hcode =>
    follows_body hresolved table loopExit exit body n m k hexit (List.forall_mem_cons.mp h).2 hcode
  | _, exit, .declare _ d, n, m, k, _, _, hcode =>
    Follows.performed (Instruction.isStraight_ofValue? d.name d.value) hcode
  | _, exit, .assign _ name value, n, m, k, _, _, hcode =>
    Follows.performed (Instruction.isStraight_ofValue? name value) hcode
  | _, exit, .call _ name args builtin, n, m, k, _, h, hcode => by
    obtain ⟨rfl, hname⟩ := Bool.and_eq_true_iff.mp (List.forall_mem_cons.mp h).1
    have hstraight : ∀ i ∈ [Instruction.call name args none], i.isStraight = true :=
      List.forall_mem_singleton.mpr hname
    exact Follows.performed hstraight hcode
  | _, _, .function _ name _ body, _, _, _, _, h, _ => absurd (List.forall_mem_cons.mp h).1 Bool.false_ne_true
  | loopExit, exit, .conditional _ cond body alternatives, n, m, k, hexit, h, hcode => by
    obtain ⟨hbody, halternatives⟩ := List.forall_mem_append.mp (List.forall_mem_cons.mp h).2
    simp only [Statement.meaning, Statement.lower, run_bind, run_pure, run_newLabel, branch, Assembly.linesOf_append,
      Assembly.linesOf_label, Assembly.linesOf_jump_label, List.length_append, ← Nat.add_assoc] at hcode ⊢
    rw [Reading.run_guard cond ⟨n + 1 + 1⟩, run_bodyMeaning table loopExit.isSome loopExit body (n + 1 + 1) _ hbody]
    have hothers := hcode.left.right_three
    have hend := hcode.right
    simp only [List.length_append, ← Nat.add_assoc] at hend
    have hlast := hresolved _ _ hend.head
    refine Follows.behind ?_ fun w => ⟨1, goes_label hend.head w⟩
    have htest := hcode.left.left.left.left
    refine Follows.branch hresolved hcode.left.left hlast (fun x hx => Follows.guard htest hx) ?_ ?_
    · exact follows_body hresolved table loopExit exit body _ _ _ hexit hbody hcode.left.left.left.right
    · exact Alternatives.follows hresolved table loopExit exit ⟨n + 1⟩ alternatives _ _ _ hexit halternatives hothers
        hlast
  | loopExit, exit, .whileLoop _ cond body, n, m, k, hexit, h, hcode => by
    have hbody := (List.forall_mem_cons.mp h).2
    simp only [Statement.meaning, Statement.lower, run_bind, run_pure, run_newLabel, Assembly.linesOf_append,
      Assembly.linesOf_label, Assembly.linesOf_jump_label, List.length_append, ← Nat.add_assoc] at hcode ⊢
    refine Follows.whileLoop hresolved hcode (fun x hx => Follows.guard hcode.left.left.right hx) fun x hx => ?_
    rw [Reading.run_guard cond ⟨n + 1 + 1⟩]
    exact follows_body hresolved table (some ⟨n + 1 + 1⟩) (some x) body _ _ _ (.some hx) hbody hcode.left.right_two
  | loopExit, exit, .doWhile _ body cond, n, m, k, hexit, h, hcode => by
    have hbody := (List.forall_mem_cons.mp h).2
    simp only [Statement.meaning, Statement.lower, run_bind, run_pure, run_newLabel, Assembly.linesOf_append,
      Assembly.linesOf_label, List.length_append, ← Nat.add_assoc] at hcode ⊢
    refine Follows.doWhile hresolved hcode (fun x hx => ?_) fun x hx => ?_
    · exact follows_body hresolved table (some ⟨n + 1 + 1⟩) (some x) body _ _ _ (.some hx) hbody hcode.left.left.right
    · rw [run_bodyMeaning table true (some ⟨n + 1 + 1⟩) body (n + 1 + 1) _ hbody]
      exact Follows.again hcode.left.right_two hx
  | loopExit, exit, .counting _ init cond step body, n, m, k, hexit, h, hcode => by
    have hbody := (List.forall_mem_cons.mp h).2
    have hinit := Instruction.isStraight_getD_map fun d : Declaration =>
      Instruction.isStraight_ofValue? d.name d.value
    have hstep := Instruction.isStraight_getD_map Instruction.isStraight_ofStep
    simp only [Statement.meaning, Statement.lower, run_bind, run_pure, run_newLabel, Assembly.linesOf_append,
      Assembly.linesOf_label, Assembly.linesOf_jump_label, List.length_append, ← Nat.add_assoc] at hcode ⊢
    rw [Reading.run_guard cond ⟨n + 1 + 1⟩,
      run_bodyMeaning table true (some ⟨n + 1 + 1⟩) body (n + 1 + 1) _ hbody]
    have hround := hcode.left.left.right_three
    have hadvance := hcode.left.right
    simp only [List.length_append, ← Nat.add_assoc] at hadvance
    refine Follows.counting hresolved hcode (Follows.performed (hinit init) hcode.left.left.left.left.left) ?_ ?_ ?_
    · exact fun x hx => Follows.guard hcode.left.left.left.right_two hx
    · exact fun x hx => follows_body hresolved table (some ⟨n + 1 + 1⟩) (some x) body _ _ _ (.some hx) hbody hround
    · exact fun x => Follows.performed (hstep step) hadvance
  | none, _, .brk _, _, _, k, _, _, _ => Follows.skip _ k _
  | some l, exit, .brk _, _, _, k, hexit, _, hcode => by
    obtain ⟨x, rfl, hx⟩ := hexit l rfl
    exact Follows.before (fun w => ⟨1, goes_jump hcode.head hx w⟩) (Follows.leave rfl)

theorem follows_body (hresolved : Resolved lines) (table : SymbolTable) :
    ∀ (loopExit : Option Label) (exit : Option Nat) (body : List Statement) (n m k : Nat),
      LeavesAt lines loopExit exit → (∀ t ∈ bodyNodes body, t.isStructured = true) →
      Placed lines k ((linesOf ((lowerBody table loopExit body).run n).1).run m).1 →
      Follows (.ofLines lines) k (k + ((linesOf ((lowerBody table loopExit body).run n).1).run m).1.length) exit
        ((bodyMeaning loopExit.isSome body).run m).1
  | _, exit, [], _, _, k, _, _, _ => Follows.skip _ k exit
  | loopExit, exit, s :: ss, n, m, k, hexit, h, hcode => by
    obtain ⟨hs, hss⟩ := List.forall_mem_append.mp h
    simp only [bodyMeaning, lowerBody, run_bind, run_pure, Assembly.linesOf_append, List.length_append] at hcode ⊢
    rw [← Nat.add_assoc, s.run_meaning table loopExit.isSome loopExit n m hs]
    refine (s.follows hresolved table loopExit exit n m k hexit hs hcode.left).seq ?_
    exact follows_body hresolved table loopExit exit ss _ _ _ hexit hss hcode.right

theorem Alternatives.follows (hresolved : Resolved lines) (table : SymbolTable) :
    ∀ (loopExit : Option Label) (exit : Option Nat) (last : Label) (a : Alternatives) (n m k : Nat),
      LeavesAt lines loopExit exit → (∀ t ∈ a.nodes, t.isStructured = true) →
      Placed lines k ((linesOf ((a.lower table loopExit last).run n).1).run m).1 →
      (Program.ofLines lines).lineOf? last.name =
        some (k + ((linesOf ((a.lower table loopExit last).run n).1).run m).1.length) →
      Follows (.ofLines lines) k (k + ((linesOf ((a.lower table loopExit last).run n).1).run m).1.length) exit
        ((a.meaning loopExit.isSome).run m).1
  | _, exit, _, .done, _, _, k, _, _, _, _ => Follows.skip _ k exit
  | loopExit, exit, _, .otherwise body, n, m, k, hexit, h, hcode, _ =>
    follows_body hresolved table loopExit exit body n m k hexit h hcode
  | loopExit, exit, last, .branch cond body rest, n, m, k, hexit, h, hcode, hlast => by
    obtain ⟨hbody, hrest⟩ := List.forall_mem_append.mp h
    simp only [Alternatives.meaning, Alternatives.lower, run_bind, run_pure, run_newLabel, branch,
      Assembly.linesOf_append, Assembly.linesOf_jump_label, List.length_append, ← Nat.add_assoc] at hcode hlast ⊢
    rw [Reading.run_guard cond ⟨n + 1⟩, run_bodyMeaning table loopExit.isSome loopExit body (n + 1) _ hbody]
    refine Follows.branch hresolved hcode.left hlast (fun x hx => Follows.guard hcode.left.left.left hx) ?_ ?_
    · exact follows_body hresolved table loopExit exit body _ _ _ hexit hbody hcode.left.left.right
    · exact Alternatives.follows hresolved table loopExit exit last rest _ _ _ hexit hrest hcode.right_three hlast

end

end Statements

/-! ## Runs -/

namespace Matches

variable {p : Program} {stop rounds : Nat} {replies : List (Option String)} {w : World}

theorem replay_normal (hunresolved : p.unresolved? = none) (hstop : p.lines.size ≤ stop)
    (h : Matches p rounds (.start replies) stop none (.normal w)) :
    ∃ enough, ∀ budget ≥ enough, (p.run budget).replay replies = ⟨w.seen.reverse, .ok (), w.replies⟩ := by
  obtain ⟨n, hgoes⟩ := h
  refine ⟨n, fun budget hbudget => ?_⟩
  obtain ⟨fuel, rfl⟩ := Nat.exists_eq_add_of_le' hbudget
  rw [Program.replay_run hunresolved, Program.rest_of_goes hgoes, Program.rest_halt hstop]
  rfl

theorem replay_fault (hunresolved : p.unresolved? = none) {f : Fault}
    (h : Matches p rounds (.start replies) stop none (.fault f w)) :
    ∃ enough, ∀ budget ≥ enough, (p.run budget).replay replies = ⟨w.seen.reverse, .error f, w.replies⟩ := by
  obtain ⟨n, b, hgoes, hfault, hseen, hreplies⟩ := h
  refine ⟨1 + n, fun budget hbudget => ?_⟩
  obtain ⟨fuel, rfl⟩ := Nat.exists_eq_add_of_le' hbudget
  rw [Program.replay_run hunresolved, ← Nat.add_assoc, Program.rest_of_goes hgoes, Program.rest_fault hfault, hseen,
    hreplies]

theorem replay_pending (hunresolved : p.unresolved? = none) (h : Matches p rounds (.start replies) stop none .pending)
    {budget : Nat} (hbudget : budget < rounds) :
    ((p.run budget).replay replies).result = .error (.stepBudgetExceeded budget) := by
  obtain ⟨n, b, hle, hgoes⟩ := h
  rw [Program.replay_run hunresolved]
  exact Program.rest_exhausted hgoes (Nat.lt_of_lt_of_le hbudget hle) budget

theorem not_left (h : Matches p rounds (.start replies) stop none (.left w)) : False := by
  obtain ⟨x, hx, -⟩ := h
  cases hx

end Matches

theorem isStructured_of_mem {source : String}
    (hfunctions : ∀ s ∈ bodyNodes (analyze source).body, s.isFunction = false)
    (hcalls : ∀ s ∈ bodyNodes (analyze source).body, s.isUserCall = false) :
    ∀ s ∈ bodyNodes (analyze source).body, s.isStructured = true := by
  intro s hs
  have hfunction := hfunctions s hs
  have hcall := hcalls s hs
  have hread := readIn_of_mem_parse (tokenize source) hs
  cases s with
  | function => cases hfunction
  | call pos name args builtin =>
    obtain rfl : builtin = true := by simpa [Statement.isUserCall] using hcall
    obtain ⟨k, hk, rfl⟩ : ∃ k ∈ Keyword.callable, name = k.word := hread.1
    have hbuiltin : ∀ k ∈ Keyword.callable, Machine.isBuiltin k.word = true := by decide
    exact hbuiltin k hk
  | _ => rfl

namespace Analysis

variable {a : Analysis} (h : ∀ s ∈ bodyNodes a.body, s.isStructured = true)
include h

/-- The labels of the lines are resolved, and the lines start and end where the machine does. A program without
lines is one blank line to the machine. -/
theorem placed_loaded :
    Resolved a.loaded ∧ (Program.ofLines a.loaded).unresolved? = none ∧
      Placed a.loaded 0 ((linesOf (lower a.symbols a.body)).run 0).1 ∧
      ∀ w : World, ∃ n, Goes (.ofLines a.loaded) n (w.at ((linesOf (lower a.symbols a.body)).run 0).1.length)
        (w.at a.loaded.length) := by
  have hstructured : Structured a.symbols (lower a.symbols a.body) := .of_lower h
  have hfresh := fresh_body a.symbols none a.body 0
  have hclosed := closed_body a.symbols none a.body 0
  rw [loaded, lines, hstructured.assemble_eq]
  split_ifs with hnil
  · rw [hnil]
    refine ⟨fun k name hk => ?_, rfl, ⟨[], [.blank], rfl, rfl⟩, fun w => ⟨1, .one rfl⟩⟩
    have hline := List.mem_singleton.mp (List.mem_of_getElem? hk)
    cases hline
  · refine ⟨fun k name hk => ?_, unresolved?_linesOf hstructured hfresh hclosed, .self _, fun w => ⟨0, .refl _⟩⟩
    exact lineOf?_linesOf hstructured hfresh hk

/-- The machine does what the tree means, from its first line to behind its last one. -/
theorem matches_reading (replies : List (Option String)) (rounds : Nat) :
    Matches (.ofLines a.loaded) rounds (.start replies) a.loaded.length none
      (readingOf a.body rounds (.start replies)) := by
  obtain ⟨hresolved, -, hcode, hgoes⟩ := placed_loaded h
  have hleaves : LeavesAt a.loaded none none := fun l hl => by cases hl
  have hfollows := follows_body hresolved a.symbols none none a.body 0 0 0 hleaves h hcode
  rw [Nat.zero_add] at hfollows
  exact hfollows.behind hgoes rounds (.start replies)

end Analysis

/-- **The assembly of a source without functions does what the tree means.** Where the reading of the tree ends,
so does every run with enough budget: after the same prints and prompts, and in the same way. Where the reading
never ends, every run spends its budget. -/
theorem run_as_read (source : String) (hfunctions : ∀ s ∈ bodyNodes (analyze source).body, s.isFunction = false)
    (hcalls : ∀ s ∈ bodyNodes (analyze source).body, s.isUserCall = false) (replies : List (Option String)) :
    (∀ rounds w, readingOf (analyze source).body rounds (.start replies) = .normal w →
      ∃ enough, ∀ budget ≥ enough, (Machine.run (analyze source).code.assembly budget).replay replies =
        ⟨w.seen.reverse, .ok (), w.replies⟩) ∧
    (∀ rounds f w, readingOf (analyze source).body rounds (.start replies) = .fault f w →
      ∃ enough, ∀ budget ≥ enough, (Machine.run (analyze source).code.assembly budget).replay replies =
        ⟨w.seen.reverse, .error f, w.replies⟩) ∧
    (∀ rounds w, readingOf (analyze source).body rounds (.start replies) ≠ .left w) ∧
    ((∀ rounds, readingOf (analyze source).body rounds (.start replies) = .pending) →
      ∀ budget, ((Machine.run (analyze source).code.assembly budget).replay replies).result =
        .error (.stepBudgetExceeded budget)) := by
  have hstructured := isStructured_of_mem hfunctions hcalls
  have hunresolved := (Analysis.placed_loaded hstructured).2.1
  have hmatches := Analysis.matches_reading hstructured replies
  unfold Machine.run
  rw [ofText_analyze]
  refine ⟨fun rounds w hw => ?_, fun rounds f w hw => ?_, fun rounds w hw => ?_, fun hpending budget => ?_⟩
  · have hnormal := hmatches rounds
    rw [hw] at hnormal
    exact hnormal.replay_normal hunresolved (by simp [Program.ofLines])
  · have hfault := hmatches rounds
    rw [hw] at hfault
    exact hfault.replay_fault hunresolved
  · have hleft := hmatches rounds
    rw [hw] at hleft
    exact hleft.not_left
  · have hlong := hmatches (budget + 1)
    rw [hpending] at hlong
    exact hlong.replay_pending hunresolved (Nat.lt_succ_self budget)

def countdown : String :=
  "nmb x =. 3; wish (x >. 0) \x7b x =. x -. 1; oye (x ==. 1) \x7b brk; \x7d printO(x); \x7d"

theorem run_as_read_of_countdown :
    ∃ enough, ∀ budget ≥ enough, (Machine.run (analyze countdown).code.assembly budget).replay [] =
      ⟨[.print "2"], .ok (), []⟩ :=
  (run_as_read countdown (by decide +kernel) (by decide +kernel) []).1 4 ⟨⟨[("x", .int 1)]⟩, [], [.print "2"]⟩
    (by decide +kernel)

end Dotlang
