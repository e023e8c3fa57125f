import Dotlang.Proofs.Budget
import Dotlang.Proofs.Sections

/-!
# Programs without loops

In a program without loops every jump leads to a line behind it. Functions stand behind the main program and behind one
another, and a label that stands on several lines goes to the last of them, which is behind the jump as well.

* `Forward exits is` : the jumps in `is` go to labels behind them, or to one of `exits`;
* `Onward exits is` : so do those outside the functions in `is`, and those in each function;
* `onward_body` : the instructions of a body without loops;
* `Ahead ls` : the jumps in the lines `ls` go to names that stand behind them;
* `OneWay ls` : lines in which nothing leads back;
* `oneWay_loaded` : the lines of a source with neither loops nor calls of functions;
* `loopFree_runs_each_line_once` : such a source executes no line twice, and ends within as many steps as it has lines.
-/

namespace Dotlang

open Assembly (Line assemble)
open Instruction (jumpUnless isMark_ofValue? isMark_jumpUnless isMark_label isMark_jump_label)

/-! ## Jumps ahead -/

def Statement.isLoop : Statement → Bool
  | whileLoop .. | doWhile .. | counting .. => true
  | _ => false

/-- Every jump goes to one of the exits or to a label behind it. -/
def Forward (exits : List Label) : List Instruction → Prop
  | [] => True
  | i :: is => (∀ l, i.target? = some l → l ∈ exits ∨ .label l ∈ is) ∧ Forward exits is

namespace Forward

variable {exits more : List Label} {is js : List Instruction}

theorem of_target? (h : ∀ i ∈ is, ∀ l, i.target? = some l → l ∈ exits) : Forward exits is := by
  induction is with
  | nil => trivial
  | cons i is ih =>
    obtain ⟨hi, his⟩ := List.forall_mem_cons.mp h
    exact ⟨fun l hl => Or.inl (hi l hl), ih his⟩

/-- Exits whose labels come behind are none. -/
theorem append (h : Forward more is) (hjs : Forward exits js) (hmore : ∀ l ∈ more, l ∈ exits ∨ .label l ∈ js) :
    Forward exits (is ++ js) := by
  induction is with
  | nil => exact hjs
  | cons i is ih =>
    refine ⟨fun l hl => ?_, ih h.2⟩
    rcases h.1 l hl with hexit | hlabel
    · exact (hmore l hexit).imp_right (List.mem_append_right _)
    · exact Or.inr (List.mem_append_left _ hlabel)

theorem ofValue? (target : String) (value : Option Chain) : Forward exits (Instruction.ofValue? target value) := by
  refine of_target? fun i hi l hl => ?_
  obtain ⟨c, -, rfl⟩ := Instruction.mem_ofValue? hi
  cases hl

theorem jumpUnless (cond : Option Chain) (l : Label) : Forward [l] (Instruction.jumpUnless cond l) := by
  refine of_target? fun i hi l' hl => ?_
  obtain ⟨c, -, jump, rfl⟩ := Instruction.mem_jumpUnless hi
  cases hl
  exact List.mem_cons_self

theorem label (l : Label) : Forward exits [.label l] := ⟨nofun, trivial⟩

theorem jump_label {l : Label} (h : l ∈ exits) (l' : Label) : Forward exits [.jump l, .label l'] := by
  refine ⟨fun k hk => ?_, label l'⟩
  cases hk
  exact Or.inl h

end Forward

/-- The jumps outside the functions in `is` go to labels behind them or to one of the exits, and those in a function to
labels behind them in this function. -/
def Onward (exits : List Label) (is : List Instruction) : Prop :=
  ∃ o : Outline, o.Proper ∧ o.instructions = is ∧ Forward exits o.outside ∧ ∀ f ∈ o.functions, Forward [] f.2.outside

namespace Onward

variable {exits more : List Label} {is js : List Instruction}

theorem plain (hmark : ∀ i ∈ is, i.isMark = false) (h : Forward exits is) : Onward exits is := by
  obtain ⟨o, ho, rfl, houtside, hfunctions⟩ := Outline.exists_plain hmark
  exact ⟨o, ho, rfl, houtside.symm ▸ h, hfunctions ▸ fun _ hf => absurd hf List.not_mem_nil⟩

theorem nil : Onward exits [] := plain (fun _ hi => absurd hi List.not_mem_nil) trivial

theorem append (h : Onward exits is) (h' : Onward exits js) : Onward exits (is ++ js) := by
  obtain ⟨a, ha, rfl, houtside, hfunctions⟩ := h
  obtain ⟨b, hb, rfl, houtside', hfunctions'⟩ := h'
  refine ⟨a.append b, ha.append hb, Outline.instructions_append a b, ?_, ?_⟩
  · rw [Outline.outside_append]
    exact houtside.append houtside' fun l hl => Or.inl hl
  · rw [Outline.functions_append]
    exact List.forall_mem_append.mpr ⟨hfunctions, hfunctions'⟩

/-- Instructions without functions that have the labels of some of the exits. -/
theorem close (h : Onward more is) (hmark : ∀ j ∈ js, j.isMark = false) (hjs : Forward exits js)
    (hmore : ∀ l ∈ more, l ∈ exits ∨ .label l ∈ js) : Onward exits (is ++ js) := by
  obtain ⟨a, ha, rfl, houtside, hfunctions⟩ := h
  obtain ⟨b, hb, rfl, houtside', hnone⟩ := Outline.exists_plain hmark
  refine ⟨a.append b, ha.append hb, Outline.instructions_append a b, ?_, ?_⟩
  · rw [Outline.outside_append, houtside']
    exact houtside.append hjs hmore
  · rw [Outline.functions_append, hnone, List.append_nil]
    exact hfunctions

theorem mono (h : Onward exits is) (hsub : ∀ l ∈ exits, l ∈ more) : Onward more is := by
  have hclose : Onward more (is ++ []) :=
    h.close (fun _ hj => absurd hj List.not_mem_nil) trivial fun l hl => Or.inl (hsub l hl)
  rwa [List.append_nil] at hclose

theorem function (name : String) (h : Onward [] is) :
    Onward exits ([.functionBegin name] ++ is ++ [.functionEnd]) := by
  obtain ⟨o, ho, rfl, houtside, hfunctions⟩ := h
  refine ⟨.function name o .done, ⟨ho, trivial⟩, ?_, trivial, ?_⟩
  · simp only [Outline.instructions, List.cons_append, List.nil_append]
  · rw [Outline.functions, Outline.functions, List.append_nil]
    exact List.forall_mem_cons.mpr ⟨houtside, hfunctions⟩

/-- A branch of a conditional leaves by its exit only. -/
theorem branch (cond : Option Chain) (exit next : Label) (h : Onward [] is) :
    Onward [exit] (Instruction.branch cond exit next is) := by
  have htest : Onward [next] (jumpUnless cond next) := plain (isMark_jumpUnless cond next) (.jumpUnless cond next)
  have hbody : Onward [next] is := h.mono fun _ hl => absurd hl List.not_mem_nil
  refine (htest.append hbody).close (isMark_jump_label exit next) (.jump_label List.mem_cons_self next) fun l hl => ?_
  rw [List.mem_singleton.mp hl]
  exact Or.inr (List.mem_cons_of_mem _ List.mem_cons_self)

end Onward

/-! ## The instructions of a body -/

mutual

theorem Statement.onward (table : SymbolTable) :
    ∀ (s : Statement) (n : Nat), (∀ t ∈ s.nodes, t.isLoop = false) → Onward [] ((s.lower table none).run n).1
  | .block _ body, n, h => onward_body table body n (List.forall_mem_cons.mp h).2
  | .declare _ d, _, _ => .plain (isMark_ofValue? _ _) (.ofValue? _ _)
  | .assign _ name value, _, _ => .plain (isMark_ofValue? _ _) (.ofValue? _ _)
  | .call _ name args builtin, _, _ => .plain (List.forall_mem_singleton.mpr rfl) ⟨nofun, trivial⟩
  | .function _ name params body, n, h => by
    simp only [Statement.lower, run_bind, run_pure]
    exact .function name (onward_body table body n (List.forall_mem_cons.mp h).2)
  | .conditional _ cond body alternatives, n, h => by
    simp only [Statement.lower, run_bind, run_pure, run_newLabel]
    obtain ⟨hbody, hothers⟩ := List.forall_mem_append.mp (List.forall_mem_cons.mp h).2
    have hbranch := (onward_body table body (n + 1 + 1) hbody).branch cond ⟨n + 1⟩ ⟨n + 1 + 1⟩
    have hrest := Alternatives.onward table ⟨n + 1⟩ alternatives ((lowerBody table none body).run (n + 1 + 1)).2 hothers
    refine (hbranch.append hrest).close (isMark_label _) (.label _) fun l hl => ?_
    rw [List.mem_singleton.mp hl]
    exact Or.inr List.mem_cons_self
  | .whileLoop _ _ _, _, h | .doWhile _ _ _, _, h | .counting _ _ _ _ _, _, h =>
    nomatch h _ (Statement.self_mem_nodes _)
  | .brk _, _, _ => .nil

/-- **The jumps of a body without loops lead on, outside functions and in each of them.** -/
theorem onward_body (table : SymbolTable) :
    ∀ (body : List Statement) (n : Nat), (∀ t ∈ bodyNodes body, t.isLoop = false) →
      Onward [] ((lowerBody table none body).run n).1
  | [], _, _ => .nil
  | s :: ss, n, h => by
    simp only [lowerBody, run_bind, run_pure]
    obtain ⟨hs, hss⟩ := List.forall_mem_append.mp h
    exact (s.onward table n hs).append (onward_body table ss _ hss)

theorem Alternatives.onward (table : SymbolTable) :
    ∀ (exit : Label) (a : Alternatives) (n : Nat), (∀ t ∈ a.nodes, t.isLoop = false) →
      Onward [exit] ((a.lower table none exit).run n).1
  | _, .done, _, _ => .nil
  | _, .otherwise body, n, h => (onward_body table body n h).mono fun _ hl => absurd hl List.not_mem_nil
  | exit, .branch cond body rest, n, h => by
    simp only [Alternatives.lower, run_bind, run_pure, run_newLabel]
    obtain ⟨hbody, hrest⟩ := List.forall_mem_append.mp h
    exact ((onward_body table body (n + 1) hbody).branch cond exit ⟨n + 1⟩).append
      (Alternatives.onward table exit rest ((lowerBody table none body).run (n + 1)).2 hrest)

end

/-! ## Lines -/

/-- The line is a jump to this name. -/
def Assembly.Line.JumpsTo (l : Line) (name : String) : Prop := l = .jump name ∨ ∃ r, l = .jumpIf r name

/-- Every jump goes to a name that stands behind it. -/
inductive Ahead : List Line → Prop where
  | nil : Ahead []
  | cons {l : Line} {ls : List Line} (hl : ∀ name, l.JumpsTo name → .label name ∈ ls) (hls : Ahead ls) : Ahead (l :: ls)

namespace Ahead

variable {ls more : List Line}

theorem behind (h : ∀ l ∈ more, ∀ name, l.JumpsTo name → .label name ∈ ls) (hls : Ahead ls) : Ahead (more ++ ls) := by
  induction more with
  | nil => exact hls
  | cons l more ih =>
    obtain ⟨hl, hmore⟩ := List.forall_mem_cons.mp h
    exact .cons (fun name hjump => List.mem_append_right _ (hl name hjump)) (ih hmore)

theorem append (h : Ahead ls) (hmore : Ahead more) : Ahead (ls ++ more) := by
  induction h with
  | nil => exact hmore
  | cons hl _ ih => exact .cons (fun name hjump => List.mem_append_left _ (hl name hjump)) ih

theorem flatten {sections : List (List Line)} (h : ∀ ls ∈ sections, Ahead ls) : Ahead sections.flatten := by
  induction sections with
  | nil => exact .nil
  | cons ls sections ih =>
    obtain ⟨hls, hsections⟩ := List.forall_mem_cons.mp h
    exact hls.append (ih hsections)

/-- A line that is no jump. -/
theorem single {l : Line} (h : ∀ name, ¬l.JumpsTo name) : Ahead [l] := .cons (fun name hl => absurd hl (h name)) .nil

theorem sectionOf (h : Ahead ls) (name : String) : Ahead (Assembly.sectionOf name ls) :=
  ((single (l := .label name) (by simp [Line.JumpsTo])).append h).append (single (by simp [Line.JumpsTo]))

theorem loaded {a : Analysis} (h : Ahead a.lines) : Ahead a.loaded := by
  unfold Analysis.loaded
  split_ifs
  · exact single (by simp [Line.JumpsTo])
  · exact h

theorem exists_label (h : Ahead ls) {k : Nat} {l : Line} {name : String} (hk : ls[k]? = some l)
    (hjump : l.JumpsTo name) : ∃ j, k < j ∧ ls[j]? = some (.label name) := by
  induction h generalizing k with
  | nil => cases hk
  | cons hl _ ih =>
    cases k with
    | zero =>
      cases hk
      obtain ⟨j, hj⟩ := List.mem_iff_getElem?.mp (hl name hjump)
      exact ⟨j + 1, Nat.succ_pos j, hj⟩
    | succ k =>
      obtain ⟨j, hlt, hj⟩ := ih hk
      exact ⟨j + 1, Nat.succ_lt_succ hlt, hj⟩

end Ahead

namespace Outline

variable {o : Outline}

theorem ahead_own (h : Forward [] o.outside) (n : Nat) : Ahead (o.own n) := by
  induction o generalizing n with
  | done => exact .nil
  | plain i rest ih =>
    rw [own_plain]
    refine Ahead.behind (fun line hline name hjump => ?_) (ih h.2 _)
    obtain ⟨l, htarget, rfl⟩ := Assembly.target?_of_jump_mem_lines hline hjump
    exact label_mem_own ((h.1 l htarget).resolve_left List.not_mem_nil) _
  | function name body rest _ ih => exact ih h _

/-- Hoisting keeps a jump and its label in one section, and in their order. -/
theorem ahead_assemble (ho : o.Proper) (h : Forward [] o.outside)
    (hfunctions : ∀ f ∈ o.functions, Forward [] f.2.outside) : Ahead (assemble o.instructions) := by
  rw [assemble_instructions ho]
  refine (ahead_own h 0).append ?_
  split_ifs
  · exact .nil
  · refine (Ahead.single (l := .ret) (by simp [Line.JumpsTo])).append (Ahead.flatten fun s hs => ?_)
    obtain ⟨f, hf, m, rfl⟩ := exists_of_mem_sections hs
    exact (ahead_own (hfunctions f hf) m).sectionOf f.1

end Outline

/-! ## Runs -/

namespace Machine

/-- No line with a label stands behind the one that the label names. -/
theorem le_lineOf? {ls : List Line} {j : Nat} {name : String} (h : ls[j]? = some (.label name)) :
    ∃ k, (Program.ofLines ls).lineOf? name = some k ∧ j ≤ k := by
  have hmem : .label name ∈ ls.reverse := List.mem_reverse.mpr (List.mem_of_getElem? h)
  obtain ⟨after, before, hreverse, hafter⟩ := List.eq_append_cons_of_mem hmem
  have hls : ls = before.reverse ++ .label name :: after.reverse := by
    rw [← List.reverse_reverse ls, hreverse]
    simp only [List.reverse_append, List.reverse_cons, List.append_assoc, List.cons_append, List.nil_append]
  have hlast : .label name ∉ after.reverse := fun hmem => hafter (List.mem_reverse.mp hmem)
  subst hls
  refine ⟨before.reverse.length, lineOf?_of_last hlast, Nat.le_of_not_lt fun hlt => hlast ?_⟩
  obtain ⟨i, rfl⟩ := Nat.exists_eq_add_of_lt hlt
  have hbehind : before.reverse.length + i + 1 - before.reverse.length = i + 1 := by omega
  rw [List.getElem?_append_right (by omega), hbehind, List.getElem?_cons_succ] at h
  exact List.mem_of_getElem? h

open Program (Goes Moves Finishes)

/-- After the first steps of a run come the others. -/
theorem Program.Goes.rest {p : Program} {m n : Nat} {a b c : Scene} (h : Goes p m a b) (h' : Goes p (m + n) a c) :
    Goes p n b c := by
  induction h with
  | refl => rwa [Nat.zero_add] at h'
  | step hab _ ih =>
    rw [Nat.add_right_comm] at h'
    cases h' with
    | step hab' h' =>
      rw [hab] at hab'
      cases hab'
      exact ih h'

/-- Lines in which every jump leads on, and in which no function is called but built-in ones. -/
structure OneWay (ls : List Line) : Prop where
  ahead : Ahead ls
  builtin : ∀ (k : Nat) (f : String) (args : List String), ls[k]? = some (.call f args) → isBuiltin f = true

namespace OneWay

variable {ls : List Line} (h : OneWay ls)
include h

theorem lt_lineOf? {k : Nat} {l : Line} {name : String} (hk : ls[k]? = some l) (hjump : l.JumpsTo name) :
    ∃ j, (Program.ofLines ls).lineOf? name = some j ∧ k < j := by
  obtain ⟨i, hlt, hi⟩ := h.ahead.exists_label hk hjump
  obtain ⟨j, hj, hle⟩ := le_lineOf? hi
  exact ⟨j, hj, Nat.lt_of_lt_of_le hlt hle⟩

theorem unresolved? : (Program.ofLines ls).unresolved? = none := by
  refine List.find?_eq_none.mpr fun name hname hlost => ?_
  obtain ⟨l, hl, htarget⟩ := List.mem_filterMap.mp hname
  obtain ⟨k, hk⟩ := List.mem_iff_getElem?.mp hl
  have hjump : l.JumpsTo name := by
    cases l with
    | jump => exact Or.inl (congrArg Line.jump (Option.some.inj htarget))
    | jumpIf r => exact Or.inr ⟨r, congrArg (Line.jumpIf r) (Option.some.inj htarget)⟩
    | call f args => simp [Line.target?, h.builtin k f args hk] at htarget
    | _ => cases htarget
  obtain ⟨j, hj, -⟩ := h.lt_lineOf? hk hjump
  rw [hj] at hlost
  cases hlost

/-- With nowhere to return to, every step leads on. -/
theorem moves {s t : State} {l : Line} (hl : ls[s.pc]? = some l) (hmoves : Moves (.ofLines ls) s l t)
    (hstack : s.stack = []) : s.pc < t.pc ∧ t.stack = [] := by
  have hlands : ∀ name pc, l.JumpsTo name → (Program.ofLines ls).lineOf? name = some pc → s.pc < pc := by
    intro name pc hjump hpc
    obtain ⟨j, hj, hlt⟩ := h.lt_lineOf? hl hjump
    rw [hpc] at hj
    cases hj
    exact hlt
  cases hmoves with
  | on | compare | missed => exact ⟨Nat.lt_succ_self s.pc, hstack⟩
  | jump hpc => exact ⟨hlands _ _ (Or.inl rfl) hpc, hstack⟩
  | held hpc => exact ⟨hlands _ _ (Or.inr ⟨_, rfl⟩) hpc, hstack⟩
  | call args hbuiltin =>
    rw [h.builtin _ _ args hl] at hbuiltin
    cases hbuiltin
  | ret hreturn =>
    rw [hstack] at hreturn
    cases hreturn

/-- Each step of a run leads on by a line at least. -/
theorem goes {n : Nat} {a b : Scene} (hgoes : Goes (.ofLines ls) n a b) (hstack : a.state.stack = []) :
    a.state.pc + n ≤ b.state.pc ∧ b.state.stack = [] := by
  induction hgoes with
  | refl => exact ⟨Nat.le_refl _, hstack⟩
  | step hab _ ih =>
    obtain ⟨l, hl, hmoves⟩ := Program.moves_of_after? hab
    obtain ⟨hlt, hempty⟩ := h.moves hl hmoves hstack
    obtain ⟨hle, hend⟩ := ih hempty
    exact ⟨by omega, hend⟩

theorem lt_of_goes {m n : Nat} {replies : List (Option String)} {a b : Scene} (hmn : m < n)
    (ha : Goes (.ofLines ls) m (.start replies) a) (hb : Goes (.ofLines ls) n (.start replies) b) :
    a.state.pc < b.state.pc := by
  obtain ⟨k, rfl⟩ := Nat.exists_eq_add_of_lt hmn
  rw [Nat.add_assoc] at hb
  have hle := (h.goes (ha.rest hb) (h.goes ha rfl).2).1
  omega

/-- A run has no more steps than there are lines. -/
theorem exists_finishes (replies : List (Option String)) :
    ∃ n ≤ ls.length, ∃ t, Finishes (.ofLines ls) n (.start replies) t := by
  have hsize : (Program.ofLines ls).lines.size = ls.length := by simp [Program.ofLines]
  obtain hends | ⟨b, hgoes, hline⟩ := Program.finishes_or_goes (.ofLines ls) ls.length (.start replies)
  · exact hends
  · have hle := (h.goes hgoes rfl).1
    omega

end OneWay

end Machine

/-! ## Sources without loops -/

section Source

variable {source : String} (hloops : ∀ s ∈ bodyNodes (analyze source).body, s.isLoop = false)
  (hcalls : ∀ s ∈ bodyNodes (analyze source).body, s.isUserCall = false)
include hloops hcalls

theorem oneWay_loaded : Machine.OneWay (analyze source).loaded := by
  obtain ⟨o, ho, hlower, houtside, hfunctions⟩ := onward_body (analyze source).symbols (analyze source).body 0 hloops
  have hahead : Ahead (analyze source).lines := by
    have hassemble := Outline.ahead_assemble ho houtside hfunctions
    rwa [hlower] at hassemble
  refine ⟨hahead.loaded, fun k f args hk => ?_⟩
  by_contra hbuiltin
  rw [Analysis.loaded_eq_lines hk (by simp)] at hk
  obtain ⟨-, pos, args, -, hs, -⟩ := exists_placed_call hk (Bool.eq_false_of_not_eq_true hbuiltin)
  cases hcalls _ hs

open Machine.Program (Goes Finishes) in
/-- **A source with neither loops nor calls of functions executes no line twice,** whatever is replied and whatever its
functions are called. So it ends by itself within as many steps as its assembly has lines, and no budget of that many
steps is exceeded. An empty text is one blank line. -/
theorem loopFree_runs_each_line_once (replies : List (Option String)) :
    (∀ m n a b, m < n → Goes (analyze source).program m (.start replies) a →
      Goes (analyze source).program n (.start replies) b → a.state.pc < b.state.pc) ∧
    ∀ budget, (analyze source).program.lines.size ≤ budget →
      (∃ n ≤ (analyze source).program.lines.size, Finishes (analyze source).program n (.start replies)
        ((Machine.run (analyze source).code.assembly budget).replay replies)) ∧
      ∀ limit, ((Machine.run (analyze source).code.assembly budget).replay replies).result ≠
        .error (.stepBudgetExceeded limit) := by
  have honeWay := oneWay_loaded hloops hcalls
  have hprogram := program_analyze source
  refine ⟨fun m n a b hmn ha hb => ?_, fun budget hbudget => ?_⟩
  · rw [hprogram] at ha hb
    exact honeWay.lt_of_goes hmn ha hb
  · have hsize : (analyze source).program.lines.size = (analyze source).loaded.length := by
      rw [hprogram]
      simp [Machine.Program.ofLines]
    obtain ⟨n, hn, t, hfinishes⟩ := honeWay.exists_finishes replies
    rw [← hprogram] at hfinishes
    rw [← hsize] at hn
    have hrun : (Machine.run (analyze source).code.assembly budget).replay replies = t := by
      have hresolved : (analyze source).program.unresolved? = none := hprogram.symm ▸ honeWay.unresolved?
      exact (Machine.Program.replay_run hresolved budget replies).trans (hfinishes.rest_eq (hn.trans hbudget) budget)
    rw [hrun]
    exact ⟨⟨n, hn, hfinishes⟩, hfinishes.result_ne⟩

end Source

/-- The function is called like the exit of the outer conditional, so this conditional is left for the function. -/
def branching : String := "oye (1) \x7b oye (0) \x7b printO(1); \x7d \x7d printO(2); Ex L1() \x7b printO(3); \x7d"

theorem branching_runs_each_line_once :
    (analyze branching).diagnostics = [] ∧ (∀ s ∈ bodyNodes (analyze branching).body, s.isLoop = false) ∧
      (∀ s ∈ bodyNodes (analyze branching).body, s.isUserCall = false) ∧
      (analyze branching).lines.count (.label "L1") = 2 ∧ (analyze branching).program.lines.size = 16 ∧
      ((Machine.run (analyze branching).code.assembly 16).replay []).events = [.print "3"] ∧
      ∀ limit, ((Machine.run (analyze branching).code.assembly 16).replay []).result ≠
        .error (.stepBudgetExceeded limit) := by
  have hloops : ∀ s ∈ bodyNodes (analyze branching).body, s.isLoop = false := by decide +kernel
  have hcalls : ∀ s ∈ bodyNodes (analyze branching).body, s.isUserCall = false := by decide +kernel
  have hsize : (analyze branching).program.lines.size = 16 := by
    rw [program_analyze]
    decide +kernel
  obtain ⟨-, hbudget⟩ := loopFree_runs_each_line_once hloops hcalls []
  obtain ⟨-, hne⟩ := hbudget 16 hsize.le
  exact ⟨by decide +kernel, hloops, hcalls, by decide +kernel, hsize, by decide +kernel, hne⟩

end Dotlang
