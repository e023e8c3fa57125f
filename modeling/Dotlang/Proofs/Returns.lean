import Dotlang.Proofs.Sections

/-!
# Calls and returns

* `Runs ls callee pc` : a place in the section of a function, or in that of the main program;
* `Nested ls names stack pc` : the addresses on the stack stand behind calls, each in the section of the function called
  before;
* `Sectioned.nested_moves` : every step keeps this;
* `Sectioned.entered` : how a run gets to a place in a section;
* `Sectioned.returns` : a function returns to the line behind the call that entered it;
* `calls_and_returns_match` : the runs of a source.
-/

namespace Dotlang

open Assembly (Line sectionOf)
open Machine (Program State Scene)
open Machine.Program (Goes Moves Enters Above)

/-! ## The stack -/

/-- A place in the section of a function, or in that of the main program. -/
def Runs (ls : List Line) : Option String → Nat → Prop
  | none, pc => InSection ls 0 pc
  | some f, pc => ∃ start, ls[start]? = some (.label f) ∧ InSection ls start pc

/-- Every address on the stack stands behind a call. The place is in the section of the function that the last of these
calls, that call in the section of the function that the one before calls, and so on down to the main program. -/
def Nested (ls : List Line) (names : List String) : List Nat → Nat → Prop
  | [], pc => Runs ls none pc
  | address :: stack, pc => ∃ (k : Nat) (f : String) (args : List String), address = k + 1 ∧
      ls[k]? = some (.call f args) ∧ f ∈ names ∧ Runs ls (some f) pc ∧ Nested ls names stack k

variable {ls : List Line} {names : List String} {start : Nat}

/-- The stack says which section a place is in, and no more about it. -/
theorem Nested.exists_start {stack : List Nat} {pc : Nat} (h : Nested ls names stack pc) :
    ∃ start, Begins ls names start ∧ InSection ls start pc ∧
      ∀ pc', InSection ls start pc' → Nested ls names stack pc' := by
  cases stack with
  | nil => exact ⟨0, Or.inl rfl, h, fun _ => id⟩
  | cons address stack =>
    obtain ⟨k, f, args, haddress, hcall, hf, ⟨start, hlabel, hpc⟩, hrest⟩ := h
    exact ⟨start, Or.inr ⟨f, hf, hlabel⟩, hpc,
      fun pc' hpc' => ⟨k, f, args, haddress, hcall, hf, ⟨start, hlabel, hpc'⟩, hrest⟩⟩

theorem Nested.exists_call {stack : List Nat} {pc : Nat} (h : Nested ls names stack pc) :
    ∀ address ∈ stack, ∃ (k : Nat) (f : String) (args : List String), address = k + 1 ∧
      ls[k]? = some (.call f args) ∧ f ∈ names := by
  induction stack generalizing pc with
  | nil => exact fun address hmem => absurd hmem List.not_mem_nil
  | cons address stack ih =>
    obtain ⟨k, f, args, haddress, hcall, hf, -, hrest⟩ := h
    exact List.forall_mem_cons.mpr ⟨⟨k, f, args, haddress, hcall, hf⟩, ih hrest⟩

namespace Sectioned

variable {s t : State} {l : Line} {a b : Scene} (hls : Sectioned ls names)
include hls

/-- A step that neither calls nor returns stays in its section. -/
theorem stays (hstart : Begins ls names start) (hs : InSection ls start s.pc) (hl : ls[s.pc]? = some l)
    (h : Moves (.ofLines ls) s l t) (hstack : t.stack = s.stack) : InSection ls start t.pc := by
  cases h with
  | on hpasses store =>
    refine hs.next hl ?_
    rintro rfl
    cases hpasses
  | compare | missed => exact hs.next hl (by simp)
  | jump hpc => exact hls.jump hstart hs hl (Or.inl rfl) (Machine.label_of_lineOf? hpc)
  | held hpc => exact hls.jump hstart hs hl (Or.inr ⟨_, rfl⟩) (Machine.label_of_lineOf? hpc)
  | call args _ _ => exact absurd hstack (List.cons_ne_self _ _)
  | ret hpop =>
    rw [hpop] at hstack
    exact absurd hstack.symm (List.cons_ne_self _ _)

/-- **What a step does to the stack goes with the section that it leads to.** -/
theorem nested_moves (hs : Nested ls names s.stack s.pc) (hl : ls[s.pc]? = some l) (h : Moves (.ofLines ls) s l t) :
    Nested ls names t.stack t.pc := by
  obtain hsame | ⟨f, args, rfl, hbuiltin, hlabel, hpush⟩ | ⟨rfl, hpop⟩ := h.stack_cases
  · obtain ⟨start, hstart, hpc, hstays⟩ := hs.exists_start
    rw [hsame]
    exact hstays t.pc (hls.stays hstart hpc hl h hsame)
  · rw [hpush]
    exact ⟨s.pc, f, args, rfl, hl, hls.called s.pc f args hl hbuiltin,
      ⟨t.pc, Machine.label_of_lineOf? hlabel, .self ls t.pc⟩, hs⟩
  · rw [hpop] at hs
    obtain ⟨k, f, args, hk, hcall, -, -, hrest⟩ := hs
    obtain ⟨start, -, hpc, hstays⟩ := hrest.exists_start
    rw [hk]
    exact hstays (k + 1) (hpc.next hcall (by simp))

theorem nested_of_reachable (hs : (Program.ofLines ls).Reachable s) : Nested ls names s.stack s.pc :=
  hs.of_moves (I := fun s => Nested ls names s.stack s.pc) (.self ls 0) fun _ _ _ hs hl h => hls.nested_moves hs hl h

/-- Only with nothing on the stack is a run in the main program. -/
theorem stack_eq_nil {stack : List Nat} {pc : Nat} (h : Nested ls names stack pc) (hpc : InSection ls 0 pc) :
    stack = [] := by
  cases stack with
  | nil => rfl
  | cons address stack =>
    obtain ⟨k, f, args, -, -, hf, ⟨start, hlabel, hin⟩, -⟩ := h
    obtain ⟨j, rfl, -⟩ := hls.behind f hf start hlabel
    cases hls.start_unique (Or.inl rfl) (Or.inr ⟨f, hf, hlabel⟩) hpc hin

/-- **A section is entered by a call at its label only.** Else a step in it comes from there, or from a function that
was called there and returns. -/
theorem entered (ha : Nested ls names a.state.stack a.state.pc) (hab : (Program.ofLines ls).after? a = some b)
    (hstart : Begins ls names start) (hb : InSection ls start b.state.pc) :
    (InSection ls start a.state.pc ∧ b.state.stack = a.state.stack) ∨
      (∃ f ∈ names, Enters ls f a b ∧ b.state.pc = start) ∨
      (ls[a.state.pc]? = some .ret ∧ a.state.stack = b.state.pc :: b.state.stack ∧
        ∃ (k : Nat) (f : String) (args : List String), b.state.pc = k + 1 ∧ ls[k]? = some (.call f args) ∧
          InSection ls start k) := by
  obtain ⟨l, hl, hmove⟩ := Program.moves_of_after? hab
  obtain hsame | ⟨f, args, rfl, hbuiltin, hlabel, hpush⟩ | ⟨rfl, hpop⟩ := hmove.stack_cases
  · obtain ⟨start', hstart', hpc, -⟩ := ha.exists_start
    have hstays := hls.stays hstart' hpc hl hmove hsame
    rw [hls.start_unique hstart hstart' hb hstays]
    exact Or.inl ⟨hpc, hsame⟩
  · have hf := hls.called _ f args hl hbuiltin
    have hbegins : Begins ls names b.state.pc := Or.inr ⟨f, hf, Machine.label_of_lineOf? hlabel⟩
    refine Or.inr (Or.inl ⟨f, hf, ⟨⟨args, hl⟩, hbuiltin, hlabel, hab, hpush⟩, ?_⟩)
    exact hls.start_unique hbegins hstart (.self ls _) hb
  · rw [hpop] at ha
    obtain ⟨k, f, args, hk, hcall, -, -, hrest⟩ := ha
    obtain ⟨start', hstart', hpc, -⟩ := hrest.exists_start
    have hnext := hpc.next hcall (by simp)
    rw [← hk] at hnext
    rw [hls.start_unique hstart hstart' hb hnext]
    exact Or.inr (Or.inr ⟨hl, hpop, k, f, args, hk, hcall, hpc⟩)

/-- **A function returns to the line behind the call that entered it,** and the stack is then as it was before. -/
theorem returns {n : Nat} {replies : List (Option String)} (hgoes : Goes (.ofLines ls) n (.start replies) b)
    {f : String} (hf : f ∈ names) (hlabel : ls[start]? = some (.label f)) (hin : InSection ls start b.state.pc)
    (hret : ls[b.state.pc]? = some .ret) :
    ∃ m k c d, m + 1 + k = n ∧ Goes (.ofLines ls) m (.start replies) c ∧ Enters ls f c d ∧ d.state.pc = start ∧
      d.state.stack = b.state.stack ∧ Above (.ofLines ls) b.state.stack k d b ∧
      (Program.ofLines ls).step b.state = .next { b.state with pc := c.state.pc + 1, stack := c.state.stack } := by
  have hb := hls.nested_of_reachable ⟨n, replies, b, hgoes, rfl⟩
  have hbegins : Begins ls names start := Or.inr ⟨f, hf, hlabel⟩
  cases hstack : b.state.stack with
  | nil =>
    rw [hstack] at hb
    obtain ⟨j, rfl, -⟩ := hls.behind f hf start hlabel
    cases hls.start_unique (Or.inl rfl) hbegins hb hin
  | cons address stack =>
    obtain ⟨m, k, g, c, d, hn, hc, henters, hd, habove⟩ :=
      Program.exists_enters rfl hgoes (hstack ▸ List.cons_ne_nil _ _)
    rw [hstack] at hb hd habove
    obtain ⟨k', f', args, rfl, hcall, hf', ⟨start', hlabel', hin'⟩, -⟩ := hb
    -- The function in whose section the `RET` is, the one called behind the address and the one entered are the same.
    obtain rfl := hls.start_unique hbegins (Or.inr ⟨f', hf', hlabel'⟩) hin hin'
    obtain rfl : f = f' := Line.label.inj (Option.some.inj (hlabel.symm.trans hlabel'))
    obtain ⟨haddress, rfl⟩ := List.cons.inj (henters.stack.symm.trans hd)
    obtain ⟨args', hcall'⟩ := henters.call
    rw [Nat.add_right_cancel haddress] at hcall'
    obtain rfl : f = g := (Line.call.inj (Option.some.inj (hcall.symm.trans hcall'))).1
    have hentry : d.state.pc = start :=
      Machine.eq_of_label (Machine.label_of_lineOf? henters.label) hlabel (hls.once f hf).le
    refine ⟨m, k, c, d, hn, hc, henters, hentry, hd, habove, ?_⟩
    rw [Machine.step_ofLines hret, Program.execute, haddress]
    simp only [hstack]

end Sectioned

/-! ## The runs of a source -/

/-- The section of a declared function is its own lines, from its label to its `RET`. -/
theorem exists_placed_section {source : String} (h : (analyze source).Callable) {d : Declared}
    (hd : d ∈ bodyFunctions false (analyze source).body) :
    ∃ (g : Outline) (m start : Nat), d.Lowers (analyze source).symbols (d.name, g) ∧
      Placed (analyze source).loaded start (sectionOf d.name (g.own m)) ∧
      sectionFrom (analyze source).loaded start = .label d.name :: g.own m ∧
      ∀ k, (analyze source).loaded[k]? = some (.label d.name) ↔ k = start := by
  obtain ⟨g, m, j, hlowers, -, hret, hplaced⟩ := exists_section_of_declared h hd
  have honce := (sectioned_loaded h).once d.name (List.mem_map_of_mem hd)
  have hne : (analyze source).lines ≠ [] := fun hnil => by
    rw [hnil] at hret
    cases hret
  have hloaded : (analyze source).loaded = (analyze source).lines := if_neg hne
  rw [hloaded] at honce ⊢
  have hlabel := hplaced.left.head
  have hnone : Line.ret ∉ .label d.name :: g.own m := by
    simp [Outline.ret_not_mem_own]
  refine ⟨g, m, j + 1, hlowers, hplaced, sectionFrom_of_placed hplaced hnone, fun k => ⟨fun hk => ?_, ?_⟩⟩
  · exact Machine.eq_of_label hk hlabel honce.le
  · rintro rfl
    exact hlabel

/-- What calls and returns do in the runs of a source. -/
structure Analysis.CallsMatch (a : Analysis) : Prop where
  /-- The section of the main program is the lines outside functions. -/
  main : ∃ o : Outline, o.Proper ∧ o.instructions = lower a.symbols a.body ∧ sectionFrom a.lines 0 = o.own 0
  /-- Each function has one section, which is its lines from its label to its `RET`. -/
  sections : ∀ d ∈ bodyFunctions false a.body, ∃ (g : Outline) (m start : Nat), d.Lowers a.symbols (d.name, g) ∧
    Placed a.loaded start (sectionOf d.name (g.own m)) ∧ sectionFrom a.loaded start = .label d.name :: g.own m ∧
    ∀ k, a.loaded[k]? = some (.label d.name) ↔ k = start
  /-- The addresses on the stack stand behind calls of declared functions, and the next line is in the section of the
  function called last, or in that of the main program. -/
  nested : ∀ s, a.program.Reachable s → Nested a.loaded a.functionNames s.stack s.pc ∧
    ∀ address ∈ s.stack, ∃ (k : Nat) (f : String) (args : List String), address = k + 1 ∧
      a.loaded[k]? = some (.call f args) ∧ f ∈ a.functionNames
  /-- The `RET` of a function leads behind the call that entered it, whose address was on the stack all the while. -/
  returns : ∀ n replies b, ∀ f ∈ a.functionNames, ∀ start, Goes a.program n (.start replies) b →
    a.loaded[start]? = some (.label f) → InSection a.loaded start b.state.pc →
    a.loaded[b.state.pc]? = some .ret →
    ∃ m k c d, m + 1 + k = n ∧ Goes a.program m (.start replies) c ∧ Enters a.loaded f c d ∧ d.state.pc = start ∧
      d.state.stack = b.state.stack ∧ Above a.program b.state.stack k d b ∧
      a.program.step b.state = .next { b.state with pc := c.state.pc + 1, stack := c.state.stack }
  /-- A function is entered by a call of its name, at its label. Other steps into its section come from there, or return
  to a call that stands there. -/
  entered : ∀ b c, ∀ f ∈ a.functionNames, ∀ start, a.program.Reachable b.state → a.program.after? b = some c →
    a.loaded[start]? = some (.label f) → InSection a.loaded start c.state.pc →
    (InSection a.loaded start b.state.pc ∧ c.state.stack = b.state.stack) ∨
    (Enters a.loaded f b c ∧ c.state.pc = start) ∨
    (a.loaded[b.state.pc]? = some .ret ∧ b.state.stack = c.state.pc :: c.state.stack ∧
      ∃ (k : Nat) (g : String) (args : List String), c.state.pc = k + 1 ∧ a.loaded[k]? = some (.call g args) ∧
        InSection a.loaded start k)
  /-- The `RET` that ends the main program finds the stack empty and halts. -/
  ends : ∀ s, a.program.Reachable s → InSection a.loaded 0 s.pc → a.loaded[s.pc]? = some .ret →
    s.stack = [] ∧ a.program.step s = .halt

/-- **In every run, calls and returns match,** if each name is that of one function and of no label, no function is
declared in a loop, and every function that is called and not built in is declared. -/
theorem calls_and_returns_match (source : String) (h : (analyze source).Callable) : (analyze source).CallsMatch := by
  have hls := sectioned_loaded h
  have hprogram := program_analyze source
  obtain ⟨o, ho, hlower, -, hmain⟩ := exists_main_section source
  refine ⟨⟨o, ho, hlower, hmain⟩, fun d hd => exists_placed_section h hd, ?_, ?_, ?_, ?_⟩ <;> rw [hprogram]
  · intro s hs
    have hnested := hls.nested_of_reachable hs
    exact ⟨hnested, hnested.exists_call⟩
  · exact fun n replies b f hf start hgoes hlabel hin hret => hls.returns hgoes hf hlabel hin hret
  · intro a b f hf start ha hab hlabel hb
    refine (hls.entered (hls.nested_of_reachable ha) hab (Or.inr ⟨f, hf, hlabel⟩) hb).imp_right (Or.imp_left ?_)
    rintro ⟨g, -, henters, hstart⟩
    have hentry := Machine.label_of_lineOf? henters.label
    rw [hstart, hlabel] at hentry
    obtain rfl : f = g := Line.label.inj (Option.some.inj hentry)
    exact ⟨henters, hstart⟩
  · intro s hs hpc hret
    have hnil := hls.stack_eq_nil (hls.nested_of_reachable hs) hpc
    refine ⟨hnil, ?_⟩
    rw [Machine.step_ofLines hret, Program.execute]
    simp only [hnil]

/-- A function in a function, and one that calls itself. -/
def nestedCalls : String :=
  "Ex f(nmb a) \x7b Ex g() \x7b printO(1); \x7d oye (a >. 0) \x7b g(); f(a -. 1); \x7d \x7d f(2);"

theorem calls_and_returns_match_in_nestedCalls :
    (analyze nestedCalls).Callable ∧ (analyze nestedCalls).functionNames = ["f", "g"] ∧
      (analyze nestedCalls).CallsMatch := by
  have hnames : (analyze nestedCalls).functionNames = ["f", "g"] := by decide +kernel
  have hcalls : (bodyNodes (analyze nestedCalls).body).all
      (fun s => !s.isUserCall || (s.isCallOf "f" || s.isCallOf "g")) = true := by decide +kernel
  have hcallable : (analyze nestedCalls).Callable := by
    refine ⟨by rw [hnames]; decide, fun f hf l heq => ?_, ?_, fun pos f args hs _ => ?_⟩
    · have hhead := congrArg (fun name => name.toList.head?) heq
      rw [hnames] at hf
      simp only [List.mem_cons, List.not_mem_nil, or_false] at hf
      obtain rfl | rfl := hf <;> simp [Label.name] at hhead
    · have hloops : (bodyFunctions false (analyze nestedCalls).body).all (fun d => d.inLoop == false) = true := by
        decide +kernel
      exact fun d hd => beq_iff_eq.mp (List.all_eq_true.mp hloops d hd)
    · rw [hnames]
      simpa [Statement.isUserCall, Statement.isCallOf] using List.all_eq_true.mp hcalls _ hs
  exact ⟨hcallable, hnames, calls_and_returns_match nestedCalls hcallable⟩

end Dotlang
