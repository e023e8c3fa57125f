import Dotlang.Compilation
import Dotlang.Proofs.Positions

/-!
# The phases of a compilation

* `Dialogue.replay_bind`, `Dialogue.replay_recorded` : replaying a dialogue that goes on, or that is recorded;
* `replay_compile_of_clean`, `replay_compile_of_ne_nil` : what happens in compiling a source with nothing wrong with it,
  and one with something;
* `Phased` : complaints phase by phase;
* `phases_in_order` : complaints come in the order of the phases, and a source is translated and run just if the first
  three have none.
-/

namespace Dotlang

/-! ## Replays -/

/-- The line that an event prints. -/
def Event.line? : Event → Option String
  | print line => some line
  | prompt _ => none

namespace Dialogue

variable {α β : Type}

theorem replay_print (line : String) (next : Unit → Dialogue α) (replies : List (Option String)) :
    (print line next).replay replies =
      { (next ()).replay replies with events := .print line :: ((next ()).replay replies).events } := by
  rw [replay, replayFrom, replayFrom_eq]
  rfl

theorem replay_prompt (message : String) (next : Option String → Dialogue α) (replies : List (Option String)) :
    (prompt message next).replay replies =
      { (next (replies.head?.getD none)).replay replies.tail with
        events := .prompt message :: ((next (replies.head?.getD none)).replay replies.tail).events } := by
  rw [replay, replayFrom, replayFrom_eq]
  rfl

/-- The second dialogue has the replies that the first did not ask for. -/
theorem replay_bind (d : Dialogue α) (f : α → Dialogue β) (replies : List (Option String)) :
    (d >>= f).replay replies =
      { (f (d.replay replies).result).replay (d.replay replies).unused with
        events := (d.replay replies).events ++
          ((f (d.replay replies).result).replay (d.replay replies).unused).events } := by
  show (d.bind f).replay replies = _
  induction d generalizing replies with
  | done a => rfl
  | print line next ih =>
    rw [bind, replay_print, replay_print, ih]
    rfl
  | prompt message next ih =>
    rw [bind, replay_prompt, replay_prompt, ih]
    rfl

theorem replay_recordedFrom (d : Dialogue α) (seen : List String) (replies : List (Option String)) :
    (d.recordedFrom seen).replay replies =
      ⟨(d.replay replies).events,
        ((d.replay replies).result, seen.reverse ++ (d.replay replies).events.filterMap Event.line?),
        (d.replay replies).unused⟩ := by
  induction d generalizing seen replies with
  | done a => simp [recordedFrom, replay, replayFrom]
  | print line next ih =>
    rw [recordedFrom, replay_print, replay_print, ih, List.reverse_cons, List.append_assoc]
    rfl
  | prompt message next ih =>
    rw [recordedFrom, replay_prompt, replay_prompt, ih]
    rfl

/-- What is recorded are the lines of the events. -/
theorem replay_recorded (d : Dialogue α) (replies : List (Option String)) :
    d.recorded.replay replies =
      ⟨(d.replay replies).events, ((d.replay replies).result, (d.replay replies).events.filterMap Event.line?),
        (d.replay replies).unused⟩ := d.replay_recordedFrom [] replies

end Dialogue

section Compile

variable {source : String} (options : Options) (replies : List (Option String))

theorem replay_compile_of_ne_nil (h : (analyze source).diagnostics ≠ []) :
    (compile source options).replay replies =
      ⟨[], ⟨(analyze source).tokens, (analyze source).symbols, (analyze source).diagnostics, .empty, []⟩, replies⟩ := by
  simp only [compile, if_neg h]
  rfl

theorem replay_compile_of_clean {run : Transcript (Except Fault Unit)} (h : (analyze source).diagnostics = [])
    (hrun : (Machine.run (analyze source).code.assembly options.maxSteps).replay replies = run) :
    (compile source options).replay replies =
      ⟨run.events, ⟨(analyze source).tokens, (analyze source).symbols, faultDiagnostics run.result,
        (analyze source).code, run.events.filterMap Event.line?⟩, run.unused⟩ := by
  simp only [compile, if_pos h]
  rw [Dialogue.replay_bind, Dialogue.replay_recorded, hrun]
  exact congrArg (Transcript.mk · _ _) (List.append_nil _)

end Compile

/-! ## Phases -/

theorem phase_of_mem_lexicalDiagnostics {tokens : List Token} {d : Diagnostic} (h : d ∈ lexicalDiagnostics tokens) :
    d.phase = .lexical := by
  obtain ⟨t, -, rfl⟩ := List.mem_map.mp h
  rfl

namespace Typing

variable {table : SymbolTable} {d : Diagnostic}

/-- What a scan finds, its check found at some token. -/
theorem exists_of_mem_scan {check : Option Token → Token → Option Token → Option Diagnostic} {before : Option Token}
    {ts : List Token} (h : d ∈ scan check before ts) : ∃ a t b, check a t b = some d := by
  induction ts generalizing before with
  | nil => cases h
  | cons t ts ih =>
    rcases List.mem_append.mp h with h | h
    · exact ⟨before, t, ts.head?, Option.mem_toList.mp h⟩
    · exact ih h

theorem phase_of_assignment? {before after : Option Token} {t : Token} (h : assignment? table before t after = some d) :
    d.phase = .semantic := by
  obtain ⟨a, -, ha⟩ := Option.bind_eq_some_iff.mp h
  obtain ⟨target, -, hd⟩ := Option.bind_eq_some_iff.mp ha
  dsimp only at hd
  split_ifs at hd
  cases hd
  rfl

theorem phase_of_operands? {before after : Option Token} {t : Token} (h : operands? table before t after = some d) :
    d.phase = .semantic := by
  simp only [operands?] at h
  split at h
  · split_ifs at h <;> cases h <;> rfl
  · cases h

theorem phase_of_mem_check {tokens : List Token} (h : d ∈ check table tokens) : d.phase = .semantic := by
  rcases List.mem_append.mp h with h | h
  · rcases List.mem_append.mp h with h | h
    · obtain ⟨t, -, rfl⟩ := List.mem_map.mp h
      rfl
    · obtain ⟨a, t, b, hd⟩ := exists_of_mem_scan h
      exact phase_of_assignment? hd
  · obtain ⟨a, t, b, hd⟩ := exists_of_mem_scan h
    exact phase_of_operands? hd

end Typing

/-- Complaints phase by phase. At most one is of a run, and it has no line. -/
structure Phased (lexical syntactic semantic runtime : List Diagnostic) : Prop where
  once : runtime.length ≤ 1
  lexical : ∀ d ∈ lexical, d.phase = .lexical
  syntactic : ∀ d ∈ syntactic, d.phase = .syntactic
  semantic : ∀ d ∈ semantic, d.phase = .semantic
  runtime : ∀ d ∈ runtime, d.phase = .runtime ∧ d.line = none

theorem phased_nil (tokens : List Token) (table : SymbolTable) :
    Phased (lexicalDiagnostics tokens) (parse tokens).diagnostics (Typing.check table tokens) [] :=
  ⟨Nat.zero_le 1, fun _ => phase_of_mem_lexicalDiagnostics, fun _ => phase_of_mem_parse,
    fun _ => Typing.phase_of_mem_check, nofun⟩

theorem Phased.faulted {lexical syntactic semantic : List Diagnostic} (h : Phased lexical syntactic semantic [])
    (result : Except Fault Unit) : Phased lexical syntactic semantic (faultDiagnostics result) := by
  cases result with
  | ok => exact h
  | error f =>
    refine ⟨Nat.le_refl 1, h.lexical, h.syntactic, h.semantic, fun d hd => ?_⟩
    cases List.mem_singleton.mp hd
    exact ⟨rfl, rfl⟩

/-- No phase before the run is that of a run. -/
theorem Phased.ne_runtime {lexical syntactic semantic runtime : List Diagnostic}
    (h : Phased lexical syntactic semantic runtime) {d : Diagnostic} (hd : d ∈ lexical ++ syntactic ++ semantic) :
    d.phase ≠ .runtime := by
  rcases List.mem_append.mp hd with hd | hd
  · rcases List.mem_append.mp hd with hd | hd
    · exact h.lexical d hd ▸ nofun
    · exact h.syntactic d hd ▸ nofun
  · exact h.semantic d hd ▸ nofun

/-- **Complaints come in the order of the phases, and the last phase waits for the others.** If something is wrong with
the source it is not translated, and nothing is run: no event, no output, no fault. If nothing is, the code is that of
the lowered tree, whatever becomes of its run, and the fault of the run is the only complaint. The output is always what
was printed, in order, also if the run ends in a fault. -/
theorem phases_in_order (source : String) (options : Options) (replies : List (Option String)) :
    let t := (compile source options).replay replies
    let tokens := tokenize source
    let instructions := lower t.result.symbols (parse tokens).body
    let run := (Machine.run t.result.code.assembly options.maxSteps).replay replies
    t.result.symbols = .ofTokens tokens builtinNames ∧
      (∃ runtime, Phased (lexicalDiagnostics tokens) (parse tokens).diagnostics
          (Typing.check t.result.symbols tokens) runtime ∧
        t.result.diagnostics = lexicalDiagnostics tokens ++ (parse tokens).diagnostics ++
          Typing.check t.result.symbols tokens ++ runtime ∧
        ((∃ d ∈ t.result.diagnostics, d.phase ≠ .runtime) →
          t.result.code = .empty ∧ t.result.output = [] ∧ runtime = [] ∧ t.events = []) ∧
        ((∀ d ∈ t.result.diagnostics, d.phase = .runtime) →
          t.result.code.assembly = Assembly.text (Assembly.assemble instructions) ∧
          t.result.code.threeAddress = ThreeAddress.generate instructions ∧
          t.events = run.events ∧ runtime = faultDiagnostics run.result)) ∧
      t.result.output = t.events.filterMap Event.line? := by
  intro t tokens instructions run
  have hphased : Phased (lexicalDiagnostics tokens) (parse tokens).diagnostics
      (Typing.check (.ofTokens tokens builtinNames) tokens) [] := phased_nil tokens _
  have hdiagnostics : (analyze source).diagnostics = lexicalDiagnostics tokens ++ (parse tokens).diagnostics ++
    Typing.check (.ofTokens tokens builtinNames) tokens := rfl
  by_cases hclean : (analyze source).diagnostics = []
  · obtain ⟨r, hr⟩ : ∃ r, (Machine.run (analyze source).code.assembly options.maxSteps).replay replies = r := ⟨_, rfl⟩
    have ht := replay_compile_of_clean options replies hclean hr
    have hrun : run = r := by simp only [run, t, ht, hr]
    have hphased := hphased.faulted r.result
    have hinstructions : instructions = lower (analyze source).symbols (analyze source).body := by
      simp only [instructions, t, ht]
      rfl
    rw [hdiagnostics] at hclean
    -- the first three phases report nothing, so the fault is all there is
    simp only [t, ht, hrun, hinstructions]
    refine ⟨rfl, ⟨faultDiagnostics r.result, hphased, ?_, ?_, fun _ => ⟨?_, ?_, trivial, rfl⟩⟩, trivial⟩
    · exact (congrArg (· ++ _) hclean).symm
    · rintro ⟨d, hd, hne⟩
      exact absurd (hphased.runtime d hd).1 hne
    · rw [Analysis.code]
    · rw [Analysis.code]
  · have ht := replay_compile_of_ne_nil options replies hclean
    simp only [t, ht, hdiagnostics]
    rw [hdiagnostics] at hclean
    refine ⟨rfl, ⟨[], hphased, (List.append_nil _).symm, fun _ => ⟨trivial, trivial, rfl, trivial⟩, ?_⟩, rfl⟩
    intro hall
    obtain ⟨d, hd⟩ := List.exists_mem_of_ne_nil _ hclean
    exact absurd (hall d hd) (hphased.ne_runtime hd)

/-- A program that faults after it has printed. -/
def halfway : String := "printO(1); nmb a =. 1 /. 0; printO(a);"

example : ((compile halfway {}).replay []).result.output = ["1"] ∧
    ((compile halfway {}).replay []).result.diagnostics = [⟨.fault .divisionByZero, none⟩] := by decide +kernel

end Dotlang
