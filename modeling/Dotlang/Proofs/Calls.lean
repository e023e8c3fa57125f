import Dotlang.Proofs.Capture
import Dotlang.Proofs.Declarations

/-!
# What a call reaches

A call binds the parameters that the table has for its name, and goes to the last line that bears this name. The table
keeps the first symbol of a name.

* `lineOf?_of_last` : where a label goes;
* `exists_placed_call` : the lines of a call;
* `exists_last_of_first` : the last section of a name is the function declared first, if all others of that name are
  declared in it;
* `call_of_first_declaration` : a call binds the parameters of the function declared first and goes there;
* `redeclaredBehind_goes_to_the_last` : of functions declared one behind the other it goes to the last.
-/

namespace Dotlang

open Assembly (Line lines assemble bindAll sectionOf)
open Machine (Program)

/-! ## Labels and lines -/

theorem Machine.lookup_labels_eq_none {ls : List Line} {name : String} (h : .label name ∉ ls) (n : Nat) :
    (((ls.map Except.ok).zipIdx n).filterMap Program.label?).reverse.lookup name = none := by
  refine List.lookup_eq_none_iff.mpr fun p hp => ?_
  obtain ⟨⟨decoded, j⟩, hmem, hlabel⟩ := List.mem_filterMap.mp (List.mem_reverse.mp hp)
  obtain ⟨l, hl, rfl⟩ := List.mem_map.mp (List.fst_mem_of_mem_zipIdx hmem)
  cases l <;> simp only [Program.label?, Option.some.injEq, reduceCtorEq] at hlabel
  subst hlabel
  rw [bne_iff_ne]
  rintro rfl
  exact h hl

/-- A label goes to its line, if its name does not stand again behind it. -/
theorem Machine.lineOf?_of_last {before after : List Line} {name : String} (h : .label name ∉ after) :
    (Program.ofLines (before ++ .label name :: after)).lineOf? name = some before.length := by
  have hlabel : Program.label? (.ok (.label name), before.length) = some (name, before.length) := rfl
  rw [Program.lineOf?, Program.ofLines, List.map_append, List.map_cons, List.zipIdx_append, List.zipIdx_cons,
    List.filterMap_append, List.length_map, Nat.zero_add, List.filterMap_cons_some hlabel, List.reverse_append,
    List.reverse_cons, List.lookup_append, List.lookup_append, lookup_labels_eq_none h, List.lookup_cons_self]
  rfl

/-! ## The lines of a call -/

/-- The call is the last line of its instruction. -/
theorem Assembly.eq_length_of_call {params : List String} {args : List Argument} {f g : String} {words : List String}
    {j : Nat} (hbuiltin : Machine.isBuiltin f = false)
    (h : (bindAll params args ++ [.call g []])[j]? = some (.call f words)) :
    j = (bindAll params args).length ∧ g = f ∧ words = [] := by
  rcases Nat.lt_or_ge j (bindAll params args).length with hlt | hge
  · rw [List.getElem?_append_left hlt] at h
    have hstraight := isStraight_bindAll params args _ (List.mem_of_getElem? h)
    rw [Line.isStraight, hbuiltin] at hstraight
    cases hstraight
  · rw [List.getElem?_append_right hge] at h
    obtain ⟨hlt, hcall⟩ := List.getElem?_eq_some_iff.mp h
    have hj : j - (bindAll params args).length = 0 := Nat.lt_one_iff.mp hlt
    have hline : Line.call g [] = .call f words := by
      simpa [hj] using h
    obtain ⟨rfl, rfl⟩ := Line.call.inj hline
    exact ⟨by omega, rfl, rfl⟩

/-- A call of a function that is not built in comes from a statement. -/
theorem exists_call_of_mem_lower {source : String} {f : String} {args : List Argument} {params : Option (List String)}
    (h : .call f args params ∈ lower (analyze source).symbols (analyze source).body)
    (hbuiltin : Machine.isBuiltin f = false) :
    IdentifierIn (analyze source).tokens f ∧ params = some ((analyze source).symbols.params f) ∧
      ∃ pos, .call pos f args false ∈ bodyNodes (analyze source).body := by
  obtain ⟨s, hs, hyields⟩ := exists_yields_of_mem_lower h
  cases hyields with
  | @call pos name args builtin =>
    have hread := readIn_of_mem_parse (tokenize source) hs
    cases builtin with
    | false => exact ⟨hread.1, rfl, pos, hs⟩
    | true =>
      obtain ⟨k, hk, rfl⟩ : ∃ k ∈ Keyword.callable, f = k.word := hread.1
      have hword : ∀ k ∈ Keyword.callable, Machine.isBuiltin k.word = true := by decide
      rw [hword k hk] at hbuiltin
      cases hbuiltin
  | @step _ _ _ step _ _ hstep => cases step <;> simp [Instruction.ofStep, Instruction.ofValue?] at hstep

/-- **A call stands behind lines that bind the parameters of its name in the table.** -/
theorem exists_placed_call {source : String} {f : String} {k : Nat} {words : List String}
    (h : (analyze source).lines[k]? = some (.call f words)) (hbuiltin : Machine.isBuiltin f = false) :
    IdentifierIn (analyze source).tokens f ∧
      ∃ pos args start, .call pos f args false ∈ bodyNodes (analyze source).body ∧
        Placed (analyze source).lines start (bindAll ((analyze source).symbols.params f) args ++ [.call f []]) ∧
        start + (bindAll ((analyze source).symbols.params f) args).length = k := by
  obtain ⟨o, ho, hlower, -⟩ := outlined_lower (analyze source).symbols (analyze source).body
  rw [Analysis.lines, ← hlower] at h ⊢
  obtain hret | ⟨name, -, hlabel⟩ | ⟨i, hi, n, start, j, hplaced, hj, hline⟩ := exists_placed_lines ho h
  · cases hret
  · cases hlabel
  · rcases Assembly.isStraight_or_leadsAway (List.mem_of_getElem? hline) with hstraight | haway
    · rw [Line.isStraight, hbuiltin] at hstraight
      cases hstraight
    · rw [hlower] at hi
      cases haway with
      | builtin name args words =>
        obtain ⟨-, hparams, -⟩ := exists_call_of_mem_lower hi hbuiltin
        cases hparams
      | call name args params =>
        obtain ⟨hidentifier, hparams, pos, hs⟩ := exists_call_of_mem_lower hi hbuiltin
        obtain rfl := Option.some.inj hparams
        obtain ⟨rfl, -, -⟩ := Assembly.eq_length_of_call hbuiltin hline
        exact ⟨hidentifier, pos, args, start, hs, hplaced, hj⟩

/-! ## The function declared first -/

section First

variable {table : SymbolTable} {ds : List Declared} {fs : List (String × Outline)} {f : String}

theorem Declared.Lowers.filter (h : List.Forall₂ (Declared.Lowers table) ds fs) (f : String) :
    List.Forall₂ (Declared.Lowers table) (ds.filter fun d => d.name = f) (fs.filter fun g => g.1 = f) := by
  induction h with
  | nil => exact .nil
  | @cons d g ds fs hd _ ih =>
    by_cases hname : d.name = f
    · rw [List.filter_cons_of_pos (by simpa using hname), List.filter_cons_of_pos (by simpa [hd.1] using hname)]
      exact .cons hd ih
    · rw [List.filter_cons_of_neg (by simpa using hname), List.filter_cons_of_neg (by simpa [hd.1] using hname)]
      exact ih

/-- In the body of a function as many others of a name begin as are declared there. -/
theorem Declared.Lowers.length_named {d : Declared} {g : String × Outline} (h : d.Lowers table g) (hg : g.2.Proper)
    (f : String) : (g.2.named f).length = ((bodyFunctions d.inLoop d.body).filter fun e => e.name = f).length := by
  obtain ⟨-, loopExit, n, hloop, hinstructions⟩ := h
  have hnames : g.2.functions.map Prod.fst = (bodyFunctions d.inLoop d.body).map Declared.name := by
    rw [← Outline.filterMap_begun hg, hinstructions, ← hloop]
    exact (outlined_body table loopExit d.body n).filterMap_begun
  have hcount := congrArg (List.countP fun name => name = f) hnames
  rwa [List.countP_map, List.countP_map, List.countP_eq_length_filter, List.countP_eq_length_filter] at hcount

/-- Outside functions only labels of lowering are labels. -/
theorem Outline.exists_label_of_mem_own {o : Outline} {n : Nat} {name : String} (h : .label name ∈ o.own n) :
    ∃ l : Label, .label l ∈ o.instructions ∧ l.name = name := by
  obtain ⟨i, hi, m, hmem⟩ := exists_of_mem_own h
  obtain ⟨l, rfl, hname⟩ := Assembly.eq_label_of_mem_lines hmem
  exact ⟨l, o.outside_subset hi, hname⟩

/-- If all others of its name are declared in the first function, its section is the last one of that name. -/
theorem exists_last_of_first {body : List Statement} {d : Declared}
    (hfirst : (bodyFunctions false body).find? (fun e => e.name = f) = some d)
    (hinside : ((bodyFunctions false body).filter fun e => e.name = f).length =
      ((bodyFunctions d.inLoop d.body).filter fun e => e.name = f).length + 1)
    (hlabels : ∀ before name rest, lower table body = before ++ .functionBegin name :: rest →
      ∀ l : Label, .label l ∈ insideOpen 0 rest → l.name ≠ f) :
    ∃ (before : List Line) (g : Outline) (m : Nat) (after : List Line),
      assemble (lower table body) = before ++ sectionOf f (g.own m) ++ after ∧ g.Proper ∧ d.Lowers table (f, g) ∧
        .label f ∉ g.own m ∧ .label f ∉ after := by
  obtain ⟨o, ho, hlower, hds⟩ := outlined_lower table body
  obtain ⟨es, hes⟩ : ∃ es, (bodyFunctions false body).filter (fun e => e.name = f) = d :: es := by
    rw [← List.head?_filter] at hfirst
    exact List.head?_eq_some_iff.mp hfirst
  have hnamed := Declared.Lowers.filter hds f
  rw [hes] at hnamed hinside
  obtain ⟨g, gs, hlowers, hothers, hgs⟩ := List.forall₂_cons_left_iff.mp hnamed
  have hg : g ∈ o.functions := List.mem_of_mem_filter (hgs ▸ List.mem_cons_self)
  have hproper := ho.of_mem_functions hg
  have hname : g.1 = f := of_decide_eq_true (List.mem_filter.mp (hgs ▸ List.mem_cons_self : g ∈ o.functions.filter _)).2
  have hfirst : o.named f = g :: g.2.named f := by
    obtain ⟨others, rfl⟩ := Outline.exists_named_eq hgs
    have hlength := hothers.length_eq
    rw [List.length_append, hlowers.length_named hproper f] at hlength
    rw [List.length_cons] at hinside
    have hnone : others = [] := List.length_eq_zero_iff.mp (by omega)
    rw [hnone, List.append_nil] at hgs
    exact hgs
  obtain ⟨before, m, after, hsections, hafter⟩ := Outline.exists_last_section hfirst 0
  have hown : ∀ h ∈ o.functions, ∀ n, .label f ∉ h.2.own n := by
    intro h hmem n hlabel
    obtain ⟨l, hl, hname⟩ := Outline.exists_label_of_mem_own hlabel
    obtain ⟨before, after, hbegin⟩ := Outline.exists_begin_of_mem hmem
    refine hlabels before h.1 _ (hlower.symm.trans hbegin) l ?_ hname
    rwa [Outline.insideOpen_end (ho.of_mem_functions hmem)]
  refine ⟨o.own 0 ++ .ret :: before.flatten, g.2, m, after.flatten, ?_, hproper, ?_, hown g hg m, fun hlabel => ?_⟩
  · have hne : (o.sections 0).flatten ≠ [] := by
      rw [hsections]
      simp [sectionOf]
    rw [← hlower, assemble_instructions ho, if_neg hne, hsections, List.flatten_append, List.flatten_cons]
    simp only [List.append_assoc, List.cons_append]
  · rw [← hname]
    exact hlowers
  · obtain ⟨s, hs, hlabel⟩ := List.mem_flatten.mp hlabel
    obtain ⟨h, hmem, hne, m', rfl⟩ := hafter s hs
    rcases List.mem_append.mp hlabel with hlabel | hlabel
    · rcases List.mem_cons.mp hlabel with heq | hlabel
      · exact hne (Line.label.inj heq).symm
      · exact hown h hmem m' hlabel
    · cases List.mem_singleton.mp hlabel

end First

/-! ## Calls -/

/-- **A call binds the parameters of the function of its name that is declared first, and goes there.** There is nothing
wrong with the source. The name is not that of a function which the machine has, nor that of a label in a function. The
table has it as the name of a function, all functions registered with it are declared, and all but the first of them are
declared in the first one. -/
theorem call_of_first_declaration (source : String) (hclean : (analyze source).diagnostics = []) {f : String} {k : Nat}
    {words : List String} {d : Declared}
    (hcall : (Program.ofText (analyze source).code.assembly).lines[k]? = some (.ok (.call f words)))
    (hbuiltin : Machine.isBuiltin f = false)
    (hlabels : ∀ before name rest,
      lower (analyze source).symbols (analyze source).body = before ++ .functionBegin name :: rest →
        ∀ l : Label, .label l ∈ insideOpen 0 rest → l.name ≠ f)
    (hfirst : (bodyFunctions false (analyze source).body).find? (fun e => e.name = f) = some d)
    (hinside : ((bodyFunctions false (analyze source).body).filter fun e => e.name = f).length =
      ((bodyFunctions d.inLoop d.body).filter fun e => e.name = f).length + 1)
    (hregistered : ((registered (analyze source).tokens).filter fun h => h.1 = f).length =
      ((bodyFunctions false (analyze source).body).filter fun e => e.name = f).length)
    {params : List String} {declared : Option Nat}
    (htable : (analyze source).symbols.get? f = some ⟨f, .function params, declared⟩) :
    (∃ pos args start, .call pos f args false ∈ bodyNodes (analyze source).body ∧
      Placed (analyze source).loaded start (bindAll d.params args ++ [.call f []]) ∧
      start + (bindAll d.params args).length = k) ∧
    ∃ entry, (∀ s : Machine.State, s.pc = k → (Program.ofText (analyze source).code.assembly).step s =
        .next { s with pc := entry, stack := (k + 1) :: s.stack }) ∧
      ∃ (o : Outline) (loopExit : Option Label) (n m : Nat), o.Proper ∧
        o.instructions = ((lowerBody (analyze source).symbols loopExit d.body).run n).1 ∧
        Placed (analyze source).loaded entry (sectionOf f (o.own m)) := by
  rw [ofText_analyze] at hcall ⊢
  rw [Machine.lines_ofLines] at hcall
  have hloaded := Analysis.loaded_eq_lines hcall (by simp)
  rw [hloaded] at hcall ⊢
  obtain ⟨hidentifier, pos, args, start, hs, hplaced, hk⟩ := exists_placed_call hcall hbuiltin
  have hname : f ≠ "" := by
    rintro rfl
    obtain ⟨c, cs, hhead, -⟩ := (hidentifier.isName (scanned_tokenize source)).head
    cases hhead
  have hparse : (parse (tokenize source)).diagnostics = [] :=
    (List.append_eq_nil_iff.mp (List.append_eq_nil_iff.mp hclean).1).2
  have hparams : (analyze source).symbols.params f = d.params := by
    rw [SymbolTable.params_of_get? htable]
    exact params_of_declared hparse hname hfirst hregistered htable
  rw [hparams] at hplaced hk
  refine ⟨⟨pos, args, start, hs, hplaced, hk⟩, ?_⟩
  obtain ⟨before, g, m, after, hassemble, hproper, ⟨-, loopExit, n, -, hinstructions⟩, hinside, hafter⟩ :=
    exists_last_of_first hfirst hinside hlabels
  have hlines : (analyze source).lines = before ++ .label f :: (g.own m ++ [.ret] ++ after) := by
    rw [Analysis.lines, hassemble, sectionOf]
    simp only [List.append_assoc, List.cons_append]
  have hlast : .label f ∉ g.own m ++ [.ret] ++ after := by
    simp only [List.mem_append, List.mem_singleton, reduceCtorEq, or_false, not_or]
    exact ⟨hinside, hafter⟩
  have hentry : (Program.ofLines (analyze source).lines).lineOf? f = some before.length := by
    rw [hlines]
    exact Machine.lineOf?_of_last hlast
  refine ⟨before.length, fun s hpc => ?_, g, loopExit, n, m, hproper, hinstructions, before, after, hassemble, rfl⟩
  subst hpc
  obtain ⟨hprint, hprompt⟩ := Bool.or_eq_false_iff.mp hbuiltin
  rw [Machine.step_ofLines hcall, Program.execute, if_neg (by simpa using hprint), if_neg (by simpa using hprompt),
    Program.jump, hentry]

/-- The second function of the name is declared in the first one. -/
def redeclaredInside : String :=
  "Ex f(nmb a) \x7b Ex f(nmb b) \x7b printO(b); \x7d printO(a); \x7d f(7);"

theorem call_of_first_declaration_in_redeclaredInside :
    ∃ d, (bodyFunctions false (analyze redeclaredInside).body).find? (fun e => e.name = "f") = some d ∧
      d.params = ["a"] ∧ ∃ entry, (∀ s : Machine.State, s.pc = 1 →
        (Program.ofText (analyze redeclaredInside).code.assembly).step s =
          .next { s with pc := entry, stack := 2 :: s.stack }) ∧
        ∃ (o : Outline) (loopExit : Option Label) (n m : Nat), o.Proper ∧
          o.instructions = ((lowerBody (analyze redeclaredInside).symbols loopExit d.body).run n).1 ∧
          Placed (analyze redeclaredInside).loaded entry (sectionOf "f" (o.own m)) := by
  have hfound : ((bodyFunctions false (analyze redeclaredInside).body).find? fun e => e.name = "f").isSome = true := by
    decide +kernel
  obtain ⟨d, hfirst⟩ := Option.isSome_iff_exists.mp hfound
  have hall : ((bodyFunctions false (analyze redeclaredInside).body).find? fun e => e.name = "f").all (fun d =>
      d.params = ["a"] ∧ ((bodyFunctions false (analyze redeclaredInside).body).filter fun e => e.name = "f").length =
        ((bodyFunctions d.inLoop d.body).filter fun e => e.name = "f").length + 1) = true := by
    decide +kernel
  rw [hfirst, Option.all_some, decide_eq_true_eq] at hall
  have hlabels : ∀ l : Label, l.name ≠ "f" := by
    intro l h
    have hhead := congrArg (fun name => name.toList.head?) h
    simp [Label.name] at hhead
  have hcall : (Program.ofText (analyze redeclaredInside).code.assembly).lines[1]? = some (.ok (.call "f" [])) := by
    decide +kernel
  have htable : (analyze redeclaredInside).symbols.get? "f" = some ⟨"f", .function ["a"], some 1⟩ := by decide +kernel
  obtain ⟨-, hgoes⟩ := call_of_first_declaration redeclaredInside (by decide +kernel) hcall (by decide)
    (fun _ _ _ _ l _ => hlabels l) hfirst hall.2 (by decide +kernel) htable
  exact ⟨d, hfirst, hall.1, hgoes⟩

/-- The second function of the name is declared behind the first one. -/
def redeclaredBehind : String :=
  "Ex f(nmb a) \x7b printO(1, a); \x7d Ex f(nmb b) \x7b printO(2, b); \x7d f(7);"

/-- **Of functions declared one behind the other a call goes to the last.** It binds the parameter of the first one, so
that of the last one is zero. -/
theorem redeclaredBehind_goes_to_the_last :
    (analyze redeclaredBehind).diagnostics = [] ∧
      ((bodyFunctions false (analyze redeclaredBehind).body).map fun d => (d.name, d.params)) =
        [("f", ["a"]), ("f", ["b"])] ∧
      (analyze redeclaredBehind).lines = [.move "a" "7", .call "f" [], .ret] ++
        sectionOf "f" [.call "printO" ["1", "a"]] ++ sectionOf "f" [.call "printO" ["2", "b"]] ∧
      (Program.ofText (analyze redeclaredBehind).code.assembly).lineOf? "f" = some 6 ∧
      ((Machine.run (analyze redeclaredBehind).code.assembly 100).replay []).events = [.print "2 0"] := by
  decide +kernel

end Dotlang
