import Dotlang.Proofs.Ledgers
import Dotlang.Proofs.Outline
import Dotlang.Proofs.Symbols

/-!
# Which declarations of functions are registered

* `headings`, `registered` : the functions that a tree declares and those that a token list registers, with their
  parameters;
* `Read.Accounts xs m F` : unless `m` complains, what it returns and the tokens it leaves have no more functions than
  `xs` and the tokens before;
* `Ledger.ofHeadings` : so it is with all of reading, if it is so with headings;
* `headings_sublist_registered` : the functions of a tree are registered, in the same order;
* `params_of_declared` : so the table has the parameters of the function declared first, unless something else of its
  name is registered before.
-/

namespace Dotlang

/-! ## Headings -/

/-- A function and its parameters, if it has a name. -/
def Statement.heading? : Statement → Option (String × List String)
  | .function _ name params _ => if name = "" then none else some (name, params)
  | _ => none

/-- The named functions that a body declares. -/
def headings (body : List Statement) : List (String × List String) := (bodyNodes body).filterMap Statement.heading?

/-- A function and its parameters. -/
def Symbol.heading? : Symbol → Option (String × List String)
  | ⟨name, .function params, _⟩ => some (name, params)
  | ⟨_, .variable .., _⟩ => none

theorem Symbol.fst_of_heading? {s : Symbol} {h : String × List String} (hs : s.heading? = some h) : h.1 = s.name := by
  obtain ⟨name, _ | params, line⟩ := s
  · cases hs
  · rw [← Option.some.inj hs]

/-- The functions that a token list registers. -/
def registered : List Token → List (String × List String)
  | [] => []
  | t :: ts =>
    (if t.keyword? = some .ex then (declaredFunction? ts).bind Symbol.heading? else none).toList ++ registered ts

theorem registered_sublist_cons (t : Token) (ts : List Token) : (registered ts).Sublist (registered (t :: ts)) :=
  List.sublist_append_right _ _

theorem heading?_loopVariable? (ts : List Token) : (loopVariable? ts).bind Symbol.heading? = none := by
  unfold loopVariable?
  split
  · split_ifs <;> rfl
  · rfl

theorem heading?_inputVariable? (ts : List Token) : (inputVariable? ts).bind Symbol.heading? = none := by
  unfold inputVariable?
  split
  · split_ifs <;> rfl
  · rfl

/-- A keyword registers a function only where one is declared. -/
theorem heading?_keywordSymbol? (k : Option Keyword) (ts : List Token) :
    (keywordSymbol? k ts).bind Symbol.heading? =
      if k = some .ex then (declaredFunction? ts).bind Symbol.heading? else none := by
  unfold keywordSymbol?
  split
  · exact heading?_loopVariable? ts
  · rfl
  · exact heading?_inputVariable? ts
  · rename_i hex _
    rw [if_neg hex]
    rfl

/-- The functions among the symbols that a token list registers. -/
theorem filterMap_registrations (ts : List Token) (pending : Option (Option DataType)) :
    (registrations pending ts).filterMap Symbol.heading? = registered ts := by
  induction ts generalizing pending with
  | nil => rfl
  | cons t ts ih =>
    have hword : t.kind ≠ .keyword → t.keyword? ≠ some .ex := by
      intro hkind
      rw [Token.keyword?, if_neg hkind]
      exact (Option.some_ne_none _).symm
    rw [registered, registrations]
    split
    · rename_i hkind
      rw [if_neg (hword (by simp [hkind])), ih]
      rfl
    · rename_i hkind
      rw [if_neg (hword (by simp [hkind])), List.filterMap_append, ih]
      cases pending <;> rfl
    · rw [List.filterMap_append, ih, ← heading?_keywordSymbol?]
      cases keywordSymbol? t.keyword? ts with
      | none => rfl
      | some s =>
        rw [Option.bind_some, Option.toList_some, List.filterMap_cons]
        cases s.heading? <;> rfl

/-- If the first symbol of a name is a function, it is the first function of that name. -/
theorem find?_registered {tokens : List Token} {f : String} {s : Symbol} {params : List String}
    (hs : (registrations none tokens).find? (fun s => s.name == f) = some s)
    (hheading : s.heading? = some (f, params)) :
    (registered tokens).find? (fun h => h.1 = f) = some (f, params) := by
  obtain ⟨-, before, after, hsplit, hbefore⟩ := List.find?_eq_some_iff_append.mp hs
  have hnone : (before.filterMap Symbol.heading?).find? (fun h => h.1 = f) = none := by
    refine List.find?_eq_none.mpr fun h hh => ?_
    obtain ⟨x, hx, hx'⟩ := List.mem_filterMap.mp hh
    rw [Symbol.fst_of_heading? hx']
    simpa using hbefore x hx
  rw [← filterMap_registrations tokens none, hsplit, List.filterMap_append, List.find?_append, hnone,
    List.filterMap_cons_some hheading, List.find?_cons_of_pos (by simp)]
  rfl

/-! ## Reading headings -/

/-- The functions that tokens register and trees declare, in the same order. -/
def Ledger.ofHeadings : Ledger (String × List String) where
  Covers xs ys := xs.Sublist ys
  of_sublist h := h
  trans := List.Sublist.trans
  append_left zs h := (List.Sublist.refl zs).append h
  promised := registered
  promised_cons := registered_sublist_cons
  ofDeclaration _ := []
  ofCall _ _ _ := []
  ofHeading h := if h.1 = "" then [] else [h]

namespace Read

variable {α : Type}

/-- The heading of a function is registered as it is read. -/
theorem declaredFunction?_of_clean {r : Reader} (h : (exec header r).2.diagnostics = [])
    (hname : (exec header r).1.1 ≠ "") :
    ∃ line, declaredFunction? r.rest = some ⟨(exec header r).1.1, .function (exec header r).1.2, line⟩ := by
  simp only [header, exec_bind, exec_untilParen, exec_pure] at h hname ⊢
  have hinside := (Skips.expect .rparen _).2 h
  obtain ⟨hparen, -, hlparen⟩ := expect_of_clean hinside
  obtain ⟨-, hfst, hidentifier⟩ := expect_of_clean hparen
  rw [exec_expect_rest] at hlparen
  rw [hfst] at hname
  rw [hfst, exec_expect_rest, exec_expect_rest]
  cases hrest : r.rest with
  | nil =>
    rw [hrest] at hname
    exact absurd rfl hname
  | cons name ts =>
    rw [hrest] at hidentifier hlparen
    have hparens : firstParens ts = ts.tail.takeWhile Token.isInside := by
      cases ts with
      | nil => rfl
      | cons paren us =>
        have hkind : paren.kind = .lparen := hlparen paren rfl
        simp [firstParens, hkind]
    refine ⟨some name.line, ?_⟩
    rw [declaredFunction?, if_pos (hidentifier name rfl), hparens]
    rfl

/-! ## Actions that declare functions -/

/-- Unless the action complains, the functions in what it returns and those that the tokens it leaves register are among
`xs` and those that the tokens before register, in the same order. -/
def AccountsAt (r : Reader) (xs : List (String × List String)) (m : Read α) (F : α → List (String × List String)) :
    Prop :=
  (exec m r).2.diagnostics = [] →
    r.diagnostics = [] ∧ (F (exec m r).1 ++ registered (exec m r).2.rest).Sublist (xs ++ registered r.rest)

/-- So it is wherever the action begins. -/
def Accounts (xs : List (String × List String)) (m : Read α) (F : α → List (String × List String)) : Prop :=
  ∀ r : Reader, AccountsAt r xs m F

/-- Without a complaint, a function is registered as it is declared. -/
theorem heading_accountsAt {first : Token} (hfirst : first.keyword? = some .ex) (ts : List Token) (opened : List Nat)
    (ds : List Diagnostic) :
    AccountsAt ⟨first :: ts, opened, ds⟩ [] (advance >>= fun _ => header) fun h => if h.1 = "" then [] else [h] := by
  intro hfinal
  obtain ⟨hrest, hclean⟩ := Skips.header ⟨ts, opened, ds⟩
  refine ⟨hclean hfinal, ?_⟩
  rw [registered, if_pos hfirst, List.nil_append]
  refine List.Sublist.append ?_ (Ledger.ofHeadings.promised_of_suffix hrest)
  show (if (exec header ⟨ts, opened, ds⟩).1.1 = "" then [] else [(exec header ⟨ts, opened, ds⟩).1]).Sublist _
  split_ifs with hname
  · exact List.nil_sublist _
  · obtain ⟨line, hdeclared⟩ := declaredFunction?_of_clean (r := ⟨ts, opened, ds⟩) hfinal hname
    rw [hdeclared]
    exact List.Sublist.refl _

end Read

namespace Ledger

theorem entered_ofHeadings (s : Statement) : ofHeadings.entered s = s.heading?.toList := by
  cases s with
  | function pos name params body =>
    show (if name = "" then [] else [(name, params)]) = (if name = "" then none else some (name, params)).toList
    split <;> rfl
  | counting pos init => cases init <;> rfl
  | _ => rfl

theorem entries_ofHeadings (body : List Statement) : ofHeadings.entries body = headings body := by
  rw [entries, headings, List.filterMap_eq_flatMap_toList, funext entered_ofHeadings]

theorem sound_ofHeadings : ofHeadings.Sound where
  declaration := .of_skips .declaration fun d => by cases d <;> rfl
  call first builtin := kept_plain (.call first builtin) fun _ => rfl
  heading := Read.heading_accountsAt

end Ledger

theorem Read.program_accounts (fuel : Nat) : Accounts [] (program fuel) headings := by
  rw [← funext Ledger.entries_ofHeadings]
  exact Ledger.kept_program Ledger.sound_ofHeadings fuel

/-- **If there is nothing wrong with its syntax, the functions that a tree declares are registered, in the same
order.** -/
theorem headings_sublist_registered {tokens : List Token} (h : (parse tokens).diagnostics = []) :
    (headings (parse tokens).body).Sublist (registered tokens) := by
  obtain ⟨-, hsub⟩ := Read.program_accounts tokens.length ⟨tokens, [], []⟩ h
  exact (List.sublist_append_left _ _).trans hsub

/-! ## Tables -/

/-- A function and its parameters, if it has a name. -/
def Declared.heading? (d : Declared) : Option (String × List String) :=
  if d.name = "" then none else some (d.name, d.params)

mutual

theorem Statement.filterMap_heading? (inLoop : Bool) :
    ∀ s : Statement, s.nodes.filterMap Statement.heading? = (s.functions inLoop).filterMap Declared.heading?
  | .block _ body => filterMap_heading? inLoop body
  | .declare .. | .assign .. | .call .. | .brk _ => rfl
  | .function _ name params body => by
    rw [Statement.nodes, Statement.functions, List.filterMap_cons, List.filterMap_cons, filterMap_heading? inLoop body]
    rfl
  | .conditional _ cond body alternatives => by
    rw [Statement.nodes, Statement.functions, List.filterMap_append, ← filterMap_heading? inLoop body,
      ← Alternatives.filterMap_heading? inLoop alternatives, ← List.filterMap_append]
    rfl
  | .whileLoop _ _ body | .doWhile _ body _ | .counting _ _ _ _ body => filterMap_heading? true body

theorem filterMap_heading? (inLoop : Bool) :
    ∀ body : List Statement, (bodyNodes body).filterMap Statement.heading? =
      (bodyFunctions inLoop body).filterMap Declared.heading?
  | [] => rfl
  | s :: ss => by
    rw [bodyNodes, bodyFunctions, List.filterMap_append, List.filterMap_append, s.filterMap_heading? inLoop,
      filterMap_heading? inLoop ss]

theorem Alternatives.filterMap_heading? (inLoop : Bool) :
    ∀ a : Alternatives, a.nodes.filterMap Statement.heading? = (a.functions inLoop).filterMap Declared.heading?
  | .done => rfl
  | .otherwise body => Dotlang.filterMap_heading? inLoop body
  | .branch _ body rest => by
    rw [Alternatives.nodes, Alternatives.functions, List.filterMap_append, List.filterMap_append,
      Dotlang.filterMap_heading? inLoop body, rest.filterMap_heading? inLoop]

end

/-- Among the functions of a body those of a name are found by their headings. -/
theorem filter_headings {f : String} (hf : f ≠ "") (body : List Statement) :
    (headings body).filter (fun h => h.1 = f) =
      ((bodyFunctions false body).filter fun d => d.name = f).map fun d => (d.name, d.params) := by
  rw [headings, filterMap_heading? false]
  induction bodyFunctions false body with
  | nil => rfl
  | cons d ds ih =>
    by_cases hname : d.name = f
    · have hd : d.heading? = some (d.name, d.params) := if_neg fun h => hf (hname.symm.trans h)
      rw [List.filterMap_cons_some hd, List.filter_cons_of_pos (by simpa using hname),
        List.filter_cons_of_pos (by simpa using hname), List.map_cons, ih]
    · rw [List.filter_cons_of_neg (by simpa using hname), ← ih, List.filterMap_cons, Declared.heading?]
      split_ifs
      · rfl
      · exact List.filter_cons_of_neg (by simpa using hname)

namespace SymbolTable

theorem get?_insertAll (table : SymbolTable) (ss : List Symbol) (name : String) :
    (table.insertAll ss).get? name = (table.get? name).or (ss.find? fun s => s.name == name) := by
  induction ss generalizing table with
  | nil => exact (Option.or_none).symm
  | cons s ss ih =>
    show ((table.insert s).insertAll ss).get? name = _
    rw [ih]
    by_cases hname : s.name = name
    · subst hname
      have hfind : ((s :: ss).find? fun x => x.name == s.name) = some s :=
        List.find?_cons_of_pos (beq_self_eq_true s.name)
      rw [get?_insert_self, hfind]
      cases table.get? s.name <;> rfl
    · rw [get?_insert_of_ne table hname, List.find?_cons_of_neg (by simpa using hname)]

theorem params_of_get? {table : SymbolTable} {name : String} {s : Symbol} (h : table.get? name = some s) :
    table.params name = s.meaning.params := by
  rw [params, h]
  obtain ⟨_, meaning, _⟩ := s
  cases meaning <;> rfl

end SymbolTable

/-- **If functions of a name are registered as often as they are declared, and the table has the name as that of a
function, its parameters are those of the function declared first.** -/
theorem params_of_declared {tokens : List Token} (hclean : (parse tokens).diagnostics = []) {f : String} (hf : f ≠ "")
    {d : Declared} (hfirst : (bodyFunctions false (parse tokens).body).find? (fun d => d.name = f) = some d)
    (hregistered : ((registered tokens).filter fun h => h.1 = f).length =
      ((bodyFunctions false (parse tokens).body).filter fun d => d.name = f).length)
    {builtins : List String} {params : List String} {line : Option Nat}
    (htable : (SymbolTable.ofTokens tokens builtins).get? f = some ⟨f, .function params, line⟩) :
    params = d.params := by
  have hfound : (registered tokens).find? (fun h => h.1 = f) = some (d.name, d.params) := by
    have hsub := (headings_sublist_registered hclean).filter fun h => h.1 = f
    rw [filter_headings hf] at hsub
    have heq := hsub.eq_of_length (by rw [List.length_map, hregistered])
    rw [← List.head?_filter, ← heq, List.head?_map, List.head?_filter, hfirst]
    rfl
  obtain ⟨s, hs⟩ : ∃ s, (registrations none tokens).find? (fun s => s.name == f) = some s := by
    rw [← filterMap_registrations tokens none] at hfound
    obtain ⟨s, hs, hheading⟩ := List.mem_filterMap.mp (List.mem_of_find?_eq_some hfound)
    have hname : d.name = f := by simpa using List.find?_some hfirst
    refine Option.isSome_iff_exists.mp (List.find?_isSome.mpr ⟨s, hs, ?_⟩)
    rw [← Symbol.fst_of_heading? hheading, hname, beq_self_eq_true]
  have hget : s = ⟨f, .function params, line⟩ := by
    rw [SymbolTable.ofTokens, SymbolTable.get?_insertAll, List.find?_append, hs] at htable
    exact Option.some.inj htable
  have hheading : s.heading? = some (f, params) := hget ▸ rfl
  have hhead := find?_registered hs hheading
  rw [hfound] at hhead
  exact (congrArg Prod.snd (Option.some.inj hhead)).symm

end Dotlang
