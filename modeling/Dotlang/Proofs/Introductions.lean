import Dotlang.Compilation
import Dotlang.Proofs.Ledgers
import Dotlang.Proofs.Symbols

/-!
# Which variables are registered

A data type registers the next identifier as a variable, whatever stands between the two. The tree has a place for every
data type that introduces a name: declarations, parameters and the arguments of `enter`.

* `introductions` : for each data type in a tree, the name that it introduces there, if any;
* `waiting` : for each data type in a token list, the next identifier before another data type;
* `Covered` : one by one and in order, names found are the names waited for;
* `Ledger.ofTypes`, `introductions_covered` : without a complaint, a tree introduces names that data types wait for;
* `introduced_of_variable` : if the tree has all data types of the source, and each introduces a name, then no variable
  is registered but those that the tree introduces.
-/

namespace Dotlang

/-! ## Data types in a tree -/

/-- The name that an argument begins with. -/
def Argument.name? : Argument → Option String
  | .value c => if c.first.kind = .identifier then some c.first.lexeme else none
  | .type _ => none

/-- For each data type among arguments, the name that the next argument begins with. -/
def askedNames : List Argument → List (Option String)
  | [] => []
  | .type _ :: args => args.head?.bind Argument.name? :: askedNames args
  | .value _ :: args => askedNames args

/-- For each data type in a statement, the statements inside it apart, the name that it introduces. Among the arguments
of a call only those of `enter` introduce names. -/
def Statement.introductions : Statement → List (Option String)
  | .declare _ d => [some d.name]
  | .counting _ init _ _ _ => (init.map fun d => some d.name).toList
  | .function _ _ params _ => params.map some
  | .call _ name args builtin =>
    if builtin ∧ name = Keyword.enter.word then askedNames args else (askedNames args).map fun _ => none
  | _ => []

def introductions (body : List Statement) : List (Option String) := (bodyNodes body).flatMap Statement.introductions

/-! ## Data types in a token list -/

/-- The first identifier, unless a data type comes before it. -/
def nextName? : List Token → Option String
  | [] => none
  | t :: ts => if t.kind = .identifier then some t.lexeme else if t.kind = .dataType then none else nextName? ts

/-- For each data type, the identifier that it registers. -/
def waiting : List Token → List (Option String)
  | [] => []
  | t :: ts => (if t.kind = .dataType then [nextName? ts] else []) ++ waiting ts

theorem waiting_dataType {t : Token} (ht : t.kind = .dataType) (ts : List Token) :
    waiting (t :: ts) = nextName? ts :: waiting ts := by
  rw [waiting, if_pos ht, List.singleton_append]

theorem nextName?_identifier {t : Token} (ht : t.kind = .identifier) (ts : List Token) :
    nextName? (t :: ts) = some t.lexeme := if_pos ht

theorem nextName?_other {t : Token} (hname : t.kind ≠ .identifier) (htype : t.kind ≠ .dataType) (ts : List Token) :
    nextName? (t :: ts) = nextName? ts := by
  rw [nextName?, if_neg hname, if_neg htype]

theorem waiting_sublist_of_suffix {ts us : List Token} (h : ts <:+ us) : (waiting ts).Sublist (waiting us) := by
  obtain ⟨before, rfl⟩ := h
  induction before with
  | nil => exact List.Sublist.refl _
  | cons t before ih => exact ih.trans (List.sublist_append_right _ _)

theorem length_waiting (ts : List Token) : (waiting ts).length = (ts.filter fun t => t.kind = .dataType).length := by
  induction ts with
  | nil => rfl
  | cons t ts ih =>
    by_cases ht : t.kind = .dataType
    · rw [waiting_dataType ht, List.filter_cons_of_pos (by simpa using ht), List.length_cons, List.length_cons, ih]
    · rw [waiting, if_neg ht, List.nil_append, List.filter_cons_of_neg (by simpa using ht), ih]

/-- A keyword registers no variable but the identifier directly behind a data type. -/
theorem mem_waiting_of_keywordSymbol? {k : Option Keyword} {ts : List Token} {name : String} {type : Option DataType}
    {initializer : Option String} {line : Option Nat}
    (h : keywordSymbol? k ts = some ⟨name, .variable type initializer, line⟩) : some name ∈ waiting ts := by
  have hbehind : ∀ {t u : Token} {us : List Token}, t.kind = .dataType → u.kind = .identifier → t :: u :: us <:+ ts →
      some u.lexeme ∈ waiting ts := by
    intro t u us ht hu hsuffix
    refine (waiting_sublist_of_suffix hsuffix).subset ?_
    rw [waiting_dataType ht, nextName?_identifier hu]
    exact List.mem_cons_self
  unfold keywordSymbol? at h
  split at h
  · unfold loopVariable? at h
    split at h
    · split_ifs at h with hkinds
      cases h
      exact hbehind hkinds.2.1 hkinds.2.2.1 (List.suffix_cons _ _)
    · cases h
  · unfold declaredFunction? at h
    split at h
    · split_ifs at h
      cases h
    · cases h
  · unfold inputVariable? at h
    split at h
    · rename_i paren message comma type name rest
      split_ifs at h with hkinds
      cases h
      exact hbehind hkinds.2.2.2.1 hkinds.2.2.2.2 ⟨[paren, message, comma], rfl⟩
    · cases h
  · cases h

/-- A variable is registered by a data type of the token list, or by the one that waits before it. -/
theorem mem_waiting_of_registrations {ts : List Token} {pending : Option (Option DataType)} {name : String}
    {type : Option DataType} {initializer : Option String} {line : Option Nat}
    (h : ⟨name, .variable type initializer, line⟩ ∈ registrations pending ts) :
    some name ∈ waiting ts ∨ pending.isSome ∧ nextName? ts = some name := by
  induction ts generalizing pending with
  | nil => exact absurd h List.not_mem_nil
  | cons t ts ih =>
    have hlater : some name ∈ waiting ts → some name ∈ waiting (t :: ts) :=
      fun hname => (waiting_sublist_of_suffix (List.suffix_cons t ts)).subset hname
    unfold registrations at h
    split at h
    · rename_i hkind
      refine Or.inl ?_
      rcases ih h with hname | ⟨-, hnext⟩
      · exact hlater hname
      · rw [waiting_dataType hkind, hnext]
        exact List.mem_cons_self
    · rename_i hkind
      rcases List.mem_append.mp h with h | h
      · obtain ⟨_, rfl, hs⟩ := Option.map_eq_some_iff.mp (Option.mem_toList.mp h)
        cases hs
        exact Or.inr ⟨rfl, nextName?_identifier hkind ts⟩
      · rcases ih h with hname | ⟨hnone, -⟩
        · exact Or.inl (hlater hname)
        · cases hnone
    · rename_i htype hname
      rcases List.mem_append.mp h with h | h
      · exact Or.inl (hlater (mem_waiting_of_keywordSymbol? (Option.mem_toList.mp h)))
      · rw [nextName?_other hname htype]
        exact (ih h).imp_left hlater

/-! ## Names found and names waited for -/

/-- If a name is found, it is the expected one. -/
def Agrees (found expected : Option String) : Prop := ∀ name ∈ found, name ∈ expected

instance : Std.Refl Agrees := ⟨fun _ _ h => h⟩

instance : IsTrans (Option String) Agrees := ⟨fun _ _ _ hab hbc name h => hbc name (hab name h)⟩

/-- What is found agrees, one by one and in order, with some of what is expected. -/
def Covered (found expected : List (Option String)) : Prop := List.SublistForall₂ Agrees found expected

namespace Covered

variable {xs ys zs ws : List (Option String)}

theorem of_sublist (h : xs.Sublist ys) : Covered xs ys := h.sublistForall₂

theorem refl (xs : List (Option String)) : Covered xs xs := of_sublist (List.Sublist.refl xs)

theorem trans (h : Covered xs ys) (h' : Covered ys zs) : Covered xs zs :=
  IsTrans.trans (r := List.SublistForall₂ Agrees) _ _ _ h h'

theorem cons {x y : Option String} (hhead : Agrees x y) (h : Covered xs ys) : Covered (x :: xs) (y :: ys) :=
  List.SublistForall₂.cons hhead h

theorem append (h : Covered xs ys) (h' : Covered zs ws) : Covered (xs ++ zs) (ys ++ ws) := by
  induction h with
  | nil => exact h'.trans (of_sublist (List.sublist_append_right _ _))
  | cons hhead _ ih => exact .cons hhead ih
  | cons_right _ ih => exact .cons_right ih

/-- No name agrees with any. -/
theorem forget (xs : List (Option String)) : Covered (xs.map fun _ => none) xs := by
  induction xs with
  | nil => exact .nil
  | cons x xs ih => exact .cons nofun ih

/-- If as many names are found as are expected, they are the expected ones. -/
theorem eq_of_length (h : Covered xs ys) (hlength : xs.length = ys.length) (hnamed : none ∉ xs) : xs = ys := by
  obtain ⟨zs, hall, hsub⟩ := List.sublistForall₂_iff.mp h
  obtain rfl := hsub.eq_of_length (hall.length_eq.symm.trans hlength)
  clear h hsub hlength
  induction hall with
  | nil => rfl
  | @cons x y xs ys hhead _ ih =>
    rw [List.mem_cons, not_or] at hnamed
    obtain ⟨name, rfl⟩ := Option.ne_none_iff_exists'.mp (Ne.symm hnamed.1)
    rw [ih hnamed.2, hhead name rfl]

end Covered

/-! ## Lists in parentheses -/

/-- What an argument leaves, without the comma that separates it from the next. -/
def dropComma (ts : List Token) : List Token := if ts.head?.any fun t => t.kind = .comma then ts.tail else ts

theorem dropComma_suffix (ts : List Token) : dropComma ts <:+ ts := by
  unfold dropComma
  split_ifs
  · exact List.tail_suffix ts
  · exact List.suffix_refl ts

theorem nextName?_dropComma (ts rest : List Token) :
    nextName? (dropComma ts ++ rest) = nextName? (ts ++ rest) := by
  unfold dropComma
  split_ifs with hcomma
  · cases ts with
    | nil => rfl
    | cons t ts =>
      have hkind : t.kind = .comma := by simpa using hcomma
      exact (nextName?_other (by rw [hkind]; decide) (by rw [hkind]; decide) _).symm
  · rfl

theorem readAll_type {t : Token} (ht : t.kind = .dataType) (ts : List Token) (fuel : Nat) :
    Argument.readAll (fuel + 1) (t :: ts) = .type t.lexeme :: Argument.readAll fuel (dropComma ts) := by
  rw [Argument.readAll, if_pos ht]
  rfl

/-- A chain begins with the operand that it is read from. -/
theorem readAll_operand {t : Token} (ht : t.kind.isOperand = true) (ts : List Token) (fuel : Nat) :
    Argument.readAll (fuel + 1) (t :: ts) =
      .value ⟨t.operand, (Chain.readTerms ts).1⟩ :: Argument.readAll fuel (dropComma (Chain.readTerms ts).2) := by
  have htype : t.kind ≠ .dataType := fun h => by rw [h] at ht; cases ht
  rw [Argument.readAll, if_neg htype, Chain.read, if_pos ht]
  rfl

theorem readAll_other {t : Token} (htype : t.kind ≠ .dataType) (ht : ¬ t.kind.isOperand = true) (ts : List Token)
    (fuel : Nat) : Argument.readAll (fuel + 1) (t :: ts) = Argument.readAll fuel (dropComma ts) := by
  rw [Argument.readAll, if_neg htype, Chain.read, if_neg ht]
  rfl

/-- The name that the first argument begins with comes next. -/
theorem nextName?_of_readAll {fuel : Nat} {ts : List Token} {name : String}
    (h : (Argument.readAll fuel ts).head?.bind Argument.name? = some name) (rest : List Token) :
    nextName? (ts ++ rest) = some name := by
  induction fuel generalizing ts with
  | zero => cases h
  | succ fuel ih =>
    cases ts with
    | nil => cases h
    | cons t ts =>
      rw [List.cons_append]
      by_cases htype : t.kind = .dataType
      · rw [readAll_type htype] at h
        cases h
      by_cases hoperand : t.kind.isOperand = true
      · rw [readAll_operand hoperand, List.head?_cons, Option.bind_some, Argument.name?] at h
        split_ifs at h with hname
        rw [nextName?_identifier hname]
        exact h
      · have hname : t.kind ≠ .identifier := fun hkind => hoperand (by rw [hkind]; decide)
        rw [readAll_other htype hoperand] at h
        rw [nextName?_other hname htype, ← nextName?_dropComma]
        exact ih h

/-- The data types among arguments are those in the parentheses. -/
theorem askedNames_covered (fuel : Nat) (ts rest : List Token) :
    Covered (askedNames (Argument.readAll fuel ts) ++ waiting rest) (waiting (ts ++ rest)) := by
  induction fuel generalizing ts with
  | zero => exact .of_sublist (waiting_sublist_of_suffix (List.suffix_append ts rest))
  | succ fuel ih =>
    cases ts with
    | nil => exact .refl _
    | cons t ts =>
      -- the next arguments are read from a part of the tokens behind this one
      have hlater : ∀ us, us <:+ ts → Covered (askedNames (Argument.readAll fuel (dropComma us)) ++ waiting rest)
          (waiting (ts ++ rest)) := by
        intro us hus
        obtain ⟨before, hbefore⟩ := (dropComma_suffix us).trans hus
        refine (ih _).trans (.of_sublist (waiting_sublist_of_suffix ⟨before, ?_⟩))
        rw [← List.append_assoc, hbefore]
      rw [List.cons_append]
      by_cases htype : t.kind = .dataType
      · rw [readAll_type htype, askedNames, waiting_dataType htype]
        refine .cons (fun name hname => ?_) (hlater ts (List.suffix_refl ts))
        rw [← nextName?_dropComma]
        exact nextName?_of_readAll hname rest
      have hskip := waiting_sublist_of_suffix (List.suffix_cons t (ts ++ rest))
      by_cases hoperand : t.kind.isOperand = true
      · rw [readAll_operand hoperand, askedNames]
        exact (hlater _ (Chain.readTerms_suffix ts)).trans (.of_sublist hskip)
      · rw [readAll_other htype hoperand]
        exact (hlater ts (List.suffix_refl ts)).trans (.of_sublist hskip)

/-- The parameters of a function follow data types in the parentheses. -/
theorem parameterNames_covered (ts rest : List Token) :
    Covered ((parameterNames ts).map some ++ waiting rest) (waiting (ts ++ rest)) := by
  induction ts with
  | nil => exact .refl _
  | cons type ts ih =>
    have hskip : Covered ((parameterNames ts).map some ++ waiting rest) (waiting (type :: (ts ++ rest))) :=
      ih.trans (.of_sublist (waiting_sublist_of_suffix (List.suffix_cons type (ts ++ rest))))
    cases ts with
    | nil => exact hskip
    | cons name ts =>
      rw [parameterNames]
      split_ifs with hkinds
      · rw [List.cons_append, List.cons_append, waiting_dataType hkinds.1]
        exact .cons (fun _ h => (nextName?_identifier hkinds.2 (ts ++ rest)).trans h) ih
      · exact hskip

/-! ## Reading data types -/

/-- The names that the data types of a token list wait for and those that a tree introduces. -/
def Ledger.ofTypes : Ledger (Option String) where
  Covers := Covered
  of_sublist := Covered.of_sublist
  trans := Covered.trans
  append_left zs h := .append (.refl zs) h
  promised := waiting
  promised_cons t ts := waiting_sublist_of_suffix (List.suffix_cons t ts)
  ofDeclaration d := [some d.name]
  ofCall name args builtin :=
    if builtin ∧ name = Keyword.enter.word then askedNames args else (askedNames args).map fun _ => none
  ofHeading h := h.2.map some

namespace Ledger

theorem entries_ofTypes (body : List Statement) : ofTypes.entries body = introductions body := by
  have hentered : ∀ s, ofTypes.entered s = s.introductions := by
    intro s
    cases s with
    | counting pos init => cases init <;> rfl
    | _ => rfl
  rw [entries, introductions, funext hentered]

/-- What is read from the tokens up to a closing parenthesis. -/
theorem kept_untilParen {F : List Token → List (Option String)}
    (h : ∀ inside rest, Covered (F inside ++ waiting rest) (waiting (inside ++ rest))) :
    ofTypes.Kept [] Read.untilParen F := by
  intro r hr
  refine ⟨hr, ?_⟩
  have hcovered := h (r.rest.takeWhile Token.isInside) (r.rest.dropWhile Token.isInside)
  rw [List.takeWhile_append_dropWhile] at hcovered
  exact hcovered

/-- Only the name that comes next is declared. -/
theorem named_covered (type : Option DataType) (r : Reader) :
    Covered ((Read.exec (Read.named type) r).1.toList.map (fun d => some d.name) ++
      waiting (Read.exec (Read.named type) r).2.rest) (nextName? r.rest :: waiting r.rest) := by
  have hrest := waiting_sublist_of_suffix (Read.Skips.named type r).1
  cases hd : (Read.exec (Read.named type) r).1 with
  | none => exact .of_sublist (hrest.trans (List.sublist_cons_self _ _))
  | some d =>
    refine .cons (fun name hname => ?_) (.of_sublist hrest)
    cases hname
    obtain ⟨rest, opened, ds⟩ := r
    cases rest with
    | nil => cases hd
    | cons first ts =>
      rw [Read.named, Read.exec_bind, Read.exec_current] at hd
      simp only [List.head?_cons, Read.exec_ite] at hd
      split_ifs at hd with hname
      · rw [Read.exec_bind, Read.exec_bind, Read.exec_ite] at hd
        refine (nextName?_identifier hname ts).trans ?_
        split_ifs at hd <;> cases hd <;> rfl
      · cases hd

open Read

theorem kept_declaration : ofTypes.Kept [] declaration fun d => d.toList.flatMap ofTypes.ofDeclaration := by
  rintro ⟨rest, opened, ds⟩ hr
  cases rest with
  | nil => exact ⟨hr, .refl _⟩
  | cons t ts =>
    have hexpected := (Skips.named t.dataType? (exec (expect .dataType) ⟨t :: ts, opened, ds⟩).2).2 hr
    obtain ⟨hclean, -, hkind⟩ := expect_of_clean hexpected
    have hcovered := named_covered t.dataType? (exec (expect .dataType) ⟨t :: ts, opened, ds⟩).2
    rw [exec_expect_rest, List.tail_cons, ← waiting_dataType (hkind t rfl), List.map_eq_flatMap] at hcovered
    exact ⟨hclean, hcovered⟩

theorem kept_call (first : Token) (builtin : Bool) :
    ofTypes.Kept [] (call first builtin) fun s => ofTypes.entries [s] := by
  have hasked : ∀ inside rest, Covered (ofTypes.entries [.call first.position first.lexeme
      (Argument.readAll inside.length inside) builtin] ++ waiting rest) (waiting (inside ++ rest)) := by
    intro inside rest
    refine .trans ?_ (askedNames_covered inside.length inside rest)
    rw [ofTypes.entries_singleton rfl, List.flatMap_nil, List.append_nil, entered]
    show Covered ((if _ then _ else _) ++ _) _
    split_ifs
    · exact .refl _
    · exact .append (.forget _) (.refl _)
  refine .skip .advance fun _ => .skip (.expect _) fun _ => (kept_untilParen hasked).bind fun inside => ?_
  exact .skip (.expect _) fun _ => .skip (.expect _) fun _ => .pure rfl

theorem kept_header : ofTypes.Kept [] header ofTypes.ofHeading := by
  refine .skip (.expect _) fun name => .skip (.expect _) fun _ => ?_
  refine (kept_untilParen parameterNames_covered).bind fun inside => ?_
  exact .skip (.expect _) fun _ => .pure rfl

theorem sound_ofTypes : ofTypes.Sound where
  declaration := kept_declaration
  call := kept_call
  heading _ _ _ _ := Kept.skip .advance (fun _ => kept_header) _

end Ledger

/-- If there is nothing wrong with its syntax, the names that a tree introduces are covered by those that the data types
of the token list wait for. -/
theorem introductions_covered {tokens : List Token} (h : (parse tokens).diagnostics = []) :
    Covered (introductions (parse tokens).body) (waiting tokens) := by
  rw [← Ledger.entries_ofTypes]
  exact Ledger.covers_of_clean Ledger.sound_ofTypes h

/-- **If the tree has as many data types as the source, and each introduces a name, every variable in the table of an
accepted source is one that its tree introduces.** -/
theorem introduced_of_variable {source : String} (hclean : (analyze source).diagnostics = [])
    (htypes : (introductions (analyze source).body).length =
      ((analyze source).tokens.filter fun t => t.kind = .dataType).length)
    (hnamed : none ∉ introductions (analyze source).body) {s : Symbol} (hs : s ∈ (analyze source).symbols.entries)
    {type : Option DataType} {initializer : Option String} (hvariable : s.meaning = .variable type initializer) :
    some s.name ∈ introductions (analyze source).body := by
  have hsyntax : (parse (tokenize source)).diagnostics = [] :=
    (List.append_eq_nil_iff.mp (List.append_eq_nil_iff.mp hclean).1).2
  have hall := (introductions_covered hsyntax).eq_of_length (htypes.trans (length_waiting _).symm) hnamed
  obtain ⟨name, meaning, line⟩ := s
  cases hvariable
  show some name ∈ introductions (parse (tokenize source)).body
  rw [hall]
  rcases SymbolTable.mem_insertAll _ hs with hmem | hmem
  · exact absurd hmem List.not_mem_nil
  rcases List.mem_append.mp hmem with hmem | hmem
  · rcases mem_waiting_of_registrations hmem with hname | ⟨hpending, -⟩
    · exact hname
    · cases hpending
  · obtain ⟨b, -, hb⟩ := List.mem_map.mp hmem
    cases hb

/-- A declaration, the parameters of a function, a counting loop and two typed inputs in one call. -/
def everyIntroduction : String :=
  "nmb total =. 0; Ex add(nmb a, Sring b) \x7b printO(a); \x7d " ++
    "first (nmb i =. 0; i <. 3; i +. 1) \x7b enter(\"Age?\", nmb, age, Sring who); \x7d"

theorem introduced_of_variable_everyIntroduction :
    (analyze everyIntroduction).diagnostics = [] ∧
      introductions (analyze everyIntroduction).body = ["total", "a", "b", "i", "age", "who"].map some ∧
      ⟨"age", .variable (some .integer) none, some 1⟩ ∈ (analyze everyIntroduction).symbols.entries ∧
      some "age" ∈ introductions (analyze everyIntroduction).body := by
  obtain ⟨hclean, htypes, hnames, hage⟩ : (analyze everyIntroduction).diagnostics = [] ∧
      ((analyze everyIntroduction).tokens.filter fun t => t.kind = .dataType).length = 6 ∧
      introductions (analyze everyIntroduction).body = ["total", "a", "b", "i", "age", "who"].map some ∧
      ⟨"age", .variable (some .integer) none, some 1⟩ ∈ (analyze everyIntroduction).symbols.entries := by
    decide +kernel
  refine ⟨hclean, hnames, hage, introduced_of_variable hclean ?_ ?_ hage rfl⟩
  · rw [hnames, htypes]
    rfl
  · rw [hnames]
    decide

/-- **A data type that introduces nothing declares the next name that is used, in another statement even.** -/
theorem typeInCall_declares_next_name :
    (analyze "enter(\"Age?\", nmb); x =. 1; printO(x);").diagnostics = [] ∧
      ⟨"x", .variable (some .integer) (some "1"), some 1⟩ ∈
        (analyze "enter(\"Age?\", nmb); x =. 1; printO(x);").symbols.entries ∧
      introductions (analyze "enter(\"Age?\", nmb); x =. 1; printO(x);").body = [none] := by
  decide +kernel

end Dotlang
