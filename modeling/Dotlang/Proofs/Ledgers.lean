import Dotlang.Proofs.Nodes
import Dotlang.Proofs.Reader

/-!
# What a tree has of its tokens

Some tokens promise an entry of a tree: a declaration, a call or the heading of a function enters what its tokens
promise, and a token that is skipped enters nothing.

* `Read.Skips m` : `m` drops tokens at most, and complaints stay;
* `Ledger` : what tokens promise, what statements enter, and how the two are compared;
* `Ledger.Kept xs m F` : unless `m` complains, what it returns and the tokens it leaves do not go beyond `xs` and the
  tokens before. One lemma for each way to build actions;
* `Ledger.covers_of_clean` : if declarations, calls and headings enter no more than is promised, so does a program.
-/

namespace Dotlang

/-! ## Actions that only skip -/

namespace Read

variable {α β : Type}

/-- What follows the data type of a declaration. -/
def named (type : Option DataType) : Read (Option Declaration) := do
  match ← current with
  | none => return none
  | some name =>
    if name.kind = .identifier then
      advance
      let value ← if ← startsWith .assign then do advance; chain else pure none
      let _ ← expect .semicolon
      return some ⟨type, name.lexeme, value⟩
    else return none

theorem declaration_eq :
    declaration = (do
      let type := (← current).bind Token.dataType?
      let _ ← expect .dataType
      named type) := rfl

/-- The action drops tokens at most, and complaints stay. -/
def Skips (m : Read α) : Prop :=
  ∀ r : Reader, (exec m r).2.rest <:+ r.rest ∧ ((exec m r).2.diagnostics = [] → r.diagnostics = [])

namespace Skips

theorem pure (a : α) : Skips (Pure.pure a) := fun r => ⟨List.suffix_refl r.rest, id⟩

theorem bind {m : Read α} {f : α → Read β} (hm : Skips m) (hf : ∀ a, Skips (f a)) : Skips (m >>= f) := by
  intro r
  obtain ⟨hrest, hclean⟩ := hm r
  obtain ⟨hrest', hclean'⟩ := hf (exec m r).1 (exec m r).2
  exact ⟨hrest'.trans hrest, fun h => hclean (hclean' h)⟩

theorem ite {c : Prop} [Decidable c] {a b : Read α} (ha : Skips a) (hb : Skips b) : Skips (if c then a else b) := by
  split
  · exact ha
  · exact hb

theorem current : Skips Read.current := fun r => ⟨List.suffix_refl r.rest, id⟩

theorem get : Skips (MonadState.get : Read Reader) := fun r => ⟨List.suffix_refl r.rest, id⟩

theorem advance : Skips Read.advance := fun r => ⟨List.tail_suffix r.rest, id⟩

theorem complain (cause : Cause) (line : Option Nat) : Skips (Read.complain cause line) :=
  fun r => ⟨List.suffix_refl r.rest, fun h => absurd h (List.append_ne_nil_of_right_ne_nil _ (List.cons_ne_nil _ _))⟩

theorem startsWith (kind : TokenKind) : Skips (Read.startsWith kind) := fun r => ⟨List.suffix_refl r.rest, id⟩

theorem startsWithKeyword (k : Keyword) : Skips (Read.startsWithKeyword k) := fun r => ⟨List.suffix_refl r.rest, id⟩

theorem chain : Skips Read.chain := fun r => ⟨Chain.read_suffix r.rest, id⟩

theorem untilParen : Skips Read.untilParen := fun _ => ⟨List.dropWhile_suffix _, id⟩

theorem openBlock : Skips Read.openBlock := fun r => ⟨List.suffix_refl r.rest, id⟩

theorem expect (wanted : TokenKind) : Skips (Read.expect wanted) := by
  refine bind current fun next => bind advance fun _ => ?_
  cases next with
  | none => exact pure none
  | some t => exact ite (pure _) (bind (complain _ _) fun _ => pure none)

theorem closeBlock : Skips Read.closeBlock := by
  rintro ⟨rest, opened, ds⟩
  cases rest with
  | cons t ts => exact ⟨List.suffix_cons t ts, id⟩
  | nil =>
    cases opened with
    | nil => exact ⟨List.suffix_refl _, id⟩
    | cons line outer =>
      exact ⟨List.suffix_refl _, fun h => absurd h (List.append_ne_nil_of_right_ne_nil _ (List.cons_ne_nil _ _))⟩

theorem named (type : Option DataType) : Skips (Read.named type) := by
  refine bind current fun next => ?_
  cases next with
  | none => exact pure none
  | some name =>
    refine ite ?_ (pure none)
    refine bind advance fun _ => bind (startsWith _) fun _ => ite ?_ ?_
    · exact bind advance fun _ => bind chain fun _ => bind (expect _) fun _ => pure _
    · exact bind (pure none) fun _ => bind (expect _) fun _ => pure _

theorem declaration : Skips Read.declaration := by
  rw [declaration_eq]
  exact bind current fun next => bind (expect _) fun _ => named _

theorem assignment (first : Token) : Skips (Read.assignment first) :=
  bind (expect _) fun _ => bind (expect _) fun _ => bind chain fun _ => bind (expect _) fun _ => pure _

theorem call (first : Token) (builtin : Bool) : Skips (Read.call first builtin) :=
  bind advance fun _ => bind (expect _) fun _ => bind untilParen fun _ => bind (expect _) fun _ =>
    bind (expect _) fun _ => pure _

theorem condition : Skips Read.condition := bind (expect _) fun _ => bind chain fun _ => bind (expect _) fun _ => pure _

theorem leave (first : Token) : Skips (Read.leave first) := bind advance fun _ => bind (expect _) fun _ => pure _

theorem drop : Skips Read.drop := bind advance fun _ => pure none

end Skips

/-- Where there is no complaint, the next token is of the wanted kind. -/
theorem expect_of_clean {wanted : TokenKind} {r : Reader} (h : (exec (expect wanted) r).2.diagnostics = []) :
    r.diagnostics = [] ∧ (exec (expect wanted) r).1 = r.rest.head? ∧ ∀ t ∈ r.rest.head?, t.kind = wanted := by
  obtain ⟨rest, opened, ds⟩ := r
  cases rest with
  | nil => exact ⟨h, rfl, fun t ht => by cases ht⟩
  | cons t ts =>
    rw [exec_expect_cons] at h ⊢
    split_ifs at h ⊢ with hkind
    · exact ⟨h, rfl, fun u hu => by cases hu; exact hkind⟩
    · exact absurd h (List.append_ne_nil_of_right_ne_nil _ (List.cons_ne_nil _ _))

/-- `name ( parameters )` -/
def header : Read (String × List String) := do
  let name ← expect .identifier
  let _ ← expect .lparen
  let inside ← untilParen
  let _ ← expect .rparen
  return ((name.map Token.lexeme).getD "", parameterNames inside)

theorem function_eq (block : Read (List Statement)) (first : Token) :
    function block first = do
      advance
      let (name, params) ← header
      return .function first.position name params (← block) := rfl

/-- `( declaration chain ; step )` -/
def loopHeader : Read (Option Declaration × Option Chain × Option LoopStep) := do
  let _ ← expect .lparen
  let init ← declaration
  let cond ← chain
  let _ ← expect .semicolon
  let inside ← untilParen
  let _ ← expect .rparen
  return (init, cond, LoopStep.ofTokens? inside)

theorem counting_eq (block : Read (List Statement)) (first : Token) :
    counting block first = do
      advance
      let (init, cond, step) ← loopHeader
      return .counting first.position init cond step (← block) := rfl

theorem Skips.header : Skips Read.header :=
  bind (expect _) fun _ => bind (expect _) fun _ => bind untilParen fun _ => bind (expect _) fun _ => pure _

end Read

/-! ## Ledgers -/

/-- What token lists promise, what declarations, calls and headings of functions enter, and when entries are covered. -/
structure Ledger (β : Type) where
  /-- The entries of the first list are accounted for by the second. -/
  Covers : List β → List β → Prop
  of_sublist : ∀ {xs ys : List β}, xs.Sublist ys → Covers xs ys
  trans : ∀ {xs ys zs : List β}, Covers xs ys → Covers ys zs → Covers xs zs
  append_left : ∀ {xs ys : List β} (zs : List β), Covers xs ys → Covers (zs ++ xs) (zs ++ ys)
  promised : List Token → List β
  promised_cons : ∀ (t : Token) (ts : List Token), (promised ts).Sublist (promised (t :: ts))
  ofDeclaration : Declaration → List β
  /-- The name of a call, its arguments and whether it is built in. -/
  ofCall : String → List Argument → Bool → List β
  /-- The name of a function and its parameters. -/
  ofHeading : String × List String → List β

namespace Ledger

variable {α β γ : Type} (l : Ledger β)

theorem promised_of_suffix {ts us : List Token} (h : ts <:+ us) : (l.promised ts).Sublist (l.promised us) := by
  obtain ⟨before, rfl⟩ := h
  induction before with
  | nil => exact List.Sublist.refl _
  | cons t before ih => exact ih.trans (l.promised_cons t _)

/-- What a statement enters, the statements inside it apart. -/
def entered : Statement → List β
  | .declare _ d => l.ofDeclaration d
  | .call _ name args builtin => l.ofCall name args builtin
  | .counting _ init _ _ _ => init.toList.flatMap l.ofDeclaration
  | .function _ name params _ => l.ofHeading (name, params)
  | _ => []

/-- What a body enters. -/
def entries (body : List Statement) : List β := (bodyNodes body).flatMap l.entered

theorem entries_append (ss ts : List Statement) : l.entries (ss ++ ts) = l.entries ss ++ l.entries ts := by
  rw [entries, bodyNodes_append, List.flatMap_append, entries, entries]

theorem entries_singleton {s : Statement} {inside : List Statement} (h : s.nodes = s :: inside) :
    l.entries [s] = l.entered s ++ inside.flatMap l.entered := by
  rw [entries, bodyNodes, bodyNodes, List.append_nil, h, List.flatMap_cons]

/-- Unless the action complains, what it returns enters, followed by what the tokens it leaves promise, is covered by
`xs` and what the tokens before promise. -/
def KeptAt (r : Reader) (xs : List β) (m : Read α) (F : α → List β) : Prop :=
  (Read.exec m r).2.diagnostics = [] → r.diagnostics = [] ∧
    l.Covers (F (Read.exec m r).1 ++ l.promised (Read.exec m r).2.rest) (xs ++ l.promised r.rest)

/-- So it is wherever the action begins. -/
def Kept (xs : List β) (m : Read α) (F : α → List β) : Prop := ∀ r : Reader, l.KeptAt r xs m F

variable {l} {r : Reader} {xs : List β} {m : Read α} {F : α → List β}

theorem KeptAt.bind {f : α → Read γ} {G : γ → List β} (hm : l.KeptAt r xs m F) (hf : ∀ a, l.Kept (F a) (f a) G) :
    l.KeptAt r xs (m >>= f) G := by
  intro hr
  obtain ⟨hclean, hcovers⟩ := hf (Read.exec m r).1 (Read.exec m r).2 hr
  obtain ⟨hclean', hcovers'⟩ := hm hclean
  exact ⟨hclean', l.trans hcovers hcovers'⟩

theorem KeptAt.map {f : α → γ} {G : γ → List β} (hm : l.KeptAt r xs m F) (h : ∀ a, G (f a) = F a) :
    l.KeptAt r xs (f <$> m) G := by
  intro hr
  have hF := hm hr
  rw [Read.exec_map, h]
  exact hF

namespace Kept

theorem pure {a : α} (h : F a = xs) : l.Kept xs (Pure.pure a) F :=
  fun _ hr => ⟨hr, l.of_sublist (h ▸ List.Sublist.refl _)⟩

theorem of_skips (h : Read.Skips m) (hF : ∀ a, F a = xs) : l.Kept xs m F := by
  intro r hr
  obtain ⟨hrest, hclean⟩ := h r
  rw [hF]
  exact ⟨hclean hr, l.of_sublist ((List.Sublist.refl xs).append (l.promised_of_suffix hrest))⟩

theorem bind {f : α → Read γ} {G : γ → List β} (hm : l.Kept xs m F) (hf : ∀ a, l.Kept (F a) (f a) G) :
    l.Kept xs (m >>= f) G := fun r => (hm r).bind hf

/-- After an action that enters nothing. -/
theorem skip {f : α → Read γ} {G : γ → List β} (hm : Read.Skips m) (hf : ∀ a, l.Kept xs (f a) G) :
    l.Kept xs (m >>= f) G := (of_skips (F := fun _ => xs) hm fun _ => rfl).bind hf

theorem map {f : α → γ} {G : γ → List β} (hm : l.Kept xs m F) (h : ∀ a, G (f a) = F a) : l.Kept xs (f <$> m) G :=
  fun r => (hm r).map h

/-- Something may have been entered before. -/
theorem behind (hm : l.Kept [] m F) (ys : List β) : l.Kept ys m fun a => ys ++ F a := by
  intro r hr
  obtain ⟨hclean, hcovers⟩ := hm r hr
  rw [List.append_assoc]
  exact ⟨hclean, l.append_left ys hcovers⟩

theorem ite {c : Prop} [Decidable c] {a b : Read α} (ha : l.Kept xs a F) (hb : l.Kept xs b F) :
    l.Kept xs (if c then a else b) F := by
  split
  · exact ha
  · exact hb

end Kept

/-! ## Reading with a ledger -/

open Read

/-- Declarations, calls and headings enter no more than their tokens promise. -/
structure Sound (l : Ledger β) : Prop where
  declaration : l.Kept [] Read.declaration fun d => d.toList.flatMap l.ofDeclaration
  call : ∀ (first : Token) (builtin : Bool), l.Kept [] (Read.call first builtin) fun s => l.entries [s]
  heading : ∀ {first : Token}, first.keyword? = some .ex → ∀ (ts : List Token) (opened : List Nat)
    (ds : List Diagnostic), l.KeptAt ⟨first :: ts, opened, ds⟩ [] (advance >>= fun _ => header) l.ofHeading

/-- A statement that enters nothing. -/
theorem kept_plain {m : Read Statement} (hm : Skips m) (hplain : ∀ r, l.entries [(exec m r).1] = []) :
    l.Kept [] m fun s => l.entries [s] := by
  intro r hr
  obtain ⟨hrest, hclean⟩ := hm r
  refine ⟨hclean hr, ?_⟩
  show l.Covers (l.entries [(exec m r).1] ++ _) _
  rw [hplain]
  exact l.of_sublist (l.promised_of_suffix hrest)

theorem kept_drop : l.Kept [] drop fun o => l.entries o.toList := .skip .advance fun _ => .pure rfl

theorem kept_braced {items : Read (List Statement)} (h : l.Kept [] items l.entries) :
    l.Kept [] (braced items) l.entries :=
  .skip .openBlock fun _ => .skip (.expect _) fun _ => h.bind fun _ => .skip .closeBlock fun _ => .pure rfl

section Compound

variable {block : Read (List Statement)} (hblock : l.Kept [] block l.entries)
include hblock

theorem kept_alternatives (fuel : Nat) :
    l.Kept [] (alternatives block fuel) fun a => a.nodes.flatMap l.entered := by
  induction fuel with
  | zero => exact .pure rfl
  | succ fuel ih =>
    refine .skip (.startsWithKeyword _) fun _ => .ite ?_ ?_
    · refine .skip .advance fun _ => .skip .condition fun cond => hblock.bind fun body => ?_
      refine (ih.behind _).bind fun rest => .pure ?_
      rw [Alternatives.nodes, List.flatMap_append]
      rfl
    · refine .skip (.startsWithKeyword _) fun _ => .ite ?_ (.pure rfl)
      exact .skip .advance fun _ => hblock.bind fun body => .pure rfl

theorem kept_conditional (first : Token) : l.Kept [] (conditional block first) fun s => l.entries [s] := by
  refine .skip .advance fun _ => .skip .condition fun cond => hblock.bind fun body => .skip .get fun r => ?_
  refine ((kept_alternatives hblock r.rest.length).behind _).bind fun alternatives => .pure ?_
  rw [l.entries_singleton rfl, List.flatMap_append]
  rfl

theorem kept_whileLoop (first : Token) : l.Kept [] (whileLoop block first) fun s => l.entries [s] := by
  refine .skip .advance fun _ => .skip .condition fun cond => hblock.bind fun body => ?_
  exact .pure (l.entries_singleton rfl)

theorem kept_doWhile (first : Token) : l.Kept [] (doWhile block first) fun s => l.entries [s] := by
  refine .skip .advance fun _ => hblock.bind fun body => .skip (.startsWithKeyword _) fun _ => .ite ?_ ?_
  · refine .skip .advance fun _ => .skip .condition fun cond => .skip (.expect _) fun _ => ?_
    exact .pure (l.entries_singleton rfl)
  · exact .skip .current fun _ => .skip (.complain _ _) fun _ => .pure (l.entries_singleton rfl)

theorem kept_block (pos : Position) :
    l.Kept [] (some <$> Statement.block pos <$> block) fun o => l.entries o.toList :=
  (hblock.map (G := fun s => l.entries [s]) fun _ => l.entries_singleton rfl).map fun _ => rfl

variable (hl : l.Sound)
include hl

theorem kept_counting (first : Token) : l.Kept [] (counting block first) fun s => l.entries [s] := by
  rw [counting_eq]
  have hheader : l.Kept [] loopHeader fun h => h.1.toList.flatMap l.ofDeclaration := by
    refine .skip (.expect _) fun _ => hl.declaration.bind fun init => .skip .chain fun cond => ?_
    exact .skip (.expect _) fun _ => .skip .untilParen fun inside => .skip (.expect _) fun _ => .pure rfl
  refine .skip .advance fun _ => hheader.bind fun h => ?_
  exact (hblock.behind _).bind fun body => .pure (l.entries_singleton rfl)

theorem keptAt_function {first : Token} (hfirst : first.keyword? = some .ex) (ts : List Token) (opened : List Nat)
    (ds : List Diagnostic) :
    l.KeptAt ⟨first :: ts, opened, ds⟩ [] (function block first) fun s => l.entries [s] := by
  rw [function_eq]
  show l.KeptAt _ [] ((advance >>= fun _ => header) >>= fun h =>
    block >>= fun body => pure (Statement.function first.position h.1 h.2 body)) _
  refine (hl.heading hfirst ts opened ds).bind fun h => ?_
  exact (hblock.behind _).bind fun body => .pure (l.entries_singleton rfl)

/-- The statement that the next token begins. -/
theorem keptAt_statement (first : Token) (ts : List Token) (opened : List Nat) (ds : List Diagnostic) :
    l.KeptAt ⟨first :: ts, opened, ds⟩ [] (statement block first) fun o => l.entries o.toList := by
  have run : ∀ {m : Read (Option Statement)}, l.Kept [] m (fun o => l.entries o.toList) →
      l.KeptAt ⟨first :: ts, opened, ds⟩ [] m fun o => l.entries o.toList := fun hm => hm _
  have hsome : ∀ {m : Read Statement}, l.Kept [] m (fun s => l.entries [s]) →
      l.Kept [] (some <$> m) fun o => l.entries o.toList := fun hm => hm.map fun _ => rfl
  unfold statement
  split
  · exact run (kept_block hblock _)
  · refine run (hl.declaration.map fun d => ?_)
    cases d with
    | none => rfl
    | some d => exact l.entries_singleton (s := .declare first.position d) rfl
  · refine run (.skip .get fun r => ?_)
    split
    · exact hsome (kept_plain (.assignment first) fun _ => rfl)
    · exact hsome (hl.call first false)
    · exact kept_drop
  · split
    · exact run (hsome (kept_conditional hblock first))
    · exact run (.skip .advance fun _ => kept_block hblock _)
    · exact run (hsome (kept_plain (.leave first) fun _ => rfl))
    · exact run (hsome (kept_whileLoop hblock first))
    · exact run (hsome (kept_doWhile hblock first))
    · exact run (hsome (kept_counting hblock hl first))
    · exact (keptAt_function hblock hl ‹_› ts opened ds).map fun _ => rfl
    · exact run (hsome (hl.call first true))
    · exact run (hsome (hl.call first true))
    · exact run (hsome (hl.call first true))
    all_goals exact run kept_drop
  · exact run kept_drop

end Compound

theorem kept_items (hl : l.Sound) (fuel : Nat) : l.Kept [] (items fuel) l.entries := by
  induction fuel with
  | zero => exact .pure rfl
  | succ fuel ih =>
    rintro ⟨rest, opened, ds⟩
    cases rest with
    | nil => exact fun hr => ⟨hr, l.of_sublist (List.Sublist.refl _)⟩
    | cons t ts =>
      show l.KeptAt _ [] (if t.kind = .rcurly then Pure.pure [] else
        statement (braced (items fuel)) t >>= fun s => items fuel >>= fun more => Pure.pure (s.toList ++ more)) _
      split
      · exact Kept.pure rfl _
      · refine (keptAt_statement (kept_braced ih) hl t ts opened ds).bind fun s => (ih.behind _).bind fun more => ?_
        exact .pure (l.entries_append s.toList more)

theorem kept_program (hl : l.Sound) (fuel : Nat) : l.Kept [] (program fuel) l.entries := by
  induction fuel with
  | zero => exact .pure rfl
  | succ fuel ih =>
    refine (kept_items hl (fuel + 1)).bind fun body => .skip .current fun next => ?_
    cases next with
    | none => exact .pure rfl
    | some t =>
      refine .skip (.complain _ _) fun _ => .skip .advance fun _ => (ih.behind _).bind fun more => .pure ?_
      exact l.entries_append body more

/-- **If there is nothing wrong with its syntax, what a program enters is covered by what its tokens promise.** -/
theorem covers_of_clean (hl : l.Sound) {tokens : List Token} (h : (parse tokens).diagnostics = []) :
    l.Covers (l.entries (parse tokens).body) (l.promised tokens) := by
  obtain ⟨-, hcovers⟩ := kept_program hl tokens.length ⟨tokens, [], []⟩ h
  exact l.trans (l.of_sublist (List.sublist_append_left _ _)) hcovers

end Ledger

end Dotlang
