import Dotlang.Proofs.Introductions

/-!
# The words of a tree in the order of the source

The names, operands, operators and data types that a tree was built from, read from the beginning to the end.

* `Statement.lexemes`, `bodyLexemes` : the words of a statement and of a body;
* `Chain.lexemes_read`, `Argument.lexemes_readAll`, `lexemes_ofTokens?`, `parameterNames_sublist` : what is read from a
  list of tokens is a subsequence of it;
* `Read.Spends xs m F` : after `xs`, what `m` returns and then what it leaves is a subsequence of the tokens before. One
  lemma for each way to build actions;
* `lexemes_in_order` : the words of the tree come from the tokens, in their order and each from a token of its own.
-/

namespace Dotlang

/-! ## The words of a tree -/

/-- Operands and operators, from left to right. -/
def Chain.lexemes (c : Chain) : List String :=
  c.first.lexeme :: c.rest.flatMap fun term => [term.1.lexeme, term.2.lexeme]

def Declaration.lexemes (d : Declaration) : List String := d.name :: d.value.toList.flatMap Chain.lexemes

def Argument.lexemes : Argument → List String
  | value c => c.lexemes
  | type word => [word]

def LoopStep.lexemes : LoopStep → List String
  | assign target value => target :: value.toList.flatMap Chain.lexemes
  | compound target op operand => [target, op.lexeme, operand.lexeme]

/-- The name of a function, unless it has none, and its parameters. -/
def headingLexemes (name : String) (params : List String) : List String := [name].filter (· ≠ "") ++ params

/-- The header of a counting loop. -/
def loopLexemes (init : Option Declaration) (cond : Option Chain) (step : Option LoopStep) : List String :=
  init.toList.flatMap Declaration.lexemes ++ cond.toList.flatMap Chain.lexemes ++ step.toList.flatMap LoopStep.lexemes

mutual

/-- The words of a statement as the source has them. A loop that ends in its condition has it behind the body. -/
def Statement.lexemes : Statement → List String
  | .block _ body => bodyLexemes body
  | .declare _ d => d.lexemes
  | .assign _ name value => name :: value.toList.flatMap Chain.lexemes
  | .call _ name args _ => name :: args.flatMap Argument.lexemes
  | .function _ name params body => headingLexemes name params ++ bodyLexemes body
  | .conditional _ cond body alternatives =>
    cond.toList.flatMap Chain.lexemes ++ bodyLexemes body ++ alternatives.lexemes
  | .whileLoop _ cond body => cond.toList.flatMap Chain.lexemes ++ bodyLexemes body
  | .doWhile _ body cond => bodyLexemes body ++ cond.toList.flatMap Chain.lexemes
  | .counting _ init cond step body => loopLexemes init cond step ++ bodyLexemes body
  | .brk _ => []

def bodyLexemes : List Statement → List String
  | [] => []
  | s :: ss => s.lexemes ++ bodyLexemes ss

/-- Each further branch with its condition before its body. -/
def Alternatives.lexemes : Alternatives → List String
  | .done => []
  | .otherwise body => bodyLexemes body
  | .branch cond body rest => cond.toList.flatMap Chain.lexemes ++ bodyLexemes body ++ rest.lexemes

end

theorem bodyLexemes_append (ss ts : List Statement) : bodyLexemes (ss ++ ts) = bodyLexemes ss ++ bodyLexemes ts := by
  induction ss with
  | nil => rfl
  | cons s ss ih => rw [List.cons_append, bodyLexemes, bodyLexemes, ih, List.append_assoc]

theorem bodyLexemes_singleton (s : Statement) : bodyLexemes [s] = s.lexemes := by
  rw [bodyLexemes, bodyLexemes, List.append_nil]

/-! ## What is read from a list of tokens -/

/-- The terms of a chain and the tokens behind it. An operator that is not one of the language goes with its operand. -/
theorem Chain.lexemes_readTerms (ts : List Token) :
    ((Chain.readTerms ts).1.flatMap (fun term => [term.1.lexeme, term.2.lexeme]) ++
      (Chain.readTerms ts).2.map Token.lexeme).Sublist (ts.map Token.lexeme) := by
  fun_induction Chain.readTerms ts with
  | case1 op rhs ts hop hrhs terms after heq ih =>
    rw [heq] at ih
    cases hread : Operator.ofLexeme? op.lexeme with
    | none => exact (ih.cons rhs.lexeme).cons op.lexeme
    | some o =>
      rw [List.map_cons, List.map_cons, ← Operator.lexeme_of_ofLexeme? hread]
      exact (ih.cons_cons rhs.lexeme).cons_cons o.lexeme
  | case2 op rhs ts => exact List.sublist_cons_self op.lexeme _
  | case3 op rhs ts => exact List.Sublist.refl _
  | case4 op => split <;> simp
  | case5 => exact List.Sublist.refl _

theorem Chain.lexemes_read (ts : List Token) :
    ((Chain.read ts).1.toList.flatMap Chain.lexemes ++ (Chain.read ts).2.map Token.lexeme).Sublist
      (ts.map Token.lexeme) := by
  cases ts with
  | nil => exact List.Sublist.refl _
  | cons t ts =>
    simp only [Chain.read]
    split
    · rw [Option.toList_some, List.flatMap_singleton]
      exact (Chain.lexemes_readTerms ts).cons_cons t.lexeme
    · exact List.sublist_cons_self t.lexeme _

/-- What an argument is read from comes before the tokens that the next arguments are read from. -/
theorem Argument.lexemes_readAll (fuel : Nat) (ts : List Token) :
    ((Argument.readAll fuel ts).flatMap Argument.lexemes).Sublist (ts.map Token.lexeme) := by
  induction fuel generalizing ts with
  | zero => exact List.nil_sublist _
  | succ fuel ih =>
    cases ts with
    | nil => exact List.Sublist.refl _
    | cons t ts =>
      have hlater : ∀ us, ((Argument.readAll fuel (dropComma us)).flatMap Argument.lexemes).Sublist
          (us.map Token.lexeme) := fun us => (ih _).trans ((dropComma_suffix us).sublist.map Token.lexeme)
      by_cases htype : t.kind = .dataType
      · rw [readAll_type htype]
        exact (hlater ts).cons_cons t.lexeme
      by_cases hoperand : t.kind.isOperand = true
      · rw [readAll_operand hoperand, List.flatMap_cons]
        have hterms := Chain.lexemes_readTerms ts
        exact (((List.Sublist.refl _).append (hlater _)).trans hterms).cons_cons t.lexeme
      · rw [readAll_other htype hoperand]
        exact (hlater ts).cons t.lexeme

theorem LoopStep.lexemes_ofTokens? (ts : List Token) :
    ((LoopStep.ofTokens? ts).toList.flatMap LoopStep.lexemes).Sublist (ts.map Token.lexeme) := by
  match ts with
  | [] | [_] => exact List.nil_sublist _
  | target :: op :: rest =>
    simp only [LoopStep.ofTokens?]
    split_ifs with htarget hassign
    · have hvalue := (List.sublist_append_left _ _).trans (Chain.lexemes_read rest)
      rw [Option.toList_some, List.flatMap_singleton]
      exact (hvalue.cons op.lexeme).cons_cons target.lexeme
    · split
      · rename_i a rhs after hop
        split_ifs
        · rw [Option.toList_some, List.flatMap_singleton, LoopStep.lexemes, Operator.lexeme_of_ofLexeme? hop]
          exact ((List.nil_sublist (after.map Token.lexeme)).cons_cons rhs.lexeme).cons_cons op.lexeme
            |>.cons_cons target.lexeme
        · exact List.nil_sublist _
      · exact List.nil_sublist _
    · exact List.nil_sublist _

/-- No parameter is read from the first token, which can only be the data type of one. -/
theorem parameterNames_sublist (ts : List Token) : (parameterNames ts).Sublist (ts.tail.map Token.lexeme) := by
  induction ts with
  | nil => exact List.Sublist.refl _
  | cons type ts ih =>
    cases ts with
    | nil => exact List.Sublist.refl _
    | cons name ts =>
      rw [parameterNames]
      split_ifs
      · exact ih.cons_cons name.lexeme
      · exact ih.cons name.lexeme

/-! ## Actions that spend tokens -/

namespace Read

variable {α β : Type}

/-- Behind `xs`, what the action returns and the tokens that it leaves read as a subsequence of the tokens before. -/
def SpendsAt (r : Reader) (xs : List String) (m : Read α) (F : α → List String) : Prop :=
  (F (exec m r).1 ++ (exec m r).2.rest.map Token.lexeme).Sublist (xs ++ r.rest.map Token.lexeme)

/-- So it is wherever the action begins. -/
def Spends (xs : List String) (m : Read α) (F : α → List String) : Prop := ∀ r : Reader, SpendsAt r xs m F

variable {r : Reader} {xs : List String} {m : Read α} {F : α → List String}

theorem SpendsAt.bind {f : α → Read β} {G : β → List String} (hm : SpendsAt r xs m F)
    (hf : ∀ a, Spends (F a) (f a) G) : SpendsAt r xs (m >>= f) G :=
  (hf (exec m r).1 (exec m r).2).trans hm

theorem SpendsAt.map {f : α → β} {G : β → List String} (hm : SpendsAt r xs m F) (h : ∀ a, G (f a) = F a) :
    SpendsAt r xs (f <$> m) G := by
  rw [SpendsAt, exec_map, h]
  exact hm

/-- After an action that only looks. -/
theorem SpendsAt.look {f : α → Read β} {G : β → List String} {a : α} (hm : exec m r = (a, r))
    (hf : SpendsAt r xs (f a) G) : SpendsAt r xs (m >>= f) G := by
  rw [SpendsAt, exec_bind, hm]
  exact hf

/-- An action that leaves what is behind the next token has that token to itself. -/
theorem SpendsAt.of_tail {t : Token} {ts : List Token} {opened : List Nat} {ds : List Diagnostic}
    (h : (exec m ⟨t :: ts, opened, ds⟩).2.rest = ts) : SpendsAt ⟨t :: ts, opened, ds⟩ [] m fun _ => [t.lexeme] := by
  rw [SpendsAt, h]
  exact List.Sublist.refl _

namespace Spends

theorem pure {a : α} (h : (F a).Sublist xs) : Spends xs (Pure.pure a) F := fun _ => h.append (List.Sublist.refl _)

/-- What has been read is what is returned. -/
theorem done {a : α} (h : F a = xs) : Spends xs (Pure.pure a) F := .pure (h ▸ List.Sublist.refl _)

theorem of_skips (h : Skips m) : Spends xs m fun _ => xs :=
  fun r => (List.Sublist.refl xs).append ((h r).1.sublist.map Token.lexeme)

theorem bind {f : α → Read β} {G : β → List String} (hm : Spends xs m F) (hf : ∀ a, Spends (F a) (f a) G) :
    Spends xs (m >>= f) G := fun r => (hm r).bind hf

/-- After an action that returns nothing. -/
theorem skip {f : α → Read β} {G : β → List String} (hm : Skips m) (hf : ∀ a, Spends xs (f a) G) :
    Spends xs (m >>= f) G := (of_skips hm).bind hf

theorem map {f : α → β} {G : β → List String} (hm : Spends xs m F) (h : ∀ a, G (f a) = F a) :
    Spends xs (f <$> m) G := fun r => (hm r).map h

/-- Something may have been read before. -/
theorem behind (hm : Spends [] m F) (ys : List String) : Spends ys m fun a => ys ++ F a := by
  intro r
  rw [SpendsAt, List.append_assoc]
  exact (List.Sublist.refl ys).append (hm r)

theorem ite {c : Prop} [Decidable c] {a b : Read α} (ha : Spends xs a F) (hb : Spends xs b F) :
    Spends xs (if c then a else b) F := by
  split
  · exact ha
  · exact hb

theorem chain : Spends [] Read.chain fun c => c.toList.flatMap Chain.lexemes := fun r => Chain.lexemes_read r.rest

theorem untilParen : Spends [] Read.untilParen fun inside => inside.map Token.lexeme := by
  intro r
  show (List.map _ (r.rest.takeWhile Token.isInside) ++ List.map _ (r.rest.dropWhile Token.isInside)).Sublist _
  rw [← List.map_append, List.takeWhile_append_dropWhile]
  exact List.Sublist.refl _

theorem expect (wanted : TokenKind) : Spends [] (Read.expect wanted) fun o => o.toList.map Token.lexeme := by
  intro r
  rw [SpendsAt, exec_expect_fst, exec_expect_rest]
  cases r.rest with
  | nil => exact List.Sublist.refl _
  | cons t ts =>
    rw [List.head?_cons, Option.filter_some]
    split_ifs
    · exact List.Sublist.refl _
    · exact List.sublist_cons_self t.lexeme _

end Spends

/-! ## Forms of statements -/

theorem spends_condition : Spends [] condition fun c => c.toList.flatMap Chain.lexemes :=
  .skip (.expect _) fun _ => Spends.chain.bind fun _ => .skip (.expect _) fun _ => .done rfl

/-- What follows the data type of a declaration is its name, and then its value. -/
theorem spends_named (type : Option DataType) :
    Spends [] (named type) fun d => d.toList.flatMap Declaration.lexemes := by
  rintro ⟨rest, opened, ds⟩
  cases rest with
  | nil => exact List.Sublist.refl _
  | cons name ts =>
    refine SpendsAt.look (exec_current _) ?_
    dsimp only [List.head?_cons]
    split
    · -- with a value or without one, what has been read is a declaration
      have hclose : ∀ value : Option Chain, Spends ([name.lexeme] ++ value.toList.flatMap Chain.lexemes)
          (Read.expect .semicolon >>= fun _ => Pure.pure (some ⟨type, name.lexeme, value⟩))
          fun d => d.toList.flatMap Declaration.lexemes := by
        refine fun value => .skip (.expect _) fun _ => .done ?_
        exact List.flatMap_singleton _ _
      refine (SpendsAt.of_tail rfl).bind fun _ => .skip (.startsWith _) fun _ => .ite ?_ ?_
      · exact .skip .advance fun _ => (Spends.chain.behind _).bind hclose
      · exact (Spends.done rfl).bind hclose
    · exact Spends.done rfl _

theorem spends_declaration : Spends [] declaration fun d => d.toList.flatMap Declaration.lexemes := by
  rw [declaration_eq]
  exact .skip .current fun next => .skip (.expect _) fun _ => spends_named _

/-- The name of the target is that of the first token, whether or not it is an identifier. -/
theorem spendsAt_assignment (first : Token) (ts : List Token) (opened : List Nat) (ds : List Diagnostic) :
    SpendsAt ⟨first :: ts, opened, ds⟩ [] (assignment first) Statement.lexemes := by
  refine (SpendsAt.of_tail (exec_expect_rest _ _)).bind fun _ => .skip (.expect _) fun _ => ?_
  exact (Spends.chain.behind _).bind fun value => .skip (.expect _) fun _ => .done rfl

theorem spendsAt_call (first : Token) (builtin : Bool) (ts : List Token) (opened : List Nat) (ds : List Diagnostic) :
    SpendsAt ⟨first :: ts, opened, ds⟩ [] (call first builtin) Statement.lexemes := by
  refine (SpendsAt.of_tail rfl).bind fun _ => .skip (.expect _) fun _ => ?_
  refine (Spends.untilParen.behind _).bind fun inside => .skip (.expect _) fun _ => .skip (.expect _) fun _ => .pure ?_
  exact (Argument.lexemes_readAll _ inside).cons_cons first.lexeme

theorem spends_header : Spends [] header fun h => headingLexemes h.1 h.2 := by
  refine (Spends.expect _).bind fun name => .skip (.expect _) fun _ => ?_
  refine (Spends.untilParen.behind _).bind fun inside => .skip (.expect _) fun _ => .pure ?_
  refine List.Sublist.append ?_ ((parameterNames_sublist inside).trans ((List.tail_sublist inside).map _))
  -- where the name is missing the tree has the empty text, which counts as no word
  cases name with
  | none => exact List.nil_sublist _
  | some t => exact List.filter_sublist

theorem spends_loopHeader : Spends [] loopHeader fun h => loopLexemes h.1 h.2.1 h.2.2 := by
  refine .skip (.expect _) fun _ => spends_declaration.bind fun init => (Spends.chain.behind _).bind fun cond => ?_
  refine .skip (.expect _) fun _ => (Spends.untilParen.behind _).bind fun inside => .skip (.expect _) fun _ => .pure ?_
  exact (List.Sublist.refl _).append (LoopStep.lexemes_ofTokens? inside)

theorem spends_drop : Spends [] drop fun o => bodyLexemes o.toList := .skip .advance fun _ => .done rfl

theorem spends_leave (first : Token) : Spends [] (leave first) Statement.lexemes :=
  .skip .advance fun _ => .skip (.expect _) fun _ => .done rfl

theorem spends_braced {items : Read (List Statement)} (h : Spends [] items bodyLexemes) :
    Spends [] (braced items) bodyLexemes :=
  .skip .openBlock fun _ => .skip (.expect _) fun _ => h.bind fun _ => .skip .closeBlock fun _ => .done rfl

section Compound

variable {block : Read (List Statement)} (hblock : Spends [] block bodyLexemes)
include hblock

theorem spends_alternatives (fuel : Nat) : Spends [] (alternatives block fuel) Alternatives.lexemes := by
  induction fuel with
  | zero => exact .done rfl
  | succ fuel ih =>
    refine .skip (.startsWithKeyword _) fun _ => .ite ?_ ?_
    · refine .skip .advance fun _ => spends_condition.bind fun cond => (hblock.behind _).bind fun body => ?_
      exact (ih.behind _).bind fun rest => .done rfl
    · refine .skip (.startsWithKeyword _) fun _ => .ite ?_ (.done rfl)
      exact .skip .advance fun _ => hblock.bind fun body => .done rfl

theorem spends_conditional (first : Token) : Spends [] (conditional block first) Statement.lexemes := by
  refine .skip .advance fun _ => spends_condition.bind fun cond => (hblock.behind _).bind fun body => ?_
  refine .skip .get fun r => ((spends_alternatives hblock r.rest.length).behind _).bind fun alternatives => ?_
  exact .done rfl

theorem spends_whileLoop (first : Token) : Spends [] (whileLoop block first) Statement.lexemes := by
  refine .skip .advance fun _ => spends_condition.bind fun cond => (hblock.behind _).bind fun body => ?_
  exact .done rfl

theorem spends_doWhile (first : Token) : Spends [] (doWhile block first) Statement.lexemes := by
  refine .skip .advance fun _ => hblock.bind fun body => .skip (.startsWithKeyword _) fun _ => .ite ?_ ?_
  · refine .skip .advance fun _ => (spends_condition.behind _).bind fun cond => .skip (.expect _) fun _ => ?_
    exact .done rfl
  · refine .skip .current fun _ => .skip (.complain _ _) fun _ => .done ?_
    exact List.append_nil (bodyLexemes body)

theorem spends_counting (first : Token) : Spends [] (counting block first) Statement.lexemes := by
  rw [counting_eq]
  refine .skip .advance fun _ => spends_loopHeader.bind fun h => (hblock.behind _).bind fun body => ?_
  exact .done rfl

theorem spends_function (first : Token) : Spends [] (function block first) Statement.lexemes := by
  rw [function_eq]
  refine .skip .advance fun _ => spends_header.bind fun h => (hblock.behind _).bind fun body => ?_
  exact .done rfl

theorem spends_block (pos : Position) :
    Spends [] (some <$> Statement.block pos <$> block) fun o => bodyLexemes o.toList :=
  (hblock.map (G := Statement.lexemes) fun _ => rfl).map bodyLexemes_singleton

/-- The statement that the next token begins. -/
theorem spendsAt_statement (first : Token) (ts : List Token) (opened : List Nat) (ds : List Diagnostic) :
    SpendsAt ⟨first :: ts, opened, ds⟩ [] (statement block first) fun o => bodyLexemes o.toList := by
  have run : ∀ {m : Read (Option Statement)}, Spends [] m (fun o => bodyLexemes o.toList) →
      SpendsAt ⟨first :: ts, opened, ds⟩ [] m fun o => bodyLexemes o.toList := fun hm => hm _
  have hsome : ∀ {m : Read Statement}, SpendsAt ⟨first :: ts, opened, ds⟩ [] m Statement.lexemes →
      SpendsAt ⟨first :: ts, opened, ds⟩ [] (some <$> m) fun o => bodyLexemes o.toList :=
    fun hm => hm.map bodyLexemes_singleton
  unfold statement
  split
  · exact run (spends_block hblock _)
  · refine run (spends_declaration.map fun d => ?_)
    cases d with
    | none => rfl
    | some d => exact (bodyLexemes_singleton _).trans (List.flatMap_singleton Declaration.lexemes d).symm
  · refine SpendsAt.look (exec_get _) ?_
    split
    · exact hsome (spendsAt_assignment first ts opened ds)
    · exact hsome (spendsAt_call first false ts opened ds)
    · exact run spends_drop
  · split
    · exact hsome (spends_conditional hblock first _)
    · exact run (.skip .advance fun _ => spends_block hblock _)
    · exact hsome (spends_leave first _)
    · exact hsome (spends_whileLoop hblock first _)
    · exact hsome (spends_doWhile hblock first _)
    · exact hsome (spends_counting hblock first _)
    · exact hsome (spends_function hblock first _)
    · exact hsome (spendsAt_call first true ts opened ds)
    · exact hsome (spendsAt_call first true ts opened ds)
    · exact hsome (spendsAt_call first true ts opened ds)
    all_goals exact run spends_drop
  · exact run spends_drop

end Compound

theorem spends_items (fuel : Nat) : Spends [] (items fuel) bodyLexemes := by
  induction fuel with
  | zero => exact .done rfl
  | succ fuel ih =>
    rintro ⟨rest, opened, ds⟩
    cases rest with
    | nil => exact List.Sublist.refl _
    | cons t ts =>
      refine SpendsAt.look (exec_current _) ?_
      dsimp only [List.head?_cons]
      split
      · exact Spends.done rfl _
      · refine (spendsAt_statement (spends_braced ih) t ts opened ds).bind fun s => (ih.behind _).bind fun more => ?_
        exact .done (bodyLexemes_append s.toList more)

theorem spends_program (fuel : Nat) : Spends [] (program fuel) bodyLexemes := by
  induction fuel with
  | zero => exact .done rfl
  | succ fuel ih =>
    refine (spends_items (fuel + 1)).bind fun body => .skip .current fun next => ?_
    cases next with
    | none => exact .done rfl
    | some t =>
      refine .skip (.complain _ _) fun _ => .skip .advance fun _ => (ih.behind _).bind fun more => ?_
      exact .done (bodyLexemes_append body more)

end Read

/-- **The tree has no word but from a token, no token gives two, and they keep the order of the tokens.** However
malformed the source is: recovery leaves tokens out and does nothing else. -/
theorem lexemes_in_order (tokens : List Token) :
    ∃ used : List Token, used.Sublist tokens ∧ bodyLexemes (parse tokens).body = used.map Token.lexeme := by
  have hspent := Read.spends_program tokens.length ⟨tokens, [], []⟩
  exact List.sublist_map_iff.mp ((List.sublist_append_left _ _).trans hspent)

end Dotlang
