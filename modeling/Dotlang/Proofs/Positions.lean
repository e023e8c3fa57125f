import Dotlang.Proofs.Grammar
import Dotlang.Proofs.Reader

/-!
# Reading does not look at positions

Two token lists are alike if they agree in kind and text, token by token. Reading is followed on both sides at once.

* `Token.Alike`, `TokensAlike` : tokens of one kind and one text, wherever they stand;
* `Diagnostic.Alike` : complaints of one cause, which is a syntactic one;
* `Read.Alike R m m'` : begun on token lists that are alike, the two actions return what `R` relates, and leave token
  lists and complaints that are alike. One lemma for each way to build actions;
* `parse_alike` : token lists that are alike have one tree, up to positions, and complaints that are alike;
* `phase_of_mem_parse` : whatever the tokens are, all complaints are syntactic.
-/

namespace Dotlang

/-! ## Tokens -/

/-- Of one kind and with one text. -/
structure Token.Alike (t u : Token) : Prop where
  kind : t.kind = u.kind
  lexeme : t.lexeme = u.lexeme

namespace Token.Alike

variable {t u : Token} (h : t.Alike u)
include h

theorem operand : t.operand = u.operand := by rw [Token.operand, Token.operand, h.kind, h.lexeme]

theorem keyword? : t.keyword? = u.keyword? := by rw [Token.keyword?, Token.keyword?, h.kind, h.lexeme]

theorem dataType? : t.dataType? = u.dataType? := by rw [Token.dataType?, Token.dataType?, h.kind, h.lexeme]

theorem isInside : t.isInside = u.isInside := by rw [Token.isInside, Token.isInside, h.kind]

end Token.Alike

/-- Alike token by token. -/
abbrev TokensAlike : List Token → List Token → Prop := List.Forall₂ Token.Alike

/-- A kind and a text, without a position. -/
def Token.word (t : Token) : TokenKind × String := (t.kind, t.lexeme)

theorem tokensAlike_iff {ts us : List Token} : TokensAlike ts us ↔ ts.map Token.word = us.map Token.word := by
  rw [← List.forall₂_eq_eq_eq, List.forall₂_map_left_iff, List.forall₂_map_right_iff]
  have hword : ∀ t u : Token, t.Alike u ↔ t.word = u.word := by
    intro t u
    rw [Token.word, Token.word, Prod.mk.injEq]
    exact ⟨fun h => ⟨h.kind, h.lexeme⟩, fun h => ⟨h.1, h.2⟩⟩
  exact ⟨fun h => h.imp fun t u => (hword t u).mp, fun h => h.imp fun t u => (hword t u).mpr⟩

namespace TokensAlike

variable {ts us : List Token}

theorem refl (ts : List Token) : TokensAlike ts ts := tokensAlike_iff.mpr rfl

theorem head? (h : TokensAlike ts us) : Option.Rel Token.Alike ts.head? us.head? := by
  cases h with
  | nil => exact .none
  | cons ht _ => exact .some ht

theorem tail (h : TokensAlike ts us) : TokensAlike ts.tail us.tail := by
  cases h with
  | nil => exact .nil
  | cons _ hts => exact hts

theorem takeWhile_isInside (h : TokensAlike ts us) :
    TokensAlike (ts.takeWhile Token.isInside) (us.takeWhile Token.isInside) := by
  induction h with
  | nil => exact .nil
  | cons ht _ ih =>
    rw [List.takeWhile_cons, List.takeWhile_cons, ht.isInside]
    split
    · exact .cons ht ih
    · exact .nil

theorem dropWhile (h : TokensAlike ts us) {p : Token → Bool} (hp : ∀ t u, Token.Alike t u → p t = p u) :
    TokensAlike (ts.dropWhile p) (us.dropWhile p) := by
  induction h with
  | nil => exact .nil
  | cons ht hts ih =>
    rw [List.dropWhile_cons, List.dropWhile_cons, hp _ _ ht]
    split
    · exact ih
    · exact .cons ht hts

end TokensAlike

/-- What is the same of values that are related is the same where one may be missing. -/
theorem map_of_rel {α β : Type} {R : α → α → Prop} {o o' : Option α} (h : Option.Rel R o o') {f : α → β}
    (hf : ∀ a b, R a b → f a = f b) : o.map f = o'.map f := by
  cases h with
  | none => rfl
  | some hR => exact congrArg some (hf _ _ hR)

theorem any_of_rel {o o' : Option Token} (h : Option.Rel Token.Alike o o') {p : Token → Bool}
    (hp : ∀ t u, Token.Alike t u → p t = p u) : o.any p = o'.any p := by
  cases h with
  | none => rfl
  | some ht => exact hp _ _ ht

/-! ## Parts of statements -/

theorem Chain.readTerms_alike {ts us : List Token} (h : TokensAlike ts us) :
    (Chain.readTerms ts).1 = (Chain.readTerms us).1 ∧
      TokensAlike (Chain.readTerms ts).2 (Chain.readTerms us).2 := by
  fun_induction Chain.readTerms ts generalizing us with
  | case1 op rhs ts hop hrhs terms after heq ih =>
    obtain _ | ⟨htop, _ | ⟨htrhs, hts⟩⟩ := h
    rename_i u v us
    obtain ⟨hterms, hafter⟩ := ih hts
    rw [heq] at hterms hafter
    rw [Chain.readTerms, if_pos (htop.kind.symm.trans hop), if_pos (htrhs.kind ▸ hrhs)]
    refine ⟨?_, hafter⟩
    rw [htop.lexeme, htrhs.operand]
    exact congrArg (_ ++ ·) hterms
  | case2 op rhs ts hop hrhs =>
    obtain _ | ⟨htop, _ | ⟨htrhs, hts⟩⟩ := h
    rw [Chain.readTerms, if_pos (htop.kind.symm.trans hop), if_neg (htrhs.kind ▸ hrhs)]
    exact ⟨rfl, .cons htrhs hts⟩
  | case3 op rhs ts hop =>
    obtain _ | ⟨htop, _ | ⟨htrhs, hts⟩⟩ := h
    rw [Chain.readTerms, if_neg (htop.kind ▸ hop)]
    exact ⟨rfl, .cons htop (.cons htrhs hts)⟩
  | case4 op =>
    obtain _ | ⟨htop, _ | _⟩ := h
    rw [Chain.readTerms, ← htop.kind]
    split
    · exact ⟨rfl, .nil⟩
    · exact ⟨rfl, .cons htop .nil⟩
  | case5 =>
    cases h
    exact ⟨rfl, .nil⟩

theorem Chain.read_alike {ts us : List Token} (h : TokensAlike ts us) :
    (Chain.read ts).1 = (Chain.read us).1 ∧ TokensAlike (Chain.read ts).2 (Chain.read us).2 := by
  cases h with
  | nil => exact ⟨rfl, .nil⟩
  | @cons t u ts us ht hts =>
    obtain ⟨hterms, hafter⟩ := Chain.readTerms_alike hts
    rw [Chain.read, Chain.read, ← ht.kind]
    split
    · refine ⟨?_, hafter⟩
      show some (Chain.mk t.operand (Chain.readTerms ts).1) = some ⟨u.operand, (Chain.readTerms us).1⟩
      rw [hterms, ht.operand]
    · exact ⟨rfl, hts⟩

theorem parameterNames_alike {ts us : List Token} (h : TokensAlike ts us) :
    parameterNames ts = parameterNames us := by
  induction h with
  | nil => rfl
  | cons htype hts ih =>
    cases hts with
    | nil => rfl
    | cons hname _ => rw [parameterNames, parameterNames, ih, htype.kind, hname.kind, hname.lexeme]

theorem Argument.readAll_alike (fuel : Nat) {ts us : List Token} (h : TokensAlike ts us) :
    Argument.readAll fuel ts = Argument.readAll fuel us := by
  induction fuel generalizing ts us with
  | zero => rfl
  | succ fuel ih =>
    -- the comma behind an argument is taken on both sides or on neither
    have hcomma : ∀ {vs ws : List Token}, TokensAlike vs ws →
        Argument.readAll fuel (if vs.head?.any fun t => t.kind = .comma then vs.tail else vs) =
          Argument.readAll fuel (if ws.head?.any fun t => t.kind = .comma then ws.tail else ws) := by
      intro vs ws hvs
      rw [any_of_rel hvs.head? fun t u htu => by rw [htu.kind]]
      split
      · exact ih hvs.tail
      · exact ih hvs
    cases h with
    | nil => rfl
    | @cons t u ts us ht hts =>
      by_cases htype : t.kind = .dataType
      · rw [Argument.readAll, Argument.readAll, if_pos htype, if_pos (ht.kind.symm.trans htype), ht.lexeme]
        exact congrArg _ (hcomma hts)
      · obtain ⟨hchain, hafter⟩ := Chain.read_alike (.cons ht hts)
        rw [Argument.readAll, Argument.readAll, if_neg htype, if_neg (ht.kind ▸ htype)]
        show ((Chain.read (t :: ts)).1.map Argument.value).toList ++ _ = ((Chain.read (u :: us)).1.map _).toList ++ _
        rw [hchain]
        exact congrArg _ (hcomma hafter)

theorem LoopStep.ofTokens?_alike {ts us : List Token} (h : TokensAlike ts us) :
    LoopStep.ofTokens? ts = LoopStep.ofTokens? us := by
  obtain _ | ⟨htarget, _ | ⟨hop, hrest⟩⟩ := h
  · rfl
  · rfl
  · have hvalue := (Chain.read_alike hrest).1
    cases hrest with
    | nil => simp only [LoopStep.ofTokens?, htarget.kind, htarget.lexeme, hop.kind, hop.lexeme]
    | cons hrhs _ =>
      simp only [LoopStep.ofTokens?, htarget.kind, htarget.lexeme, hop.kind, hop.lexeme, hvalue]
      split
      · split
        · rfl
        · cases Operator.ofLexeme? _ with
          | none => rfl
          | some op => cases op <;> simp only [hrhs.kind, hrhs.operand]
      · rfl

/-! ## Trees -/

abbrev Statement.Alike (s t : Statement) : Prop := s.erase = t.erase

abbrev BodyAlike (ss ts : List Statement) : Prop := eraseBody ss = eraseBody ts

abbrev Alternatives.Alike (a b : Alternatives) : Prop := a.erase = b.erase

/-- Statements that are alike, or none. -/
abbrev OptionAlike : Option Statement → Option Statement → Prop := Option.Rel Statement.Alike

theorem eraseBody_append (ss ts : List Statement) : eraseBody (ss ++ ts) = eraseBody ss ++ eraseBody ts := by
  induction ss with
  | nil => rfl
  | cons s ss ih => rw [List.cons_append, eraseBody, eraseBody, ih, List.cons_append]

theorem BodyAlike.append {ss ss' ts ts' : List Statement} (hs : BodyAlike ss ss') (ht : BodyAlike ts ts') :
    BodyAlike (ss ++ ts) (ss' ++ ts') := by
  rw [BodyAlike, eraseBody_append, eraseBody_append, hs, ht]

theorem OptionAlike.toList {o o' : Option Statement} (h : OptionAlike o o') : BodyAlike o.toList o'.toList := by
  cases h with
  | none => rfl
  | some hs => exact congrArg (fun s => [s]) hs

/-! ## Readers -/

/-- Complaints of one cause, which is a syntactic one. -/
structure Diagnostic.Alike (d e : Diagnostic) : Prop where
  cause : d.cause = e.cause
  phase : d.phase = .syntactic

structure Reader.Alike (r s : Reader) : Prop where
  rest : TokensAlike r.rest s.rest
  opened : r.opened.length = s.opened.length
  diagnostics : List.Forall₂ Diagnostic.Alike r.diagnostics s.diagnostics

/-- As many complaints, each alike. -/
theorem Reader.Alike.complain {r s : Reader} (h : r.Alike s) {cause : Cause} (hcause : cause.phase = .syntactic)
    (line line' : Option Nat) :
    Reader.Alike { r with diagnostics := r.diagnostics ++ [⟨cause, line⟩] }
      { s with diagnostics := s.diagnostics ++ [⟨cause, line'⟩] } :=
  ⟨h.rest, h.opened, List.rel_append h.diagnostics (.cons ⟨rfl, hcause⟩ .nil)⟩

namespace Read

/-- Begun on readers that are alike, the actions return what `R` relates and leave readers that are alike. -/
def Alike {α : Type} (R : α → α → Prop) (m m' : Read α) : Prop :=
  ∀ r s : Reader, r.Alike s → R (exec m r).1 (exec m' s).1 ∧ (exec m r).2.Alike (exec m' s).2

namespace Alike

variable {α β : Type} {R : α → α → Prop} {S : β → β → Prop}

theorem pure {a b : α} (h : R a b) : Alike R (Pure.pure a) (Pure.pure b) := fun _ _ hrs => ⟨h, hrs⟩

theorem bind {m m' : Read α} {f f' : α → Read β} (hm : Alike R m m') (hf : ∀ a b, R a b → Alike S (f a) (f' b)) :
    Alike S (m >>= f) (m' >>= f') := by
  intro r s hrs
  obtain ⟨hR, hrest⟩ := hm r s hrs
  exact hf _ _ hR _ _ hrest

/-- After an action that returns the same on both sides. -/
theorem bind_eq {m m' : Read α} {f f' : α → Read β} (hm : Alike Eq m m') (hf : ∀ a, Alike S (f a) (f' a)) :
    Alike S (m >>= f) (m' >>= f') := hm.bind fun a _ hab => hab ▸ hf a

theorem map {m m' : Read α} {f f' : α → β} (hm : Alike R m m') (h : ∀ a b, R a b → S (f a) (f' b)) :
    Alike S (f <$> m) (f' <$> m') := by
  intro r s hrs
  obtain ⟨hR, hrest⟩ := hm r s hrs
  exact ⟨h _ _ hR, hrest⟩

theorem ite {c : Prop} [Decidable c] {a b a' b' : Read α} (ha : Alike R a a') (hb : Alike R b b') :
    Alike R (if c then a else b) (if c then a' else b') := by
  split
  · exact ha
  · exact hb

theorem get : Alike Reader.Alike (MonadState.get : Read Reader) MonadState.get := fun _ _ hrs => ⟨hrs, hrs⟩

theorem current : Alike (Option.Rel Token.Alike) Read.current Read.current := fun _ _ hrs => ⟨hrs.rest.head?, hrs⟩

theorem advance : Alike Eq Read.advance Read.advance := fun _ _ hrs => ⟨rfl, hrs.rest.tail, hrs.opened, hrs.diagnostics⟩

theorem complain {cause : Cause} (hcause : cause.phase = .syntactic) (line line' : Option Nat) :
    Alike Eq (Read.complain cause line) (Read.complain cause line') :=
  fun _ _ hrs => ⟨rfl, hrs.complain hcause line line'⟩

theorem startsWith (kind : TokenKind) : Alike Eq (Read.startsWith kind) (Read.startsWith kind) :=
  fun _ _ hrs => ⟨any_of_rel hrs.rest.head? fun t u htu => by rw [htu.kind], hrs⟩

theorem startsWithKeyword (k : Keyword) : Alike Eq (Read.startsWithKeyword k) (Read.startsWithKeyword k) :=
  fun _ _ hrs => ⟨any_of_rel hrs.rest.head? fun t u htu => by rw [htu.keyword?], hrs⟩

theorem expect (wanted : TokenKind) : Alike (Option.Rel Token.Alike) (Read.expect wanted) (Read.expect wanted) := by
  refine current.bind fun o o' ho => advance.bind_eq fun _ => ?_
  cases ho with
  | none => exact pure .none
  | @some t u ht =>
    simp only [ht.kind]
    exact ite (pure (.some ht)) ((complain rfl _ _).bind_eq fun _ => pure .none)

/-- After a token that is taken whatever it is. -/
theorem expect_bind (wanted : TokenKind) {m m' : Read β} (h : Alike S m m') :
    Alike S (do let _ ← Read.expect wanted; m) (do let _ ← Read.expect wanted; m') :=
  (expect wanted).bind fun _ _ _ => h

theorem chain : Alike Eq Read.chain Read.chain := by
  intro r s hrs
  obtain ⟨hchain, hrest⟩ := Chain.read_alike hrs.rest
  exact ⟨hchain, hrest, hrs.opened, hrs.diagnostics⟩

theorem untilParen : Alike TokensAlike Read.untilParen Read.untilParen :=
  fun _ _ hrs => ⟨hrs.rest.takeWhile_isInside, hrs.rest.dropWhile fun _ _ => Token.Alike.isInside, hrs.opened,
    hrs.diagnostics⟩

theorem openBlock : Alike Eq Read.openBlock Read.openBlock := by
  rintro ⟨rest, opened, ds⟩ ⟨rest', opened', ds'⟩ ⟨hrest, hopened, hds⟩
  refine ⟨rfl, hrest, ?_, hds⟩
  cases hrest with
  | nil => exact hopened
  | cons _ _ => exact congrArg (· + 1) hopened

theorem closeBlock : Alike Eq Read.closeBlock Read.closeBlock := by
  rintro ⟨rest, opened, ds⟩ ⟨rest', opened', ds'⟩ ⟨hrest, hopened, hds⟩
  cases hrest with
  | cons _ hts =>
    refine ⟨rfl, hts, ?_, hds⟩
    simp only [exec_closeBlock_cons, List.length_tail]
    rw [hopened]
  | nil =>
    cases opened with
    | nil =>
      obtain rfl := List.length_eq_zero_iff.mp hopened.symm
      exact ⟨rfl, .nil, rfl, hds⟩
    | cons line outer =>
      obtain ⟨line', outer', rfl⟩ := List.exists_cons_of_length_eq_add_one hopened.symm
      refine ⟨rfl, Reader.Alike.complain (r := ⟨[], outer, ds⟩) (s := ⟨[], outer', ds'⟩)
        ⟨.nil, Nat.succ_injective hopened, hds⟩ rfl line line'⟩

/-! ## Reading statements -/

theorem declaration : Alike Eq Read.declaration Read.declaration := by
  refine current.bind fun type type' htype => (expect .dataType).bind fun _ _ _ => current.bind fun o o' ho => ?_
  have htype : type.bind Token.dataType? = type'.bind Token.dataType? := by
    cases htype with
    | none => rfl
    | some ht => exact ht.dataType?
  cases ho with
  | none => exact pure rfl
  | @some name name' hname =>
    simp only [hname.kind, hname.lexeme, htype]
    refine ite ?_ (pure rfl)
    refine advance.bind_eq fun _ => (startsWith .assign).bind_eq fun _ => ite ?_ ?_
    · exact advance.bind_eq fun _ => chain.bind_eq fun _ => expect_bind .semicolon (pure rfl)
    · exact (pure rfl).bind_eq fun _ => expect_bind .semicolon (pure rfl)

theorem condition : Alike Eq Read.condition Read.condition :=
  expect_bind .lparen (chain.bind_eq fun _ => expect_bind .rparen (pure rfl))

theorem drop {R : Option Statement → Option Statement → Prop} (h : R none none) : Alike R Read.drop Read.drop :=
  advance.bind_eq fun _ => pure h

theorem assignment {t u : Token} (h : t.Alike u) : Alike Statement.Alike (Read.assignment t) (Read.assignment u) :=
  expect_bind .identifier (expect_bind .assign (chain.bind_eq fun _ => expect_bind .semicolon
    (pure (by rw [Statement.Alike, Statement.erase, Statement.erase, h.lexeme]))))

theorem call {t u : Token} (h : t.Alike u) (builtin : Bool) :
    Alike Statement.Alike (Read.call t builtin) (Read.call u builtin) := by
  refine advance.bind_eq fun _ => expect_bind .lparen (untilParen.bind fun ts us hts => ?_)
  refine expect_bind .rparen (expect_bind .semicolon (pure ?_))
  rw [Statement.Alike, Statement.erase, Statement.erase, h.lexeme, hts.length_eq, Argument.readAll_alike _ hts]

theorem leave (t u : Token) : Alike Statement.Alike (Read.leave t) (Read.leave u) :=
  advance.bind_eq fun _ => expect_bind .semicolon (pure rfl)

section Compound

variable {block block' : Read (List Statement)} (hblock : Alike BodyAlike block block')
include hblock

theorem braced : Alike BodyAlike (Read.braced block) (Read.braced block') :=
  openBlock.bind_eq fun _ => expect_bind .lcurly (hblock.bind fun _ _ hbody => closeBlock.bind_eq fun _ => pure hbody)

theorem plainBlock (pos pos' : Position) :
    Alike OptionAlike (some <$> Statement.block pos <$> block) (some <$> Statement.block pos' <$> block') :=
  have hplain : Alike Statement.Alike (Statement.block pos <$> block) (Statement.block pos' <$> block') :=
    hblock.map fun _ _ hbody => congrArg (Statement.block ⟨0, 0⟩) hbody
  hplain.map fun _ _ => Option.Rel.some

theorem alternatives (fuel : Nat) :
    Alike Alternatives.Alike (Read.alternatives block fuel) (Read.alternatives block' fuel) := by
  induction fuel with
  | zero => exact pure rfl
  | succ fuel ih =>
    refine (startsWithKeyword .chaloye).bind_eq fun _ => ite ?_ ?_
    · refine advance.bind_eq fun _ => condition.bind_eq fun cond => hblock.bind fun body body' hbody => ?_
      refine ih.bind fun rest rest' hrest => pure ?_
      rw [Alternatives.Alike, Alternatives.erase, Alternatives.erase, hbody, hrest]
    · refine (startsWithKeyword .naioye).bind_eq fun _ => ite ?_ (pure rfl)
      exact advance.bind_eq fun _ => hblock.bind fun _ _ hbody => pure (congrArg Alternatives.otherwise hbody)

theorem conditional (t u : Token) :
    Alike Statement.Alike (Read.conditional block t) (Read.conditional block' u) := by
  refine advance.bind_eq fun _ => condition.bind_eq fun cond => hblock.bind fun body body' hbody => ?_
  refine get.bind fun r s hrs => ?_
  rw [hrs.rest.length_eq]
  refine (alternatives hblock _).bind fun a a' ha => pure ?_
  rw [Statement.Alike, Statement.erase, Statement.erase, hbody, ha]

theorem whileLoop (t u : Token) : Alike Statement.Alike (Read.whileLoop block t) (Read.whileLoop block' u) :=
  advance.bind_eq fun _ => condition.bind_eq fun cond => hblock.bind fun _ _ hbody =>
    pure (congrArg (Statement.whileLoop ⟨0, 0⟩ cond) hbody)

theorem doWhile (t u : Token) : Alike Statement.Alike (Read.doWhile block t) (Read.doWhile block' u) := by
  have htree : ∀ body body' cond, BodyAlike body body' →
      Statement.Alike (.doWhile t.position body cond) (.doWhile u.position body' cond) := by
    intro body body' cond hbody
    rw [Statement.Alike, Statement.erase, Statement.erase, hbody]
  refine advance.bind_eq fun _ => hblock.bind fun body body' hbody => ?_
  refine (startsWithKeyword .wish).bind_eq fun _ => ite ?_ ?_
  · exact advance.bind_eq fun _ => condition.bind_eq fun cond => expect_bind .semicolon (pure (htree _ _ cond hbody))
  · exact current.bind fun _ _ _ => (complain rfl _ _).bind_eq fun _ => pure (htree _ _ none hbody)

theorem counting (t u : Token) : Alike Statement.Alike (Read.counting block t) (Read.counting block' u) := by
  refine advance.bind_eq fun _ => expect_bind .lparen (declaration.bind_eq fun init => chain.bind_eq fun cond => ?_)
  refine expect_bind .semicolon (untilParen.bind fun ts us hts => expect_bind .rparen ?_)
  rw [LoopStep.ofTokens?_alike hts]
  exact hblock.bind fun _ _ hbody => pure (congrArg (Statement.counting ⟨0, 0⟩ init cond _) hbody)

theorem function (t u : Token) : Alike Statement.Alike (Read.function block t) (Read.function block' u) := by
  refine advance.bind_eq fun _ => (expect .identifier).bind fun name name' hname => ?_
  refine expect_bind .lparen (untilParen.bind fun ts us hts => expect_bind .rparen ?_)
  rw [map_of_rel hname fun _ _ => Token.Alike.lexeme, parameterNames_alike hts]
  exact hblock.bind fun _ _ hbody => pure (congrArg (Statement.function ⟨0, 0⟩ _ _) hbody)

theorem statement {t u : Token} (h : t.Alike u) :
    Alike OptionAlike (Read.statement block t) (Read.statement block' u) := by
  have hsome : ∀ {m m' : Read Statement}, Alike Statement.Alike m m' → Alike OptionAlike (some <$> m) (some <$> m') :=
    fun hm => hm.map fun _ _ => Option.Rel.some
  have hdrop : Alike OptionAlike Read.drop Read.drop := drop .none
  unfold Read.statement
  rw [h.kind, h.keyword?]
  cases u.kind with
  | lcurly => exact plainBlock hblock _ _
  | dataType =>
    refine declaration.map fun d d' hd => ?_
    rw [hd]
    cases d' with
    | none => exact .none
    | some d => exact .some rfl
  | identifier =>
    -- the token behind a name tells an assignment from a call
    refine get.bind fun r s hrs => ?_
    rw [map_of_rel hrs.rest.tail.head? fun _ _ => Token.Alike.kind]
    cases s.rest.tail.head?.map Token.kind with
    | none => exact hdrop
    | some next =>
      cases next with
      | assign => exact hsome (assignment h)
      | lparen => exact hsome (call h false)
      | _ => exact hdrop
  | keyword =>
    cases u.keyword? with
    | none => exact hdrop
    | some k =>
      cases k with
      | oye => exact hsome (conditional hblock t u)
      | naioye => exact advance.bind_eq fun _ => plainBlock hblock _ _
      | brk => exact hsome (leave t u)
      | wish => exact hsome (whileLoop hblock t u)
      | last => exact hsome (doWhile hblock t u)
      | first => exact hsome (counting hblock t u)
      | ex => exact hsome (function hblock t u)
      | printO | enter | rat => exact hsome (call h true)
      | _ => exact hdrop
  | _ => exact hdrop

end Compound

theorem items (fuel : Nat) : Alike BodyAlike (Read.items fuel) (Read.items fuel) := by
  induction fuel with
  | zero => exact pure rfl
  | succ fuel ih =>
    refine current.bind fun o o' ho => ?_
    cases ho with
    | none => exact pure rfl
    | @some t u ht =>
      simp only [ht.kind]
      refine ite (pure rfl) ?_
      refine (statement (braced ih) ht).bind fun s s' hs => ih.bind fun ss ss' hss => pure ?_
      exact hs.toList.append hss

theorem program (fuel : Nat) : Alike BodyAlike (Read.program fuel) (Read.program fuel) := by
  induction fuel with
  | zero => exact pure rfl
  | succ fuel ih =>
    refine (items (fuel + 1)).bind fun body body' hbody => current.bind fun o o' ho => ?_
    cases ho with
    | none => exact pure hbody
    | some _ =>
      refine (complain rfl _ _).bind_eq fun _ => advance.bind_eq fun _ => ih.bind fun more more' hmore => pure ?_
      exact hbody.append hmore

end Alike

end Read

theorem parse_alike {ts us : List Token} (h : TokensAlike ts us) :
    BodyAlike (parse ts).body (parse us).body ∧
      List.Forall₂ Diagnostic.Alike (parse ts).diagnostics (parse us).diagnostics := by
  obtain ⟨hbody, hfinal⟩ := Read.Alike.program ts.length ⟨ts, [], []⟩ ⟨us, [], []⟩ ⟨h, rfl, .nil⟩
  rw [h.length_eq] at hbody hfinal
  unfold parse
  rw [h.length_eq]
  exact ⟨hbody, hfinal.diagnostics⟩

/-- **Whatever the tokens are, reading them complains of syntax only.** -/
theorem phase_of_mem_parse {tokens : List Token} {d : Diagnostic} (h : d ∈ (parse tokens).diagnostics) :
    d.phase = .syntactic := by
  -- the relation between two readings already says of each complaint that it is syntactic
  have hself := (parse_alike (TokensAlike.refl tokens)).2
  obtain ⟨i, hi, rfl⟩ := List.getElem_of_mem h
  exact (hself.get hi hi).phase

end Dotlang
