import Dotlang.Proofs.Occurrences

/-!
# The grammar

What tokens a tree is spelled with. Punctuation and reserved words are tokens of their kind or word,
wherever they stand in the source, and the types in a parameter list are not part of the tree.

* `Chain.Spelled`, `Declaration.Spelled` and so on : the parts of statements;
* `Statement.Spelled`, `BodySpelled`, `BlockSpelled`, `Alternatives.Spelled` : statements;
* `Statement.erase` : a statement without the positions in it.
-/

namespace Dotlang

/-! ## Parts of statements -/

inductive TermsSpelled : List (Operator × Operand) → List Token → Prop where
  | nil : TermsSpelled [] []
  | cons {op : Operator} {terms : List (Operator × Operand)} {t b : Token} {ts : List Token}
      (ht : t.kind = .operator) (hop : t.lexeme = op.lexeme) (hb : b.kind.isOperand = true)
      (h : TermsSpelled terms ts) : TermsSpelled ((op, b.operand) :: terms) (t :: b :: ts)

inductive Chain.Spelled : Chain → List Token → Prop where
  | mk {terms : List (Operator × Operand)} {t : Token} {ts : List Token} (ht : t.kind.isOperand = true)
      (h : TermsSpelled terms ts) : Spelled ⟨t.operand, terms⟩ (t :: ts)

/-- A chain in parentheses. -/
inductive ConditionSpelled : Chain → List Token → Prop where
  | mk {c : Chain} {l r : Token} {ts : List Token} (hl : l.kind = .lparen) (h : c.Spelled ts)
      (hr : r.kind = .rparen) : ConditionSpelled c (l :: (ts ++ [r]))

inductive Declaration.Spelled : Declaration → List Token → Prop where
  | plain {type : DataType} {t name semi : Token} (ht : t.dataType? = some type) (hname : name.kind = .identifier)
      (hsemi : semi.kind = .semicolon) : Spelled ⟨some type, name.lexeme, none⟩ [t, name, semi]
  | valued {type : DataType} {c : Chain} {t name eq semi : Token} {ts : List Token} (ht : t.dataType? = some type)
      (hname : name.kind = .identifier) (heq : eq.kind = .assign) (h : c.Spelled ts)
      (hsemi : semi.kind = .semicolon) : Spelled ⟨some type, name.lexeme, some c⟩ (t :: name :: eq :: (ts ++ [semi]))

inductive Argument.Spelled : Argument → List Token → Prop where
  | value {c : Chain} {ts : List Token} (h : c.Spelled ts) : Spelled (.value c) ts
  | type {t : Token} (ht : t.kind = .dataType) : Spelled (.type t.lexeme) [t]

/-- Arguments with commas between them. -/
inductive ArgumentsSpelled : List Argument → List Token → Prop where
  | nil : ArgumentsSpelled [] []
  | one {a : Argument} {ts : List Token} (h : a.Spelled ts) : ArgumentsSpelled [a] ts
  | cons {a b : Argument} {args : List Argument} {comma : Token} {ts us : List Token} (h : a.Spelled ts)
      (hcomma : comma.kind = .comma) (hargs : ArgumentsSpelled (b :: args) us) :
      ArgumentsSpelled (a :: b :: args) (ts ++ comma :: us)

/-- Parameters, each behind its type, with commas between them. -/
inductive ParametersSpelled : List String → List Token → Prop where
  | nil : ParametersSpelled [] []
  | one {t name : Token} (ht : t.kind = .dataType) (hname : name.kind = .identifier) :
      ParametersSpelled [name.lexeme] [t, name]
  | cons {t name comma : Token} {p : String} {params : List String} {ts : List Token} (ht : t.kind = .dataType)
      (hname : name.kind = .identifier) (hcomma : comma.kind = .comma) (h : ParametersSpelled (p :: params) ts) :
      ParametersSpelled (name.lexeme :: p :: params) (t :: name :: comma :: ts)

/-- The step of a counting loop, which may be absent. -/
inductive StepSpelled : Option LoopStep → List Token → Prop where
  | absent : StepSpelled none []
  | assign {c : Chain} {t eq : Token} {ts : List Token} (ht : t.kind = .identifier) (heq : eq.kind = .assign)
      (h : c.Spelled ts) : StepSpelled (some (.assign t.lexeme (some c))) (t :: eq :: ts)
  | compound {op : Arith} {t o b : Token} (ht : t.kind = .identifier) (ho : o.kind = .operator)
      (hop : o.lexeme = op.lexeme) (hb : b.kind.isOperand = true) :
      StepSpelled (some (.compound t.lexeme (.arith op) b.operand)) [t, o, b]

/-! ## Statements -/

mutual

inductive Statement.Spelled : Statement → List Token → Prop where
  | block {pos : Position} {body : List Statement} {ts : List Token} (h : BlockSpelled body ts) :
      Statement.Spelled (.block pos body) ts
  | declare {pos : Position} {d : Declaration} {ts : List Token} (h : d.Spelled ts) :
      Statement.Spelled (.declare pos d) ts
  | assign {pos : Position} {c : Chain} {t eq semi : Token} {ts : List Token} (ht : t.kind = .identifier)
      (heq : eq.kind = .assign) (h : c.Spelled ts) (hsemi : semi.kind = .semicolon) :
      Statement.Spelled (.assign pos t.lexeme (some c)) (t :: eq :: (ts ++ [semi]))
  | userCall {pos : Position} {args : List Argument} {t l r semi : Token} {ts : List Token}
      (ht : t.kind = .identifier) (hl : l.kind = .lparen) (h : ArgumentsSpelled args ts) (hr : r.kind = .rparen)
      (hsemi : semi.kind = .semicolon) :
      Statement.Spelled (.call pos t.lexeme args false) (t :: l :: (ts ++ [r, semi]))
  | builtinCall {pos : Position} {k : Keyword} {args : List Argument} {t l r semi : Token} {ts : List Token}
      (hk : k ∈ Keyword.callable) (ht : t.keyword? = some k) (hl : l.kind = .lparen) (h : ArgumentsSpelled args ts)
      (hr : r.kind = .rparen) (hsemi : semi.kind = .semicolon) :
      Statement.Spelled (.call pos k.word args true) (t :: l :: (ts ++ [r, semi]))
  | function {pos : Position} {params : List String} {body : List Statement} {t name l r : Token}
      {ts us : List Token} (ht : t.keyword? = some .ex) (hname : name.kind = .identifier) (hl : l.kind = .lparen)
      (hparams : ParametersSpelled params ts) (hr : r.kind = .rparen) (h : BlockSpelled body us) :
      Statement.Spelled (.function pos name.lexeme params body) (t :: name :: l :: (ts ++ r :: us))
  | conditional {pos : Position} {c : Chain} {body : List Statement} {a : Alternatives} {t : Token}
      {ts us vs : List Token} (ht : t.keyword? = some .oye) (hc : ConditionSpelled c ts) (h : BlockSpelled body us)
      (ha : a.Spelled vs) : Statement.Spelled (.conditional pos (some c) body a) (t :: (ts ++ (us ++ vs)))
  | whileLoop {pos : Position} {c : Chain} {body : List Statement} {t : Token} {ts us : List Token}
      (ht : t.keyword? = some .wish) (hc : ConditionSpelled c ts) (h : BlockSpelled body us) :
      Statement.Spelled (.whileLoop pos (some c) body) (t :: (ts ++ us))
  | doWhile {pos : Position} {c : Chain} {body : List Statement} {t w semi : Token} {ts us : List Token}
      (ht : t.keyword? = some .last) (h : BlockSpelled body us) (hw : w.keyword? = some .wish)
      (hc : ConditionSpelled c ts) (hsemi : semi.kind = .semicolon) :
      Statement.Spelled (.doWhile pos body (some c)) (t :: (us ++ w :: (ts ++ [semi])))
  | counting {pos : Position} {d : Declaration} {c : Chain} {step : Option LoopStep} {body : List Statement}
      {t l semi r : Token} {ds cs ss us : List Token} (ht : t.keyword? = some .first) (hl : l.kind = .lparen)
      (hd : d.Spelled ds) (hc : c.Spelled cs) (hsemi : semi.kind = .semicolon) (hstep : StepSpelled step ss)
      (hr : r.kind = .rparen) (h : BlockSpelled body us) :
      Statement.Spelled (.counting pos (some d) (some c) step body)
        (t :: l :: (ds ++ (cs ++ semi :: (ss ++ r :: us))))
  | brk {pos : Position} {t semi : Token} (ht : t.keyword? = some .brk) (hsemi : semi.kind = .semicolon) :
      Statement.Spelled (.brk pos) [t, semi]

inductive BodySpelled : List Statement → List Token → Prop where
  | nil : BodySpelled [] []
  | cons {s : Statement} {body : List Statement} {ts us : List Token} (hs : s.Spelled ts) (h : BodySpelled body us) :
      BodySpelled (s :: body) (ts ++ us)

inductive BlockSpelled : List Statement → List Token → Prop where
  | mk {body : List Statement} {l r : Token} {ts : List Token} (hl : l.kind = .lcurly) (h : BodySpelled body ts)
      (hr : r.kind = .rcurly) : BlockSpelled body (l :: (ts ++ [r]))

inductive Alternatives.Spelled : Alternatives → List Token → Prop where
  | done : Alternatives.Spelled .done []
  | otherwise {body : List Statement} {t : Token} {ts : List Token} (ht : t.keyword? = some .naioye)
      (h : BlockSpelled body ts) : Alternatives.Spelled (.otherwise body) (t :: ts)
  | branch {c : Chain} {body : List Statement} {rest : Alternatives} {t : Token} {ts us vs : List Token}
      (ht : t.keyword? = some .chaloye) (hc : ConditionSpelled c ts) (h : BlockSpelled body us)
      (hrest : rest.Spelled vs) : Alternatives.Spelled (.branch (some c) body rest) (t :: (ts ++ (us ++ vs)))

end

/-! ## Well-formed trees -/

def Chain.isWellFormed (c : Chain) : Bool := c.operands.all fun o => o.kind.isOperand

def Declaration.isWellFormed (d : Declaration) : Bool := d.type.isSome && d.value.all Chain.isWellFormed

def Argument.isWellFormed : Argument → Bool
  | .value c => c.isWellFormed
  | .type _ => true

def LoopStep.isWellFormed : LoopStep → Bool
  | .assign _ value => value.any Chain.isWellFormed
  | .compound _ op operand => op.isArithmetic && operand.kind.isOperand

mutual

/-- Nothing is missing, chains consist of operands, and built-in functions have their names. -/
def Statement.isWellFormed : Statement → Bool
  | .block _ body => bodyIsWellFormed body
  | .declare _ d => d.isWellFormed
  | .assign _ _ value => value.any Chain.isWellFormed
  | .call _ name args builtin =>
    (!builtin || Keyword.callable.any fun k => k.word == name) && args.all Argument.isWellFormed
  | .function _ _ _ body => bodyIsWellFormed body
  | .conditional _ cond body alternatives =>
    cond.any Chain.isWellFormed && bodyIsWellFormed body && alternatives.isWellFormed
  | .whileLoop _ cond body => cond.any Chain.isWellFormed && bodyIsWellFormed body
  | .doWhile _ body cond => cond.any Chain.isWellFormed && bodyIsWellFormed body
  | .counting _ init cond step body =>
    init.any Declaration.isWellFormed && cond.any Chain.isWellFormed && step.all LoopStep.isWellFormed &&
      bodyIsWellFormed body
  | .brk _ => true

def bodyIsWellFormed : List Statement → Bool
  | [] => true
  | s :: ss => s.isWellFormed && bodyIsWellFormed ss

def Alternatives.isWellFormed : Alternatives → Bool
  | .done => true
  | .otherwise body => bodyIsWellFormed body
  | .branch cond body rest => cond.any Chain.isWellFormed && bodyIsWellFormed body && rest.isWellFormed

end

/-! ## Well-formed trees can be spelled -/

theorem exists_token (kind : TokenKind) (w : String) : ∃ t : Token, t.kind = kind ∧ t.lexeme = w :=
  ⟨⟨kind, w, 0, 0, 0⟩, rfl, rfl⟩

theorem exists_operand (o : Operand) : ∃ t : Token, t.operand = o := ⟨⟨o.kind, o.lexeme, 0, 0, 0⟩, rfl⟩

theorem exists_keyword (k : Keyword) : ∃ t : Token, t.keyword? = some k :=
  ⟨⟨.keyword, k.word, 0, 0, 0⟩, Keyword.ofWord?_word k⟩

theorem exists_dataType (type : DataType) : ∃ t : Token, t.dataType? = some type :=
  ⟨⟨.dataType, type.word, 0, 0, 0⟩, DataType.ofWord?_word type⟩

theorem Chain.exists_spelled {c : Chain} (h : c.isWellFormed = true) : ∃ ts, c.Spelled ts := by
  obtain ⟨first, terms⟩ := c
  simp only [isWellFormed, operands, List.all_cons, Bool.and_eq_true] at h
  obtain ⟨hfirst, hterms⟩ := h
  have hspelled : ∃ ts, TermsSpelled terms ts := by
    induction terms with
    | nil => exact ⟨_, .nil⟩
    | cons term terms ih =>
      obtain ⟨op, o⟩ := term
      simp only [List.map_cons, List.all_cons, Bool.and_eq_true] at hterms
      obtain ⟨ts, hts⟩ := ih hterms.2
      obtain ⟨t, ht, hop⟩ := exists_token .operator op.lexeme
      obtain ⟨b, rfl⟩ := exists_operand o
      exact ⟨_, .cons ht hop hterms.1 hts⟩
  obtain ⟨ts, hts⟩ := hspelled
  obtain ⟨t, rfl⟩ := exists_operand first
  exact ⟨_, .mk hfirst hts⟩

theorem exists_conditionSpelled {cond : Option Chain} (h : cond.any Chain.isWellFormed = true) :
    ∃ c ts, cond = some c ∧ ConditionSpelled c ts := by
  obtain ⟨c, rfl, hc⟩ := (Option.any_eq_true _ _).mp h
  obtain ⟨ts, hts⟩ := Chain.exists_spelled hc
  obtain ⟨l, hl, -⟩ := exists_token .lparen "("
  obtain ⟨r, hr, -⟩ := exists_token .rparen ")"
  exact ⟨c, _, rfl, .mk hl hts hr⟩

theorem Declaration.exists_spelled {d : Declaration} (h : d.isWellFormed = true) : ∃ ts, d.Spelled ts := by
  obtain ⟨type, name, value⟩ := d
  simp only [isWellFormed, Bool.and_eq_true] at h
  obtain ⟨type, rfl⟩ := Option.isSome_iff_exists.mp h.1
  obtain ⟨t, ht⟩ := exists_dataType type
  obtain ⟨n, hn, rfl⟩ := exists_token .identifier name
  obtain ⟨semi, hsemi, -⟩ := exists_token .semicolon ";"
  cases value with
  | none => exact ⟨_, .plain ht hn hsemi⟩
  | some c =>
    obtain ⟨ts, hts⟩ := Chain.exists_spelled (c := c) h.2
    obtain ⟨eq, heq, -⟩ := exists_token .assign "=."
    exact ⟨_, .valued ht hn heq hts hsemi⟩

theorem Argument.exists_spelled {a : Argument} (h : a.isWellFormed = true) : ∃ ts, a.Spelled ts := by
  cases a with
  | value c =>
    obtain ⟨ts, hts⟩ := Chain.exists_spelled (c := c) h
    exact ⟨ts, .value hts⟩
  | type word =>
    obtain ⟨t, ht, rfl⟩ := exists_token .dataType word
    exact ⟨_, .type ht⟩

theorem exists_argumentsSpelled {args : List Argument} (h : args.all Argument.isWellFormed = true) :
    ∃ ts, ArgumentsSpelled args ts := by
  induction args with
  | nil => exact ⟨_, .nil⟩
  | cons a args ih =>
    rw [List.all_cons, Bool.and_eq_true] at h
    obtain ⟨ts, hts⟩ := Argument.exists_spelled h.1
    obtain ⟨us, hus⟩ := ih h.2
    obtain ⟨comma, hcomma, -⟩ := exists_token .comma ","
    cases args with
    | nil => exact ⟨_, .one hts⟩
    | cons b args => exact ⟨_, .cons hts hcomma hus⟩

theorem exists_parametersSpelled (params : List String) : ∃ ts, ParametersSpelled params ts := by
  induction params with
  | nil => exact ⟨_, .nil⟩
  | cons p params ih =>
    obtain ⟨ts, hts⟩ := ih
    obtain ⟨t, ht, -⟩ := exists_token .dataType DataType.integer.word
    obtain ⟨n, hn, rfl⟩ := exists_token .identifier p
    obtain ⟨comma, hcomma, -⟩ := exists_token .comma ","
    cases params with
    | nil => exact ⟨_, .one ht hn⟩
    | cons q params => exact ⟨_, .cons ht hn hcomma hts⟩

theorem exists_stepSpelled {step : Option LoopStep} (h : step.all LoopStep.isWellFormed = true) :
    ∃ ts, StepSpelled step ts := by
  cases step with
  | none => exact ⟨_, .absent⟩
  | some step =>
    cases step with
    | assign target value =>
      obtain ⟨c, rfl, hc⟩ := (Option.any_eq_true _ _).mp h
      obtain ⟨ts, hts⟩ := Chain.exists_spelled hc
      obtain ⟨t, ht, rfl⟩ := exists_token .identifier target
      obtain ⟨eq, heq, -⟩ := exists_token .assign "=."
      exact ⟨_, .assign ht heq hts⟩
    | compound target op operand =>
      obtain ⟨hop, hoperand⟩ := Bool.and_eq_true_iff.mp h
      cases op with
      | compare r => cases hop
      | arith op =>
        obtain ⟨t, ht, rfl⟩ := exists_token .identifier target
        obtain ⟨o, ho, hlexeme⟩ := exists_token .operator op.lexeme
        obtain ⟨b, rfl⟩ := exists_operand operand
        exact ⟨_, .compound ht ho hlexeme hoperand⟩

theorem exists_blockSpelled {body : List Statement} (h : ∃ ts, BodySpelled body ts) : ∃ ts, BlockSpelled body ts := by
  obtain ⟨ts, hts⟩ := h
  obtain ⟨l, hl, -⟩ := exists_token .lcurly "\x7b"
  obtain ⟨r, hr, -⟩ := exists_token .rcurly "\x7d"
  exact ⟨_, .mk hl hts hr⟩

mutual

theorem Statement.exists_spelled : ∀ {s : Statement}, s.isWellFormed = true → ∃ ts, s.Spelled ts
  | .block pos body, h => by
    obtain ⟨ts, hts⟩ := exists_blockSpelled (exists_bodySpelled (show bodyIsWellFormed body = true from h))
    exact ⟨_, .block hts⟩
  | .declare pos d, h => by
    obtain ⟨ts, hts⟩ := Declaration.exists_spelled (d := d) h
    exact ⟨_, .declare hts⟩
  | .assign pos name value, h => by
    obtain ⟨c, rfl, hc⟩ := (Option.any_eq_true _ _).mp h
    obtain ⟨ts, hts⟩ := Chain.exists_spelled hc
    obtain ⟨t, ht, rfl⟩ := exists_token .identifier name
    obtain ⟨eq, heq, -⟩ := exists_token .assign "=."
    obtain ⟨semi, hsemi, -⟩ := exists_token .semicolon ";"
    exact ⟨_, .assign ht heq hts hsemi⟩
  | .call pos name args builtin, h => by
    obtain ⟨hname, hargs⟩ := Bool.and_eq_true_iff.mp h
    obtain ⟨ts, hts⟩ := exists_argumentsSpelled hargs
    obtain ⟨l, hl, -⟩ := exists_token .lparen "("
    obtain ⟨r, hr, -⟩ := exists_token .rparen ")"
    obtain ⟨semi, hsemi, -⟩ := exists_token .semicolon ";"
    cases builtin with
    | false =>
      obtain ⟨t, ht, rfl⟩ := exists_token .identifier name
      exact ⟨_, .userCall ht hl hts hr hsemi⟩
    | true =>
      obtain ⟨k, hk, hword⟩ : ∃ k ∈ Keyword.callable, (k.word == name) = true := List.any_eq_true.mp hname
      obtain rfl := beq_iff_eq.mp hword
      obtain ⟨t, ht⟩ := exists_keyword k
      exact ⟨_, .builtinCall hk ht hl hts hr hsemi⟩
  | .function pos name params body, h => by
    obtain ⟨us, hus⟩ := exists_blockSpelled (exists_bodySpelled (show bodyIsWellFormed body = true from h))
    obtain ⟨ts, hts⟩ := exists_parametersSpelled params
    obtain ⟨t, ht⟩ := exists_keyword .ex
    obtain ⟨n, hn, rfl⟩ := exists_token .identifier name
    obtain ⟨l, hl, -⟩ := exists_token .lparen "("
    obtain ⟨r, hr, -⟩ := exists_token .rparen ")"
    exact ⟨_, .function ht hn hl hts hr hus⟩
  | .conditional pos cond body alternatives, h => by
    simp only [Statement.isWellFormed, Bool.and_eq_true] at h
    obtain ⟨c, ts, rfl, hts⟩ := exists_conditionSpelled h.1.1
    obtain ⟨us, hus⟩ := exists_blockSpelled (exists_bodySpelled h.1.2)
    obtain ⟨vs, hvs⟩ := Alternatives.exists_spelled h.2
    obtain ⟨t, ht⟩ := exists_keyword .oye
    exact ⟨_, .conditional ht hts hus hvs⟩
  | .whileLoop pos cond body, h => by
    obtain ⟨hcond, hbody⟩ := Bool.and_eq_true_iff.mp h
    obtain ⟨c, ts, rfl, hts⟩ := exists_conditionSpelled hcond
    obtain ⟨us, hus⟩ := exists_blockSpelled (exists_bodySpelled hbody)
    obtain ⟨t, ht⟩ := exists_keyword .wish
    exact ⟨_, .whileLoop ht hts hus⟩
  | .doWhile pos body cond, h => by
    obtain ⟨hcond, hbody⟩ := Bool.and_eq_true_iff.mp h
    obtain ⟨c, ts, rfl, hts⟩ := exists_conditionSpelled hcond
    obtain ⟨us, hus⟩ := exists_blockSpelled (exists_bodySpelled hbody)
    obtain ⟨t, ht⟩ := exists_keyword .last
    obtain ⟨w, hw⟩ := exists_keyword .wish
    obtain ⟨semi, hsemi, -⟩ := exists_token .semicolon ";"
    exact ⟨_, .doWhile ht hus hw hts hsemi⟩
  | .counting pos init cond step body, h => by
    simp only [Statement.isWellFormed, Bool.and_eq_true] at h
    obtain ⟨⟨⟨hinit, hcond⟩, hstep⟩, hbody⟩ := h
    obtain ⟨d, rfl, hd⟩ := (Option.any_eq_true _ _).mp hinit
    obtain ⟨c, rfl, hc⟩ := (Option.any_eq_true _ _).mp hcond
    obtain ⟨ds, hds⟩ := Declaration.exists_spelled hd
    obtain ⟨cs, hcs⟩ := Chain.exists_spelled hc
    obtain ⟨ss, hss⟩ := exists_stepSpelled hstep
    obtain ⟨us, hus⟩ := exists_blockSpelled (exists_bodySpelled hbody)
    obtain ⟨t, ht⟩ := exists_keyword .first
    obtain ⟨l, hl, -⟩ := exists_token .lparen "("
    obtain ⟨r, hr, -⟩ := exists_token .rparen ")"
    obtain ⟨semi, hsemi, -⟩ := exists_token .semicolon ";"
    exact ⟨_, .counting ht hl hds hcs hsemi hss hr hus⟩
  | .brk pos, _ => by
    obtain ⟨t, ht⟩ := exists_keyword .brk
    obtain ⟨semi, hsemi, -⟩ := exists_token .semicolon ";"
    exact ⟨_, .brk ht hsemi⟩

theorem exists_bodySpelled : ∀ {body : List Statement}, bodyIsWellFormed body = true → ∃ ts, BodySpelled body ts
  | [], _ => ⟨_, .nil⟩
  | s :: ss, h => by
    obtain ⟨hs, hss⟩ := Bool.and_eq_true_iff.mp h
    obtain ⟨ts, hts⟩ := Statement.exists_spelled hs
    obtain ⟨us, hus⟩ := exists_bodySpelled hss
    exact ⟨_, .cons hts hus⟩

theorem Alternatives.exists_spelled : ∀ {a : Alternatives}, a.isWellFormed = true → ∃ ts, a.Spelled ts
  | .done, _ => ⟨_, .done⟩
  | .otherwise body, h => by
    obtain ⟨ts, hts⟩ := exists_blockSpelled (exists_bodySpelled (show bodyIsWellFormed body = true from h))
    obtain ⟨t, ht⟩ := exists_keyword .naioye
    exact ⟨_, .otherwise ht hts⟩
  | .branch cond body rest, h => by
    simp only [Alternatives.isWellFormed, Bool.and_eq_true] at h
    obtain ⟨c, ts, rfl, hts⟩ := exists_conditionSpelled h.1.1
    obtain ⟨us, hus⟩ := exists_blockSpelled (exists_bodySpelled h.1.2)
    obtain ⟨vs, hvs⟩ := Alternatives.exists_spelled h.2
    obtain ⟨t, ht⟩ := exists_keyword .chaloye
    exact ⟨_, .branch ht hts hus hvs⟩

end

/-! ## Trees without positions -/

mutual

/-- A statement with every position at the origin. -/
def Statement.erase : Statement → Statement
  | .block _ body => .block ⟨0, 0⟩ (eraseBody body)
  | .declare _ d => .declare ⟨0, 0⟩ d
  | .assign _ name value => .assign ⟨0, 0⟩ name value
  | .call _ name args builtin => .call ⟨0, 0⟩ name args builtin
  | .function _ name params body => .function ⟨0, 0⟩ name params (eraseBody body)
  | .conditional _ cond body alternatives => .conditional ⟨0, 0⟩ cond (eraseBody body) alternatives.erase
  | .whileLoop _ cond body => .whileLoop ⟨0, 0⟩ cond (eraseBody body)
  | .doWhile _ body cond => .doWhile ⟨0, 0⟩ (eraseBody body) cond
  | .counting _ init cond step body => .counting ⟨0, 0⟩ init cond step (eraseBody body)
  | .brk _ => .brk ⟨0, 0⟩

def eraseBody : List Statement → List Statement
  | [] => []
  | s :: ss => s.erase :: eraseBody ss

def Alternatives.erase : Alternatives → Alternatives
  | .done => .done
  | .otherwise body => .otherwise (eraseBody body)
  | .branch cond body rest => .branch cond (eraseBody body) rest.erase

end

end Dotlang
