import Dotlang.Statement.Reader

/-!
# From tokens to statements

One action per form of statement. Those that contain blocks take the action that reads a block as a
parameter, so that `items` is the only recursive one; it reads statements up to a closing brace and spends
one unit of fuel per statement and per level of nesting. Every statement takes at least one token, so as
many units as there are tokens suffice.

A token that begins no statement is dropped, and so is a stray `chaloye`.
-/

namespace Dotlang

/-- The names in a parameter list: every identifier that directly follows a data type. -/
def parameterNames : List Token → List String
  | type :: name :: ts =>
    (if type.kind = .dataType ∧ name.kind = .identifier then [name.lexeme] else []) ++
      parameterNames (name :: ts)
  | _ => []

/-- The arguments in a token list, at most `fuel` of them: data types and chains, with or without a
comma between them. -/
def Argument.readAll : Nat → List Token → List Argument
  | 0, _ => []
  | _, [] => []
  | fuel + 1, t :: ts =>
    let (arg, after) :=
      if t.kind = .dataType then (some (Argument.type t.lexeme), ts)
      else
        let (chain, after) := Chain.read (t :: ts)
        (chain.map Argument.value, after)
    let after := if after.head?.any fun t => t.kind = .comma then after.tail else after
    arg.toList ++ readAll fuel after

/-- The step of a counting loop: `target =. chain` or `target op operand`, whatever follows. -/
def LoopStep.ofTokens? : List Token → Option LoopStep
  | target :: op :: rest =>
    if target.kind = .identifier then
      if op.kind = .assign then some (.assign target.lexeme (Chain.read rest).1)
      else
        match Operator.ofLexeme? op.lexeme, rest with
        | some (.arith a), rhs :: _ =>
          if rhs.kind.isOperand then some (.compound target.lexeme (.arith a) rhs.operand) else none
        | _, _ => none
    else none
  | _ => none

namespace Read

/-- `type name =. chain ;` without a name there is no declaration, and reading stops before it. -/
def declaration : Read (Option Declaration) := do
  let type := (← current).bind Token.dataType?
  let _ ← expect .dataType
  match ← current with
  | none => return none
  | some name =>
    if name.kind = .identifier then
      advance
      let value ← if ← startsWith .assign then do advance; chain else pure none
      let _ ← expect .semicolon
      return some ⟨type, name.lexeme, value⟩
    else return none

/-- `name =. chain ;` -/
def assignment (first : Token) : Read Statement := do
  let _ ← expect .identifier
  let _ ← expect .assign
  let value ← chain
  let _ ← expect .semicolon
  return .assign first.position first.lexeme value

/-- `name ( arguments ) ;` -/
def call (first : Token) (builtin : Bool) : Read Statement := do
  advance
  let _ ← expect .lparen
  let inside ← untilParen
  let _ ← expect .rparen
  let _ ← expect .semicolon
  return .call first.position first.lexeme (Argument.readAll inside.length inside) builtin

/-- `( chain )` -/
def condition : Read (Option Chain) := do
  let _ ← expect .lparen
  let cond ← chain
  let _ ← expect .rparen
  return cond

/-- `brk ;` -/
def leave (first : Token) : Read Statement := do
  advance
  let _ ← expect .semicolon
  return .brk first.position

/-- A block in braces, given how to read the statements in it. -/
def braced (items : Read (List Statement)) : Read (List Statement) := do
  openBlock
  let _ ← expect .lcurly
  let body ← items
  closeBlock
  return body

section Compound

variable (block : Read (List Statement))

/-- `chaloye ( chain ) block`, any number of times up to `fuel`, and then `naioye block` or nothing. -/
def alternatives : Nat → Read Alternatives
  | 0 => return .done
  | fuel + 1 => do
    if ← startsWithKeyword .chaloye then
      advance
      let cond ← condition
      let body ← block
      return .branch cond body (← alternatives fuel)
    else if ← startsWithKeyword .naioye then
      advance
      return .otherwise (← block)
    else return .done

/-- `oye ( chain ) block` and its alternatives. -/
def conditional (first : Token) : Read Statement := do
  advance
  let cond ← condition
  let body ← block
  return .conditional first.position cond body (← alternatives block ((← get).rest.length))

/-- `wish ( chain ) block` -/
def whileLoop (first : Token) : Read Statement := do
  advance
  let cond ← condition
  return .whileLoop first.position cond (← block)

/-- `last block wish ( chain ) ;` -/
def doWhile (first : Token) : Read Statement := do
  advance
  let body ← block
  if ← startsWithKeyword .wish then
    advance
    let cond ← condition
    let _ ← expect .semicolon
    return .doWhile first.position body cond
  else
    complain .missingLoopCondition ((← current).map Token.line)
    return .doWhile first.position body none

/-- `first ( declaration chain ; step ) block` -/
def counting (first : Token) : Read Statement := do
  advance
  let _ ← expect .lparen
  let init ← declaration
  let cond ← chain
  let _ ← expect .semicolon
  let inside ← untilParen
  let _ ← expect .rparen
  return .counting first.position init cond (LoopStep.ofTokens? inside) (← block)

/-- `Ex name ( parameters ) block` -/
def function (first : Token) : Read Statement := do
  advance
  let name ← expect .identifier
  let _ ← expect .lparen
  let inside ← untilParen
  let _ ← expect .rparen
  return .function first.position ((name.map Token.lexeme).getD "") (parameterNames inside) (← block)

/-- Drops a token that begins no statement. -/
def drop : Read (Option Statement) := do
  advance
  return none

/-- The statement that a token begins. A `naioye` without a conditional is a plain block. -/
def statement (first : Token) : Read (Option Statement) := do
  match first.kind with
  | .lcurly => some <$> Statement.block first.position <$> block
  | .dataType => Option.map (Statement.declare first.position) <$> declaration
  | .identifier =>
    match (← get).rest.tail.head?.map Token.kind with
    | some .assign => some <$> assignment first
    | some .lparen => some <$> call first false
    | _ => drop
  | .keyword =>
    match first.keyword? with
    | some .oye => some <$> conditional block first
    | some .naioye => do
      advance
      some <$> Statement.block first.position <$> block
    | some .brk => some <$> leave first
    | some .wish => some <$> whileLoop block first
    | some .last => some <$> doWhile block first
    | some .first => some <$> counting block first
    | some .ex => some <$> function block first
    | some .printO | some .enter | some .rat => some <$> call first true
    | some .chaloye | some .resume | some .stop | none => drop
  | _ => drop

end Compound

/-- Statements up to a closing brace or the end of the tokens. -/
def items : Nat → Read (List Statement)
  | 0 => return []
  | fuel + 1 => do
    match ← current with
    | none => return []
    | some t =>
      if t.kind = .rcurly then return []
      else
        let s ← statement (braced (items fuel)) t
        return s.toList ++ (← items fuel)

/-- A whole program: a closing brace that closes nothing is reported and dropped. -/
def program : Nat → Read (List Statement)
  | 0 => return []
  | fuel + 1 => do
    let body ← items (fuel + 1)
    match ← current with
    | none => return body
    | some t =>
      complain .unmatchedBrace t.line
      advance
      return body ++ (← program fuel)

end Read

/-- The tree of a program and what is wrong with its syntax. -/
structure Parsed where
  body : List Statement
  diagnostics : List Diagnostic

def parse (tokens : List Token) : Parsed :=
  let (body, final) := (Read.program tokens.length).run ⟨tokens, [], []⟩
  ⟨body, final.diagnostics⟩

end Dotlang
