import Dotlang.Proofs.Balance
import Dotlang.Proofs.Introductions

/-!
# Reading by index

A token list can also be read where it stands, with an index that only grows. The index may run past the end, where there
is no token and advancing goes on. Nothing bounds a loop here but that it advances, and what a loop has passed over is cut
out of the list afterwards: the actions below have no result if a loop takes more rounds than it is given, or if a slice
does not lie in the list.

* `Cursor`, `Walk` : the state of reading, and actions on it;
* `Walk.loop` : rounds, as long as they go on;
* `Walk.slice?` : a part of the tokens, if it is one;
* `Walk.statement`, `Walk.program` : the statement at the index, and a whole program.
-/

namespace Dotlang

/-- Where reading has come to, the lines of the open blocks, innermost first, and the diagnostics so far. -/
structure Cursor where
  index : Nat
  opened : List Nat
  diagnostics : List Diagnostic

/-- What is left of the tokens. -/
def Cursor.reader (tokens : List Token) (c : Cursor) : Reader := ⟨tokens.drop c.index, c.opened, c.diagnostics⟩

def Cursor.next (c : Cursor) : Cursor := { c with index := c.index + 1 }

abbrev Walk := ReaderT (List Token) (StateT Cursor Option)

namespace Walk

/-! ## Single tokens -/

/-- The token at the index. -/
def current : Walk (Option Token) := return (← read)[(← get).index]?

/-- The token behind the one at the index. -/
def following : Walk (Option Token) := return (← read)[(← get).index + 1]?

def advance : Walk Unit := modify Cursor.next

def complain (cause : Cause) (line : Option Nat) : Walk Unit :=
  modify fun c => { c with diagnostics := c.diagnostics ++ [⟨cause, line⟩] }

def startsWith (kind : TokenKind) : Walk Bool := return (← current).any fun t => t.kind = kind

def startsWithKeyword (k : Keyword) : Walk Bool := return (← current).any fun t => t.keyword? = some k

def expect (wanted : TokenKind) : Walk (Option Token) := do
  let next ← current
  advance
  match next with
  | none => return none
  | some t =>
    if t.kind = wanted then return some t
    else
      complain (.expected wanted t.kind) t.line
      return none

/-- Passes over the token at the index if it is such a one. -/
def skipIf (p : Token → Bool) : Walk Unit := do
  if (← current).any p then advance

/-! ## Loops and slices -/

/-- What is done if the token at the index is such a one. -/
def whenNext {α : Type} (p : Token → Bool) (f : Token → Walk (Option α)) : Walk (Option α) := do
  match ← current with
  | none => return none
  | some t => if p t then f t else return none

/-- Rounds, each of which says what it puts before the rest or that there is no further one, and then `behind`. -/
def loop {γ : Type} (round : Walk (Option (γ → γ))) (behind : Walk γ) : Nat → Walk γ
  | 0 => failure
  | limit + 1 => do
    match ← round with
    | some f => f <$> loop round behind limit
    | none => behind

/-- The tokens from one place to another. -/
def slice? (tokens : List Token) (start stop : Nat) : Option (List Token) :=
  if start ≤ stop ∧ stop ≤ tokens.length then some ((tokens.drop start).take (stop - start)) else none

/-- The tokens between a place and the index, both cut off at the end of the list. -/
def consumedSince (start : Nat) : Walk (List Token) := do
  let tokens ← read
  let stop := min (← get).index tokens.length
  (slice? tokens (min start stop) stop).elim failure pure

/-- The operand behind an operator. An operator that none follows is passed over, and ends the chain. -/
def operandRound (op : Token) : Walk (Option (List (Operator × Operand) → List (Operator × Operand))) :=
  whenNext (fun t => t.kind.isOperand) fun rhs => do
    advance
    return some ((Operator.ofLexeme? op.lexeme).toList.map (·, rhs.operand) ++ ·)

/-- An operator and the operand behind it. -/
def termRound : Walk (Option (List (Operator × Operand) → List (Operator × Operand))) :=
  whenNext (fun t => t.kind = .operator) fun op => do
    advance
    operandRound op

section Limited

variable (limit : Nat)

def chain : Walk (Option Chain) := do
  match ← current with
  | none => return none
  | some first =>
    advance
    if first.kind.isOperand then return some ⟨first.operand, ← loop termRound (return []) limit⟩
    else return none

/-- The tokens before the next closing parenthesis, which the rounds go over. -/
def inside (round : Walk (Option (Unit → Unit))) : Walk (List Token) := do
  let start := (← get).index
  loop round (return ()) limit
  consumedSince start

/-- Any token. -/
def parameterRound : Walk (Option (Unit → Unit)) :=
  whenNext Token.isInside fun _ => do
    advance
    return some id

/-- A chain, and one token more if that is still in the parentheses. -/
def stepRound : Walk (Option (Unit → Unit)) :=
  whenNext Token.isInside fun _ => do
    let _ ← chain limit
    skipIf Token.isInside
    return some id

/-- A data type or a chain. -/
def argument (t : Token) : Walk (Option Argument) := do
  if t.kind = .dataType then
    advance
    return some (.type t.lexeme)
  else return (← chain limit).map Argument.value

/-- An argument, and the comma behind it. -/
def argumentRound : Walk (Option (List Argument → List Argument)) :=
  whenNext Token.isInside fun t => do
    let arg ← argument limit t
    skipIf fun t => t.kind = .comma
    return some (arg.toList ++ ·)

/-! ## Statements without blocks -/

def declaration : Walk (Option Declaration) := do
  let type := (← current).bind Token.dataType?
  let _ ← expect .dataType
  match ← current with
  | none => return none
  | some name =>
    if name.kind = .identifier then
      advance
      let value ← if ← startsWith .assign then do advance; chain limit else pure none
      let _ ← expect .semicolon
      return some ⟨type, name.lexeme, value⟩
    else return none

def assignment (first : Token) : Walk Statement := do
  let _ ← expect .identifier
  let _ ← expect .assign
  let value ← chain limit
  let _ ← expect .semicolon
  return .assign first.position first.lexeme value

def call (first : Token) (builtin : Bool) : Walk Statement := do
  advance
  let _ ← expect .lparen
  let args ← loop (argumentRound limit) (return []) limit
  let _ ← expect .rparen
  let _ ← expect .semicolon
  return .call first.position first.lexeme args builtin

def condition : Walk (Option Chain) := do
  let _ ← expect .lparen
  let cond ← chain limit
  let _ ← expect .rparen
  return cond

def leave (first : Token) : Walk Statement := do
  advance
  let _ ← expect .semicolon
  return .brk first.position

def drop : Walk (Option Statement) := do
  advance
  return none

/-! ## Statements with blocks -/

/-- Notes the line on which a block begins, unless the tokens have ended. -/
def openBlock : Walk Unit := do
  let next ← current
  modify fun c => { c with opened := (next.map Token.line).toList ++ c.opened }

/-- Takes the closing brace of the innermost block. At the end of the tokens that brace is missing. -/
def closeBlock : Walk Unit := do
  match ← current, (← get).opened with
  | none, [] => return
  | none, line :: outer =>
    modify fun c => { c with opened := outer }
    complain .missingBrace line
  | some _, opened =>
    modify fun c => { c with opened := opened.tail }
    advance

def braced (items : Walk (List Statement)) : Walk (List Statement) := do
  openBlock
  let _ ← expect .lcurly
  let body ← items
  closeBlock
  return body

section Compound

variable (block : Walk (List Statement))

/-- `chaloye ( chain ) block` -/
def branchRound : Walk (Option (Alternatives → Alternatives)) :=
  whenNext (fun t => t.keyword? = some .chaloye) fun _ => do
    advance
    let cond ← condition limit
    let body ← block
    return some (.branch cond body)

/-- `naioye block` or nothing. -/
def lastBranch : Walk Alternatives := do
  if ← startsWithKeyword .naioye then
    advance
    return .otherwise (← block)
  else return .done

def conditional (first : Token) : Walk Statement := do
  advance
  let cond ← condition limit
  let body ← block
  return .conditional first.position cond body (← loop (branchRound limit block) (lastBranch block) limit)

def whileLoop (first : Token) : Walk Statement := do
  advance
  let cond ← condition limit
  return .whileLoop first.position cond (← block)

def doWhile (first : Token) : Walk Statement := do
  advance
  let body ← block
  if ← startsWithKeyword .wish then
    advance
    let cond ← condition limit
    let _ ← expect .semicolon
    return .doWhile first.position body cond
  else
    complain .missingLoopCondition ((← current).map Token.line)
    return .doWhile first.position body none

def counting (first : Token) : Walk Statement := do
  advance
  let _ ← expect .lparen
  let init ← declaration limit
  let cond ← chain limit
  let _ ← expect .semicolon
  let step ← inside limit (stepRound limit)
  let _ ← expect .rparen
  return .counting first.position init cond (LoopStep.ofTokens? step) (← block)

def function (first : Token) : Walk Statement := do
  advance
  let name ← expect .identifier
  let _ ← expect .lparen
  let params ← inside limit parameterRound
  let _ ← expect .rparen
  return .function first.position ((name.map Token.lexeme).getD "") (parameterNames params) (← block)

/-- The statement that a token at the index begins. -/
def statementAt (first : Token) : Walk (Option Statement) := do
  match first.kind with
  | .lcurly => some <$> Statement.block first.position <$> block
  | .dataType => Option.map (Statement.declare first.position) <$> declaration limit
  | .identifier =>
    match (← following).map Token.kind with
    | some .assign => some <$> assignment limit first
    | some .lparen => some <$> call limit first false
    | _ => drop
  | .keyword =>
    match first.keyword? with
    | some .oye => some <$> conditional limit block first
    | some .naioye => do
      advance
      some <$> Statement.block first.position <$> block
    | some .brk => some <$> leave first
    | some .wish => some <$> whileLoop limit block first
    | some .last => some <$> doWhile limit block first
    | some .first => some <$> counting limit block first
    | some .ex => some <$> function limit block first
    | some .printO | some .enter | some .rat => some <$> call limit first true
    | some .chaloye | some .resume | some .stop | none => drop
  | _ => drop

/-- The statement at the index. -/
def statement : Walk (Option Statement) := do
  match ← current with
  | none => return none
  | some first => statementAt limit block first

/-- A statement, unless a block or the tokens end here. -/
def itemRound : Walk (Option (List Statement → List Statement)) :=
  whenNext (fun t => t.kind ≠ .rcurly) fun _ => do
    let s ← statement limit block
    return some (s.toList ++ ·)

/-- A statement, or a closing brace that closes nothing. -/
def programRound : Walk (Option (List Statement → List Statement)) :=
  whenNext (fun _ => true) fun t => do
    if t.kind = .rcurly then
      complain .unmatchedBrace t.line
      advance
      return some id
    else
      let s ← statement limit block
      return some (s.toList ++ ·)

end Compound

/-- Statements up to a closing brace or the end of the tokens, with blocks in blocks to a depth. -/
def items : Nat → Walk (List Statement)
  | 0 => failure
  | depth + 1 => loop (itemRound limit (braced (items depth))) (return []) limit

def program : Walk (List Statement) := loop (programRound limit (braced (items limit limit))) (return []) limit

end Limited

end Walk

end Dotlang
