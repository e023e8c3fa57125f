import Dotlang.Proofs.Parentheses

/-!
# Statements by index

* `Walk.follows_braced` : a block, given the statements in it. However it ends, it leaves no more blocks open than there were;
* `Walk.follows_alternatives` : the branches of a conditional;
* `Walk.follows_statementAt` : a statement does what the action on lists does, and takes at least one token.
-/

namespace Dotlang

/-! ## The end of a conditional -/

namespace Read

/-- `naioye block` or nothing. -/
def lastBranch (block : Read (List Statement)) : Read Alternatives := do
  if ← startsWithKeyword .naioye then
    advance
    return .otherwise (← block)
  else return .done

theorem exec_alternatives_last {block : Read (List Statement)} {n : Nat} {r : Reader} (hn : r.rest.length ≤ n)
    (h : ¬ (r.rest.head?.any fun t => t.keyword? = some .chaloye) = true) :
    exec (lastBranch block) r = exec (alternatives block n) r := by
  cases n with
  | zero =>
    have hrest : r.rest = [] := List.length_eq_zero_iff.mp (Nat.le_zero.mp hn)
    rw [lastBranch, exec_bind, exec_startsWithKeyword, hrest]
    rfl
  | succ n => rw [alternatives, exec_bind, exec_startsWithKeyword, if_neg h, lastBranch]

end Read

namespace Walk

variable {α β γ : Type} {tokens : List Token} {bound gain limit : Nat}

/-! ## Statements without blocks -/

theorem follows_declaration (hlimit : bound < limit) :
    Follows tokens bound 1 (declaration limit) Read.declaration := by
  refine .look .current fun next => .bind (.expect .dataType) fun _ => .bind .current fun name => ?_
  cases name with
  | none => exact .pure none
  | some t =>
    have hend : ∀ value, Follows tokens bound 0
        (do
          let _ ← expect .semicolon
          return some (⟨next.bind Token.dataType?, t.lexeme, value⟩ : Declaration))
        (do
          let _ ← Read.expect .semicolon
          return some ⟨next.bind Token.dataType?, t.lexeme, value⟩) :=
      fun _ => .bind (.any (.expect .semicolon)) fun _ => .pure _
    refine .ite (.bind (.any .advance) fun _ => .bind (.startsWith .assign) fun _ => .ite ?_ ?_) (.pure none)
    · exact .bind (.any .advance) fun _ => .bind (follows_chain hlimit) hend
    · exact .bind (.pure none) hend

theorem follows_assignment (hlimit : bound < limit) (first : Token) :
    Follows tokens bound 1 (assignment limit first) (Read.assignment first) :=
  .bind (.expect .identifier) fun _ => .bind (.any (.expect .assign)) fun _ => .bind (follows_chain hlimit) fun _ =>
    .bind (.any (.expect .semicolon)) fun _ => .pure _

theorem follows_call (hlimit : bound < limit) (first : Token) (builtin : Bool) :
    Follows tokens bound 1 (call limit first builtin) (Read.call first builtin) :=
  .bind .advance fun _ => .bind (.any (.expect .lparen)) fun _ =>
    .bind (β := Statement) (g := fun args => do
        let _ ← Read.expect .rparen
        let _ ← Read.expect .semicolon
        return .call first.position first.lexeme args builtin) (follows_arguments hlimit) fun _ =>
      .bind (.any (.expect .rparen)) fun _ => .bind (.any (.expect .semicolon)) fun _ => .pure _

theorem follows_condition (hlimit : bound < limit) : Follows tokens bound 0 (condition limit) Read.condition :=
  .bind (.any (.expect .lparen)) fun _ => .bind (follows_chain hlimit) fun _ =>
    .bind (.any (.expect .rparen)) fun _ => .pure _

theorem follows_leave (first : Token) : Follows tokens bound 1 (leave first) (Read.leave first) :=
  .bind .advance fun _ => .bind (.any (.expect .semicolon)) fun _ => .pure _

theorem follows_drop : Follows tokens bound 1 drop Read.drop := .bind .advance fun _ => .pure none

/-! ## Blocks -/

theorem exec_openBlock (c : Cursor) :
    exec openBlock tokens c =
      some ((), { c with opened := ((c.reader tokens).rest.head?.map Token.line).toList ++ c.opened }) := by
  rw [openBlock, exec_bind, exec_current]
  rfl

/-- At the end of the tokens too, a block that is closed is open no more. -/
theorem exec_closeBlock (tokens : List Token) (c : Cursor) :
    ∃ c', exec closeBlock tokens c = some ((), c') ∧ c'.reader tokens = (Read.exec Read.closeBlock (c.reader tokens)).2 ∧
      c.index ≤ c'.index ∧ c'.opened = c.opened.tail := by
  obtain ⟨index, opened, ds⟩ := c
  rw [closeBlock, exec_bind, exec_current, Option.bind_some]
  cases hrest : tokens.drop index with
  | nil =>
    cases opened with
    | nil =>
      rw [Cursor.reader, hrest]
      exact ⟨⟨index, [], ds⟩, rfl, by rw [Cursor.reader, hrest]; rfl, le_refl _, rfl⟩
    | cons line outer =>
      rw [Cursor.reader, hrest]
      exact ⟨⟨index, outer, ds ++ [⟨.missingBrace, some line⟩]⟩, rfl, by rw [Cursor.reader, hrest]; rfl, le_refl _, rfl⟩
  | cons t ts =>
    rw [Cursor.reader, hrest]
    refine ⟨⟨index + 1, opened.tail, ds⟩, rfl, ?_, Nat.le_succ _, rfl⟩
    rw [Cursor.reader, ← List.tail_drop, hrest]
    rfl

/-- A block takes at least the token that it begins with. -/
theorem follows_braced {w : Walk (List Statement)} {m : Read (List Statement)} (h : Follows tokens bound 0 w m) :
    Follows tokens (bound + 1) 1 (braced w) (Read.braced m) := by
  intro c hc
  have hbody : Follows tokens (bound + 1) 1
      (do
        let _ ← expect .lcurly
        w)
      (do
        let _ ← Read.expect .lcurly
        m) := .step (.expect .lcurly) fun _ => h
  obtain ⟨c₁, h₁⟩ := hbody { c with opened := ((c.reader tokens).rest.head?.map Token.line).toList ++ c.opened } hc
  obtain ⟨c₂, hwalks, hreads, hgains, hopened⟩ := exec_closeBlock tokens c₁
  refine ⟨c₂, ?_, ?_, h₁.gains.trans hgains, ?_⟩
  · rw [braced, exec_bind, exec_openBlock, Option.bind_some]
    calc exec (do
            let _ ← expect .lcurly
            let body ← w
            closeBlock
            return body) tokens _
        = (exec (do
            let _ ← expect .lcurly
            w) tokens _).bind fun r => (exec closeBlock tokens r.2).bind fun s => some (r.1, s.2) :=
          (Option.bind_assoc _ _ _).symm
      _ = _ := by
        rw [h₁.walks, Option.bind_some, hwalks]
        rfl
  · rw [hreads, h₁.reads]
    rfl
  · have hcloses := h₁.closes
    have hline : ((c.reader tokens).rest.head?.map Token.line).toList.length ≤ 1 := Option.length_toList_le
    rw [List.length_append] at hcloses
    rw [hopened, List.length_tail]
    omega

/-! ## Statements with blocks -/

section Compound

variable {block : Walk (List Statement)} {rblock : Read (List Statement)}

theorem follows_lastBranch (hblock : Follows tokens bound 0 block rblock) :
    Follows tokens bound 0 (lastBranch block) (Read.lastBranch rblock) :=
  .bind (.startsWithKeyword .naioye) fun _ =>
    .ite (.bind (.any .advance) fun _ => .bind hblock fun _ => .pure _) (.pure _)

theorem round_branch (hlimit : bound < limit) (hblock : Follows tokens bound 0 block rblock) (c : Cursor)
    (m : Read Alternatives) (hm : Remains tokens bound (Read.alternatives rblock) c m) :
    Round tokens (branchRound limit block) (lastBranch block) (Remains tokens bound (Read.alternatives rblock)) c m := by
  refine Round.fuelled (fun _ _ => do
      Read.advance
      let cond ← Read.condition
      let body ← rblock
      return some (.branch cond body)) hm (fun n hn hneg => ?_) (fun _ _ _ _ _ => ?_) fun t ts n hr ht => ⟨_, rfl, ?_⟩
  · refine (follows_lastBranch hblock c hm.1).congr (Read.exec_alternatives_last ((c.length_rest tokens).le.trans hn) ?_)
    rw [Option.any_eq_true]
    rintro ⟨t, ht, hword⟩
    rw [hneg t ht] at hword
    cases hword
  · exact Follows.bind .advance (fun _ => .bind (follows_condition hlimit) fun _ => .bind hblock fun _ => .pure _) c hm.1
  · rw [hr, Read.alternatives, Read.exec_bind, Read.exec_startsWithKeyword]
    dsimp only
    rw [List.head?_cons, Option.any_some, if_pos ht]
    rfl

/-- Branches, one after the other, and what comes behind the last. -/
theorem follows_alternatives (hlimit : bound < limit) (hblock : Follows tokens bound 0 block rblock) :
    Follows tokens bound 0 (loop (branchRound limit block) (lastBranch block) limit) (do
      Read.alternatives rblock ((← get).rest.length)) := by
  intro c hc
  refine (reaches_loop (round_branch hlimit hblock) (.start hc) (hc.trans_lt hlimit)).congr ?_
  rw [Read.exec_bind, Read.exec_get, c.length_rest tokens]

section Inside

variable (hlimit : bound < limit) (hblock : Follows tokens (bound + 1) 1 block rblock) (first : Token)

include hlimit hblock

theorem follows_conditional :
    Follows tokens (bound + 1) 1 (conditional limit block first) (Read.conditional rblock first) := by
  have hinside := (hblock.mono (Nat.le_succ bound)).any
  refine .step .advance fun _ => .bind (follows_condition hlimit) fun cond => .bind hinside fun body => ?_
  exact .bind (β := Statement) (g := fun others => return .conditional first.position cond body others)
    (follows_alternatives hlimit hinside) fun _ => .pure _

theorem follows_whileLoop :
    Follows tokens (bound + 1) 1 (whileLoop limit block first) (Read.whileLoop rblock first) :=
  .step .advance fun _ => .bind (follows_condition hlimit) fun _ => .bind (hblock.mono (Nat.le_succ bound)).any fun _ =>
    .pure _

theorem follows_doWhile : Follows tokens (bound + 1) 1 (doWhile limit block first) (Read.doWhile rblock first) := by
  refine .step .advance fun _ => .bind (hblock.mono (Nat.le_succ bound)).any fun body =>
    .bind (.startsWithKeyword .wish) fun _ => .ite ?_ ?_
  · exact .bind (.any .advance) fun _ => .bind (follows_condition hlimit) fun _ =>
      .bind (.any (.expect .semicolon)) fun _ => .pure _
  · exact .bind .current fun _ => .bind (.complain _ _) fun _ => .pure _

theorem follows_counting : Follows tokens (bound + 1) 1 (counting limit block first) (Read.counting rblock first) :=
  .step .advance fun _ => .bind (.any (.expect .lparen)) fun _ => .bind (.any (follows_declaration hlimit)) fun _ =>
    .bind (follows_chain hlimit) fun _ => .bind (.any (.expect .semicolon)) fun _ =>
      .bind (follows_inside hlimit (round_step hlimit)) fun _ => .bind (.any (.expect .rparen)) fun _ =>
        .bind (hblock.mono (Nat.le_succ bound)).any fun _ => .pure _

theorem follows_function : Follows tokens (bound + 1) 1 (function limit block first) (Read.function rblock first) :=
  .step .advance fun _ => .bind (.any (.expect .identifier)) fun _ => .bind (.any (.expect .lparen)) fun _ =>
    .bind (follows_inside hlimit round_parameter) fun _ => .bind (.any (.expect .rparen)) fun _ =>
      .bind (hblock.mono (Nat.le_succ bound)).any fun _ => .pure _

end Inside

/-- **A statement takes at least one token**, whichever token begins it, if a block does. -/
theorem follows_statementAt (hlimit : bound + 1 < limit) (hblock : Follows tokens (bound + 1) 1 block rblock)
    (first : Token) : Follows tokens (bound + 1) 1 (statementAt limit block first) (Read.statement rblock first) := by
  have hless : bound < limit := (Nat.lt_succ_self bound).trans hlimit
  unfold statementAt Read.statement
  cases first.kind with
  | lcurly => exact .map _ (.map _ hblock)
  | dataType => exact .map _ (follows_declaration hlimit)
  | identifier =>
    refine .following_bind fun r => ?_
    generalize r.rest.tail.head?.map Token.kind = kind
    rcases kind with _ | kind
    · exact follows_drop
    cases kind with
    | assign => exact .map _ (follows_assignment hlimit first)
    | lparen => exact .map _ (follows_call hlimit first false)
    | _ => exact follows_drop
  | keyword =>
    rcases first.keyword? with _ | word
    · exact follows_drop
    cases word with
    | oye => exact .map _ (follows_conditional hless hblock first)
    | naioye => exact .step .advance fun _ => .map _ (.map _ (hblock.mono (Nat.le_succ bound)).any)
    | brk => exact .map _ (follows_leave first)
    | wish => exact .map _ (follows_whileLoop hless hblock first)
    | last => exact .map _ (follows_doWhile hless hblock first)
    | first => exact .map _ (follows_counting hless hblock first)
    | ex => exact .map _ (follows_function hless hblock first)
    | printO | enter | rat => exact .map _ (follows_call hlimit first true)
    | chaloye | resume | stop => exact follows_drop
  | _ => exact follows_drop

theorem reaches_statement {c : Cursor} {first : Token} (hlimit : c.left tokens < limit)
    (hblock : Follows tokens (c.left tokens) 1 block rblock) (hfirst : (c.reader tokens).rest.head? = some first) :
    Reaches tokens 1 (statement limit block) (Read.statement rblock first) c := by
  have hleft := c.length_rest tokens
  obtain ⟨ts, hrest⟩ := List.head?_eq_some_iff.mp hfirst
  rw [hrest, List.length_cons] at hleft
  rw [← hleft] at hlimit hblock
  obtain ⟨c', h⟩ := follows_statementAt hlimit hblock first c hleft.ge
  refine ⟨c', ?_, h.reads, h.gains, h.closes⟩
  rw [statement, exec_bind, exec_current, hfirst, Option.bind_some]
  exact h.walks

end Compound

end Walk

end Dotlang
