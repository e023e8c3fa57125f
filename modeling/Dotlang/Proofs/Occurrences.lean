import Dotlang.Proofs.Nodes
import Dotlang.Proofs.Reader

/-!
# Where the parts of a tree stand in the source

Whatever is wrong with a token list, the tree that is read from it repeats pieces of it: a chain is read
from consecutive tokens, an assignment from a name, a `=.` and such a chain, and so on.

* `Statement.ReadIn tokens` : the parts of a statement that are its own stand in `tokens`;
* `readIn_of_mem_parse` : so it is for every statement of the tree of `tokens`.
-/

namespace Dotlang

variable {tokens : List Token}

/-! ## Pieces -/

def IdentifierIn (tokens : List Token) (name : String) : Prop :=
  ∃ t ∈ tokens, t.kind = .identifier ∧ t.lexeme = name

def Chain.ReadIn (tokens : List Token) (c : Chain) : Prop := ∃ ts, ts <:+: tokens ∧ (Chain.read ts).1 = some c

/-- A name, the sign of assignment and the value, without anything between them. -/
def AssignedIn (tokens : List Token) (name : String) (c : Chain) : Prop :=
  ∃ target eq ts, target :: eq :: ts <:+: tokens ∧ target.kind = .identifier ∧ target.lexeme = name ∧
    eq.kind = .assign ∧ (Chain.read ts).1 = some c

/-- A name, an arithmetic operator and its right operand, without anything between them. -/
def SteppedIn (tokens : List Token) (target : String) (op : Operator) (operand : Operand) : Prop :=
  ∃ a o b, [a, o, b] <:+: tokens ∧ a.kind = .identifier ∧ a.lexeme = target ∧
    Operator.ofLexeme? o.lexeme = some op ∧ op.isArithmetic = true ∧ b.kind.isOperand = true ∧
    b.operand = operand

def Declaration.ReadIn (tokens : List Token) (d : Declaration) : Prop :=
  IdentifierIn tokens d.name ∧ ∀ c, d.value = some c → AssignedIn tokens d.name c

def Argument.ReadIn (tokens : List Token) : Argument → Prop
  | value c => c.ReadIn tokens
  | type word => ∃ t ∈ tokens, t.kind = .dataType ∧ t.lexeme = word

def LoopStep.ReadIn (tokens : List Token) : LoopStep → Prop
  | assign target value => ∀ c, value = some c → AssignedIn tokens target c
  | compound target op operand => SteppedIn tokens target op operand

/-- The keywords that begin a call. -/
def Keyword.callable : List Keyword := [.printO, .enter, .rat]

def CalledIn (tokens : List Token) (name : String) (builtin : Bool) : Prop :=
  if builtin then ∃ k ∈ Keyword.callable, name = k.word else IdentifierIn tokens name

/-- The parts of a statement that belong to no statement inside it. -/
def Statement.ReadIn (tokens : List Token) : Statement → Prop
  | block .. | brk _ => True
  | declare _ d => d.ReadIn tokens
  | assign _ name value => ∀ c, value = some c → AssignedIn tokens name c
  | call _ name args builtin => CalledIn tokens name builtin ∧ ∀ a ∈ args, a.ReadIn tokens
  | function _ name _ _ => name = "" ∨ IdentifierIn tokens name
  | conditional _ cond _ alternatives => ∀ c ∈ cond.toList ++ alternatives.conds, c.ReadIn tokens
  | whileLoop _ cond _ | doWhile _ _ cond => ∀ c, cond = some c → c.ReadIn tokens
  | counting _ init cond step _ =>
    (∀ d, init = some d → d.ReadIn tokens) ∧ (∀ c, cond = some c → c.ReadIn tokens) ∧
      ∀ s, step = some s → s.ReadIn tokens

theorem Statement.ReadIn.of_mem_conds {s : Statement} (h : s.ReadIn tokens) {c : Chain} (hc : c ∈ s.conds) :
    c.ReadIn tokens := by
  cases s <;> simp only [Statement.conds, List.not_mem_nil, Option.mem_toList] at hc
  case conditional => exact h c hc
  case counting => exact h.2.1 c hc
  all_goals exact h c hc

def BodyReadIn (tokens : List Token) (body : List Statement) : Prop := ∀ s ∈ bodyNodes body, s.ReadIn tokens

theorem IdentifierIn.mono {ts : List Token} {name : String} (h : IdentifierIn ts name) (hts : ts <:+: tokens) :
    IdentifierIn tokens name := by
  obtain ⟨t, ht, h⟩ := h
  exact ⟨t, hts.subset ht, h⟩

theorem Chain.ReadIn.mono {ts : List Token} {c : Chain} (h : c.ReadIn ts) (hts : ts <:+: tokens) :
    c.ReadIn tokens := by
  obtain ⟨us, hus, h⟩ := h
  exact ⟨us, hus.trans hts, h⟩

theorem AssignedIn.mono {ts : List Token} {name : String} {c : Chain} (h : AssignedIn ts name c)
    (hts : ts <:+: tokens) : AssignedIn tokens name c := by
  obtain ⟨target, eq, us, hus, h⟩ := h
  exact ⟨target, eq, us, hus.trans hts, h⟩

theorem AssignedIn.readIn {name : String} {c : Chain} (h : AssignedIn tokens name c) : c.ReadIn tokens := by
  obtain ⟨target, eq, ts, hts, -, -, -, hc⟩ := h
  exact ⟨ts, ((List.suffix_cons eq ts).trans (List.suffix_cons target _)).isInfix.trans hts, hc⟩

theorem AssignedIn.target {name : String} {c : Chain} (h : AssignedIn tokens name c) :
    IdentifierIn tokens name := by
  obtain ⟨target, eq, ts, hts, hkind, hname, -⟩ := h
  exact ⟨target, hts.subset List.mem_cons_self, hkind, hname⟩

/-! ## Reading from a slice -/

theorem Argument.readIn_of_mem_readAll {fuel : Nat} {ts : List Token} (hts : ts <:+: tokens) {a : Argument}
    (h : a ∈ Argument.readAll fuel ts) : a.ReadIn tokens := by
  induction fuel generalizing ts with
  | zero => simp [Argument.readAll] at h
  | succ fuel ih =>
    cases ts with
    | nil => simp [Argument.readAll] at h
    | cons t ts =>
      -- what an argument leaves is a part of the slice, with or without the comma after it
      have hcomma : ∀ us, us <:+ t :: ts → a ∈ Argument.readAll fuel
          (if us.head?.any (fun t => t.kind = .comma) then us.tail else us) → a.ReadIn tokens := by
        intro us hus ha
        refine ih ?_ ha
        split
        · exact ((List.tail_suffix us).trans hus).isInfix.trans hts
        · exact hus.isInfix.trans hts
      simp only [Argument.readAll] at h
      split at h
      · rename_i hkind
        rcases List.mem_append.mp h with h | h
        · simp only [Option.toList_some, List.mem_singleton] at h
          subst h
          exact ⟨t, hts.subset List.mem_cons_self, hkind, rfl⟩
        · exact hcomma ts (List.suffix_cons t ts) h
      · rcases List.mem_append.mp h with h | h
        · obtain ⟨c, hc, rfl⟩ := Option.map_eq_some_iff.mp (Option.mem_toList.mp h)
          exact ⟨t :: ts, hts, hc⟩
        · exact hcomma _ (Chain.read_suffix _) h

theorem LoopStep.readIn_of_ofTokens? {ts : List Token} (hts : ts <:+: tokens) {s : LoopStep}
    (h : LoopStep.ofTokens? ts = some s) : s.ReadIn tokens := by
  match ts with
  | [] | [_] => simp [LoopStep.ofTokens?] at h
  | target :: op :: rest =>
    simp only [LoopStep.ofTokens?] at h
    split_ifs at h with hkind hassign
    · cases h
      exact fun c hc => ⟨target, op, rest, hts, hkind, rfl, hassign, hc⟩
    · split at h
      · rename_i a rhs rest hop
        split_ifs at h with hrhs
        cases h
        have hfront : [target, op, rhs] <:+: target :: op :: rhs :: rest := ⟨[], rest, rfl⟩
        exact ⟨target, op, rhs, hfront.trans hts, hkind, rfl, hop, rfl, hrhs, rfl⟩
      · simp at h

/-! ## Reading statements -/

namespace Read

theorem declaration_readIn : Gives tokens declaration fun o => ∀ d, o = some d → d.ReadIn tokens := by
  intro r hr
  have hsuffix : (exec (expect .dataType) r).2.rest <:+ tokens := (Gives.expect .dataType r hr).2
  simp only [declaration, exec_bind, exec_current]
  generalize (exec (expect .dataType) r).2 = r₁ at hsuffix
  obtain ⟨rest, opened, ds⟩ := r₁
  cases rest with
  | nil => exact ⟨fun d hd => by simp at hd, hsuffix⟩
  | cons name ts =>
    simp only [List.head?_cons, exec_ite]
    split_ifs with hname
    · have hidentifier : IdentifierIn tokens name.lexeme :=
        ⟨name, hsuffix.subset List.mem_cons_self, hname, rfl⟩
      have hts : ts <:+ tokens := (List.suffix_cons name ts).trans hsuffix
      -- the chain, if there is one, begins two tokens after the name
      cases ts with
      | nil => exact ⟨fun d hd => by cases hd; exact ⟨hidentifier, fun c hc => by simp at hc⟩, hts⟩
      | cons eq us =>
        have hus : us <:+ tokens := (List.suffix_cons eq us).trans hts
        by_cases heq : eq.kind = .assign
        · simp only [exec_bind, exec_advance, exec_startsWith, exec_chain, exec_pure, exec_expect_rest,
            List.tail_cons, List.head?_cons, Option.any_some, heq, decide_true, if_true]
          refine ⟨fun d hd => ?_, (List.tail_suffix _).trans ((Chain.read_suffix us).trans hus)⟩
          cases hd
          exact ⟨hidentifier, fun c hc => ⟨name, eq, us, hsuffix.isInfix, hname, rfl, heq, hc⟩⟩
        · simp only [exec_bind, exec_advance, exec_startsWith, exec_pure, exec_expect_rest,
            List.tail_cons, List.head?_cons, Option.any_some, heq, decide_false, Bool.false_eq_true, if_false]
          refine ⟨fun d hd => ?_, (List.tail_suffix _).trans hts⟩
          cases hd
          exact ⟨hidentifier, fun c hc => by simp at hc⟩
    · exact ⟨fun d hd => by simp at hd, hsuffix⟩

theorem assignment_readIn {name eq : Token} {ts : List Token} (opened : List Nat) (ds : List Diagnostic)
    (hname : name.kind = .identifier) (heq : eq.kind = .assign) (h : name :: eq :: ts <:+ tokens) :
    (exec (assignment name) ⟨name :: eq :: ts, opened, ds⟩).1.ReadIn tokens ∧
      (exec (assignment name) ⟨name :: eq :: ts, opened, ds⟩).2.rest <:+ tokens := by
  have hts : ts <:+ tokens := ((List.suffix_cons eq ts).trans (List.suffix_cons name _)).trans h
  simp only [assignment, exec_bind, exec_expect_cons, hname, heq, if_true, exec_chain, exec_pure,
    exec_expect_rest]
  refine ⟨fun c hc => ?_, (List.tail_suffix _).trans ((Chain.read_suffix ts).trans hts)⟩
  exact ⟨name, eq, ts, h.isInfix, hname, rfl, heq, hc⟩

theorem call_readIn {first : Token} {builtin : Bool} (h : CalledIn tokens first.lexeme builtin) :
    Gives tokens (call first builtin) fun s => s.ReadIn tokens ∧ bodyNodes [s] = [s] := by
  refine Gives.advance.bind fun _ _ => (Gives.expect _).bind fun _ _ => Gives.untilParen.bind fun inside hin => ?_
  refine (Gives.expect _).bind fun _ _ => (Gives.expect _).bind fun _ _ => Gives.pure ⟨⟨h, fun a ha => ?_⟩, rfl⟩
  exact Argument.readIn_of_mem_readAll hin ha

theorem condition_readIn : Gives tokens condition fun o => ∀ c, o = some c → c.ReadIn tokens := by
  refine (Gives.expect _).bind fun _ _ => Gives.chain.bind fun cond hcond => ?_
  refine (Gives.expect _).bind fun _ _ => Gives.pure fun c hc => ?_
  obtain ⟨ts, hts, h⟩ := hcond c hc
  exact ⟨ts, hts.isInfix, h⟩

theorem braced_readIn {items : Read (List Statement)} (h : Gives tokens items (BodyReadIn tokens)) :
    Gives tokens (braced items) (BodyReadIn tokens) := by
  refine Gives.openBlock.bind fun _ _ => (Gives.expect _).bind fun _ _ => h.bind fun body hbody => ?_
  exact Gives.closeBlock.bind fun _ _ => Gives.pure hbody

theorem drop_readIn {Q : Option Statement → Prop} (h : Q none) : Gives tokens drop Q :=
  Gives.advance.bind fun _ _ => Gives.pure h

theorem leave_readIn (first : Token) : Gives tokens (leave first) fun s => BodyReadIn tokens [s] := by
  refine Gives.advance.bind fun _ _ => (Gives.expect _).bind fun _ _ => Gives.pure fun s hs => ?_
  rw [bodyNodes, bodyNodes, List.append_nil, Statement.nodes, List.mem_singleton] at hs
  subst hs
  trivial

section Compound

variable {block : Read (List Statement)} (hblock : Gives tokens block (BodyReadIn tokens))
include hblock

theorem alternatives_readIn (fuel : Nat) :
    Gives tokens (alternatives block fuel) fun a =>
      (∀ c ∈ a.conds, c.ReadIn tokens) ∧ ∀ s ∈ a.nodes, s.ReadIn tokens := by
  induction fuel with
  | zero => exact Gives.pure (by simp [Alternatives.conds, Alternatives.nodes])
  | succ fuel ih =>
    refine (Gives.startsWithKeyword _).bind fun _ _ => Gives.ite (fun _ => ?_) fun _ => ?_
    · refine Gives.advance.bind fun _ _ => condition_readIn.bind fun cond hcond => hblock.bind fun body hbody => ?_
      refine ih.bind fun rest hrest => Gives.pure ⟨fun c hc => ?_, fun s hs => ?_⟩
      · rcases List.mem_append.mp hc with hc | hc
        · exact hcond c (Option.mem_toList.mp hc)
        · exact hrest.1 c hc
      · rcases List.mem_append.mp hs with hs | hs
        · exact hbody s hs
        · exact hrest.2 s hs
    · refine (Gives.startsWithKeyword _).bind fun _ _ => Gives.ite (fun _ => ?_) fun _ => ?_
      · refine Gives.advance.bind fun _ _ => hblock.bind fun body hbody => Gives.pure ⟨?_, hbody⟩
        simp [Alternatives.conds]
      · exact Gives.pure (by simp [Alternatives.conds, Alternatives.nodes])

theorem conditional_readIn (first : Token) :
    Gives tokens (conditional block first) fun s => BodyReadIn tokens [s] := by
  refine Gives.advance.bind fun _ _ => condition_readIn.bind fun cond hcond => hblock.bind fun body hbody => ?_
  refine (Gives.get (Q := fun _ => True) fun _ _ => trivial).bind fun _ _ => ?_
  refine (alternatives_readIn hblock _).bind fun alternatives halternatives => Gives.pure fun s hs => ?_
  rw [bodyNodes, bodyNodes, List.append_nil, Statement.nodes] at hs
  rcases List.mem_cons.mp hs with rfl | hs
  · refine fun c hc => (List.mem_append.mp hc).elim (fun hc => ?_) (halternatives.1 c)
    exact hcond c (Option.mem_toList.mp hc)
  · exact (List.mem_append.mp hs).elim (hbody s) (halternatives.2 s)

theorem whileLoop_readIn (first : Token) : Gives tokens (whileLoop block first) fun s => BodyReadIn tokens [s] := by
  refine Gives.advance.bind fun _ _ => condition_readIn.bind fun cond hcond => hblock.bind fun body hbody => ?_
  refine Gives.pure fun s hs => ?_
  rw [bodyNodes, bodyNodes, List.append_nil, Statement.nodes] at hs
  rcases List.mem_cons.mp hs with rfl | hs
  · exact hcond
  · exact hbody s hs

theorem doWhile_readIn (first : Token) : Gives tokens (doWhile block first) fun s => BodyReadIn tokens [s] := by
  have hnodes : ∀ body cond, BodyReadIn tokens body → (∀ c, cond = some c → Chain.ReadIn tokens c) →
      BodyReadIn tokens [.doWhile first.position body cond] := by
    intro body cond hbody hcond s hs
    rw [bodyNodes, bodyNodes, List.append_nil, Statement.nodes] at hs
    rcases List.mem_cons.mp hs with rfl | hs
    · exact hcond
    · exact hbody s hs
  refine Gives.advance.bind fun _ _ => hblock.bind fun body hbody => ?_
  refine (Gives.startsWithKeyword _).bind fun _ _ => Gives.ite (fun _ => ?_) fun _ => ?_
  · refine Gives.advance.bind fun _ _ => condition_readIn.bind fun cond hcond => (Gives.expect _).bind fun _ _ => ?_
    exact Gives.pure (hnodes body cond hbody hcond)
  · refine Gives.current.bind fun _ _ => (Gives.complain _ _).bind fun _ _ => ?_
    exact Gives.pure (hnodes body none hbody (by simp))

theorem counting_readIn (first : Token) : Gives tokens (counting block first) fun s => BodyReadIn tokens [s] := by
  refine Gives.advance.bind fun _ _ => (Gives.expect _).bind fun _ _ => declaration_readIn.bind fun init hinit => ?_
  refine Gives.chain.bind fun cond hcond => (Gives.expect _).bind fun _ _ => ?_
  refine Gives.untilParen.bind fun inside hinside => (Gives.expect _).bind fun _ _ => ?_
  refine hblock.bind fun body hbody => Gives.pure fun s hs => ?_
  rw [bodyNodes, bodyNodes, List.append_nil, Statement.nodes] at hs
  rcases List.mem_cons.mp hs with rfl | hs
  · refine ⟨hinit, fun c hc => ?_, fun step hstep => LoopStep.readIn_of_ofTokens? hinside hstep⟩
    obtain ⟨ts, hts, h⟩ := hcond c hc
    exact ⟨ts, hts.isInfix, h⟩
  · exact hbody s hs

theorem function_readIn (first : Token) : Gives tokens (function block first) fun s => BodyReadIn tokens [s] := by
  refine Gives.advance.bind fun _ _ => (Gives.expect _).bind fun name hname => (Gives.expect _).bind fun _ _ => ?_
  refine Gives.untilParen.bind fun _ _ => (Gives.expect _).bind fun _ _ => hblock.bind fun body hbody => ?_
  refine Gives.pure fun s hs => ?_
  rw [bodyNodes, bodyNodes, List.append_nil, Statement.nodes] at hs
  rcases List.mem_cons.mp hs with rfl | hs
  · cases name with
    | none => exact Or.inl rfl
    | some t => exact Or.inr ⟨t, (hname t rfl).1, (hname t rfl).2, rfl⟩
  · exact hbody s hs

theorem block_readIn (pos : Position) :
    Gives tokens (some <$> Statement.block pos <$> block) fun o => BodyReadIn tokens o.toList := by
  refine Gives.map (Gives.map (hblock.weaken fun body hbody s hs => ?_))
  rw [Option.toList_some, bodyNodes, bodyNodes, List.append_nil, Statement.nodes] at hs
  rcases List.mem_cons.mp hs with rfl | hs
  · trivial
  · exact hbody s hs

/-- The statement that the next token begins. -/
theorem statement_readIn {first : Token} {ts : List Token} (opened : List Nat) (ds : List Diagnostic)
    (h : first :: ts <:+ tokens) :
    BodyReadIn tokens (exec (statement block first) ⟨first :: ts, opened, ds⟩).1.toList ∧
      (exec (statement block first) ⟨first :: ts, opened, ds⟩).2.rest <:+ tokens := by
  have run : ∀ m : Read (Option Statement), Gives tokens m (fun o => BodyReadIn tokens o.toList) →
      BodyReadIn tokens (exec m ⟨first :: ts, opened, ds⟩).1.toList ∧
        (exec m ⟨first :: ts, opened, ds⟩).2.rest <:+ tokens := fun m hm => hm _ h
  have hnone : BodyReadIn tokens (none : Option Statement).toList := fun s hs => by simp [bodyNodes] at hs
  -- the word of a keyword that begins a call
  have hcall : ∀ k ∈ Keyword.callable, first.keyword? = some k → CalledIn tokens first.lexeme true := by
    intro k hk hword
    have hof : Keyword.ofWord? first.lexeme = some k := by
      unfold Token.keyword? at hword
      split_ifs at hword
      exact hword
    exact ⟨k, hk, (by simpa using List.find?_some hof : k.word = first.lexeme).symm⟩
  unfold statement
  split
  · exact run _ (block_readIn hblock _)
  · refine run _ (Gives.map (declaration_readIn.weaken fun o ho => ?_))
    cases o with
    | none => exact hnone
    | some d =>
      intro s hs
      rw [Option.map_some, Option.toList_some, bodyNodes, bodyNodes, List.append_nil, Statement.nodes,
        List.mem_singleton] at hs
      subst hs
      exact ho d rfl
  · rename_i hfirst
    rw [exec_bind, exec_get]
    simp only [List.tail_cons]
    split
    · rename_i hnext
      obtain ⟨eq, us, rfl⟩ : ∃ eq us, ts = eq :: us := by
        cases ts with
        | nil => simp at hnext
        | cons eq us => exact ⟨eq, us, rfl⟩
      have heq : eq.kind = .assign := by simpa using hnext
      obtain ⟨hs, hrest⟩ := assignment_readIn opened ds hfirst heq h
      refine ⟨fun s hs' => ?_, hrest⟩
      have hnodes : bodyNodes [(exec (assignment first) ⟨first :: eq :: us, opened, ds⟩).1] =
          [(exec (assignment first) ⟨first :: eq :: us, opened, ds⟩).1] := rfl
      rw [exec_map, Option.toList_some, hnodes, List.mem_singleton] at hs'
      rw [hs']
      exact hs
    · have hname : CalledIn tokens first.lexeme false := ⟨first, h.subset List.mem_cons_self, hfirst, rfl⟩
      refine run _ (Gives.map ((call_readIn hname).weaken fun s hs => ?_))
      rw [Option.toList_some, BodyReadIn, hs.2]
      exact fun s' hs' => List.mem_singleton.mp hs' ▸ hs.1
    · exact run _ (drop_readIn hnone)
  · have hbuiltin : ∀ k ∈ Keyword.callable, first.keyword? = some k →
        Gives tokens (some <$> call first true) fun o => BodyReadIn tokens o.toList := by
      intro k hk hword
      refine Gives.map ((call_readIn (hcall k hk hword)).weaken fun s hs => ?_)
      rw [Option.toList_some, BodyReadIn, hs.2]
      exact fun s' hs' => List.mem_singleton.mp hs' ▸ hs.1
    split
    · exact run _ (Gives.map (conditional_readIn hblock first))
    · exact run _ (Gives.advance.bind fun _ _ => block_readIn hblock _)
    · exact run _ (Gives.map (leave_readIn first))
    · exact run _ (Gives.map (whileLoop_readIn hblock first))
    · exact run _ (Gives.map (doWhile_readIn hblock first))
    · exact run _ (Gives.map (counting_readIn hblock first))
    · exact run _ (Gives.map (function_readIn hblock first))
    · exact run _ (hbuiltin .printO (by decide) ‹_›)
    · exact run _ (hbuiltin .enter (by decide) ‹_›)
    · exact run _ (hbuiltin .rat (by decide) ‹_›)
    all_goals exact run _ (drop_readIn hnone)
  · exact run _ (drop_readIn hnone)

end Compound

/-! ## Reading programs -/

theorem items_readIn (fuel : Nat) : Gives tokens (items fuel) (BodyReadIn tokens) := by
  have hnil : BodyReadIn tokens [] := fun s hs => by simp [bodyNodes] at hs
  induction fuel with
  | zero => exact Gives.pure hnil
  | succ fuel ih =>
    rintro ⟨rest, opened, ds⟩ hr
    rw [items, exec_bind, exec_current]
    cases rest with
    | nil => exact ⟨hnil, hr⟩
    | cons t ts =>
      simp only [List.head?_cons, exec_ite]
      split_ifs with hclose
      · exact ⟨hnil, hr⟩
      · obtain ⟨hs, hrest⟩ := statement_readIn (braced_readIn ih) opened ds hr
        rw [exec_bind]
        obtain ⟨hss, hrest⟩ := ih _ hrest
        refine ⟨fun s hmem => ?_, hrest⟩
        rw [exec_bind, exec_pure, bodyNodes_append] at hmem
        exact (List.mem_append.mp hmem).elim (hs s) (hss s)

theorem program_readIn (fuel : Nat) : Gives tokens (program fuel) (BodyReadIn tokens) := by
  induction fuel with
  | zero => exact Gives.pure fun s hs => by simp [bodyNodes] at hs
  | succ fuel ih =>
    refine (items_readIn (fuel + 1)).bind fun body hbody => Gives.current.bind fun o _ => ?_
    cases o with
    | none => exact Gives.pure hbody
    | some t =>
      refine (Gives.complain _ _).bind fun _ _ => Gives.advance.bind fun _ _ => ih.bind fun more hmore => ?_
      refine Gives.pure fun s hs => ?_
      rw [bodyNodes_append] at hs
      exact (List.mem_append.mp hs).elim (hbody s) (hmore s)

end Read

/-- **Every statement of a tree is spelled out in the tokens that the tree was read from.** -/
theorem readIn_of_mem_parse (tokens : List Token) {s : Statement} (h : s ∈ bodyNodes (parse tokens).body) :
    s.ReadIn tokens :=
  (Read.program_readIn tokens.length ⟨tokens, [], []⟩ (List.suffix_refl tokens)).1 s h

end Dotlang
