import Dotlang.Proofs.Accumulation
import Dotlang.ThreeAddress.Emitter

/-!
# A reading of three-address code

What three-address code means, without a machine that it is written for. Operands are names and literals, as they are
to the machine, and operators count as the accumulator operations do. Functions have no reading: a `ret` ends the
program, and a call that does not print finds nothing to call.

* `State`, `step`, `run` : the interpreter. A run has no result if it takes more steps than it may;
* `Steps code n s t` : `n` steps lead from `s` to `t`;
* `Between n N`, `Apart n N w` : the temporaries from one number to another, and the operands that read none of them;
* `alike_reduce`, `alike_reduceInPlace`, `alike_reduceAll` : what the code of chains, conditions and arguments computes;
* `Ran`, `ran_of_split` : such code is executed one instruction after the other.
-/

namespace Dotlang.ThreeAddress

open Store (EqOff)

/-- The next instruction, the values compared last, the values passed and not taken yet, the latest first, the
variables, and the printed lines, the latest first. -/
structure State where
  pc : Nat
  compared : Value × Value
  passed : List Value
  store : Store
  printed : List String
  deriving DecidableEq

def State.initial : State := ⟨0, default, [], .empty, []⟩

inductive Outcome where
  | next (s : State)
  | halt
  | fault (f : Fault)
  deriving DecidableEq

/-- Goes on at a label. -/
def goto (code : List Quad) (s : State) (name : String) : Outcome :=
  match code.findIdx? (· = .label name) with
  | some pc => .next { s with pc }
  | none => .fault (.unresolvedLabel name)

/-- Executes an instruction in a state that is past it. -/
def execute (code : List Quad) (s : State) : Quad → Outcome
  | .assign source result => .next { s with store := s.store.set result (s.store.resolve source) }
  | .binary op left right result =>
    match (s.store.resolve left).apply op.accumulator (s.store.resolve right) with
    | .ok v => .next { s with store := s.store.set result v }
    | .error f => .fault f
  | .label _ => .next s
  | .goto name => goto code s name
  | .compare left right => .next { s with compared := (s.store.resolve left, s.store.resolve right) }
  | .jumpIf relation name => if relation.holds s.compared.1 s.compared.2 then goto code s name else .next s
  | .param value => .next { s with passed := s.store.resolve value :: s.passed }
  | .call name count =>
    if Machine.printNames.contains name then
      let line := String.intercalate " " ((s.passed.take count).reverse.map Value.display)
      .next { s with passed := s.passed.drop count, printed := line :: s.printed }
    else .fault (.unresolvedLabel name)
  | .ret => .halt

def step (code : List Quad) (s : State) : Outcome :=
  match code[s.pc]? with
  | some q => execute code { s with pc := s.pc + 1 } q
  | none => .halt

/-- The printed lines and the result, unless there are more steps to take than `fuel`. -/
def runFrom (code : List Quad) : Nat → State → Option (List String × Except Fault Unit)
  | 0, _ => none
  | fuel + 1, s =>
    match step code s with
    | .next t => runFrom code fuel t
    | .halt => some (s.printed.reverse, .ok ())
    | .fault f => some (s.printed.reverse, .error f)

def run (code : List Quad) (fuel : Nat) : Option (List String × Except Fault Unit) := runFrom code fuel .initial

/-! ## Steps -/

variable {code : List Quad} {m n : Nat} {s t u : State}

inductive Steps (code : List Quad) : Nat → State → State → Prop where
  | refl (s : State) : Steps code 0 s s
  | step {n : Nat} {s t u : State} : step code s = .next t → Steps code n t u → Steps code (n + 1) s u

namespace Steps

theorem one (h : ThreeAddress.step code s = .next t) : Steps code 1 s t := .step h (.refl t)

theorem trans (h : Steps code m s t) (h' : Steps code n t u) : Steps code (m + n) s u := by
  induction h with
  | refl s => rwa [Nat.zero_add]
  | step hstep _ ih =>
    rw [Nat.add_right_comm]
    exact .step hstep (ih h')

theorem runFrom_eq (h : Steps code n s t) (fuel : Nat) : runFrom code (fuel + n) s = runFrom code fuel t := by
  induction h with
  | refl s => rfl
  | step hstep _ ih =>
    rw [← Nat.add_assoc, runFrom, hstep]
    exact ih

/-- A run that goes on for at least as many steps as it may take has no result. -/
theorem runFrom_eq_none (h : Steps code n s t) {fuel : Nat} (hle : fuel ≤ n) : runFrom code fuel s = none := by
  induction h generalizing fuel with
  | refl s =>
    obtain rfl := Nat.le_zero.mp hle
    rfl
  | step hstep _ ih =>
    cases fuel with
    | zero => rfl
    | succ fuel =>
      rw [runFrom, hstep]
      exact ih (Nat.le_of_succ_le_succ hle)

end Steps

/-- Whether a run ends at `s`, and how. -/
def EndsWith (code : List Quad) (s : State) : Except Fault Unit → Prop
  | .ok _ => step code s = .halt
  | .error f => step code s = .fault f

theorem runFrom_of_endsWith {result : Except Fault Unit} (h : EndsWith code s result) (fuel : Nat) :
    runFrom code (fuel + 1) s = some (s.printed.reverse, result) := by
  rw [runFrom]
  cases result with
  | ok u => rw [show step code s = .halt from h]
  | error f => rw [show step code s = .fault f from h]

/-- A run that has a result has it with more steps as well. -/
theorem runFrom_mono {outcome : List String × Except Fault Unit} (h : runFrom code m s = some outcome) (hle : m ≤ n) :
    runFrom code n s = some outcome := by
  induction m generalizing n s with
  | zero => cases h
  | succ m ih =>
    obtain ⟨n, rfl⟩ := Nat.exists_eq_add_one.mpr (Nat.lt_of_lt_of_le (Nat.succ_pos m) hle)
    rw [runFrom] at h ⊢
    cases hstep : step code s with
    | next t =>
      rw [hstep] at h
      exact ih h (Nat.le_of_succ_le_succ hle)
    | _ =>
      rw [hstep] at h
      exact h

theorem run_unique {x y : List String × Except Fault Unit} (hx : run code m = some x) (hy : run code n = some y) :
    x = y := by
  have hmax := runFrom_mono hx (Nat.le_max_left m n)
  rw [runFrom_mono hy (Nat.le_max_right m n)] at hmax
  exact (Option.some.inj hmax).symm

/-! ## Assignments -/

/-- What an assignment does to the variables. -/
def Quad.effect (s : Store) : Quad → Except Fault Store
  | .assign source result => .ok (s.set result (s.resolve source))
  | .binary op left right result => s.set result <$> (s.resolve left).apply op.accumulator (s.resolve right)
  | _ => .ok s

def Quad.isEffect : Quad → Bool
  | .assign .. | .binary .. => true
  | _ => false

theorem reads_temporary (n : Nat) : Reads ("t" ++ toString n) ("t" ++ toString n) :=
  reads_numbered (by decide : "t".toList = 't' :: []) (by decide) (by decide) (by decide) n

theorem isEffect_reduceTerms (terms : List (Operator × Operand)) (left : String) (n : Nat) :
    ∀ q ∈ ((reduceTerms left terms).run n).1.1, q.isEffect = true := by
  induction terms generalizing left n with
  | nil => exact fun q hq => absurd hq List.not_mem_nil
  | cons x terms ih => exact List.forall_mem_cons.mpr ⟨rfl, ih _ _⟩

theorem isEffect_reduceInPlace (c : Chain) (n : Nat) : ∀ q ∈ ((reduceInPlace c).run n).1.1, q.isEffect = true := by
  unfold reduceInPlace
  split
  · exact fun q hq => absurd hq List.not_mem_nil
  · refine List.forall_mem_cons.mpr ⟨rfl, fun q hq => ?_⟩
    obtain ⟨x, -, rfl⟩ := List.mem_map.mp hq
    rfl

theorem isEffect_reduceAll (args : List Argument) (n : Nat) :
    ∀ q ∈ ((reduceAll args).run n).1.1, q.isEffect = true := by
  induction args generalizing n with
  | nil => exact fun q hq => absurd hq List.not_mem_nil
  | cons a args ih =>
    cases a with
    | type word => exact ih n
    | value c => exact fun q hq => (List.mem_append.mp hq).elim (isEffect_reduceTerms c.rest _ n q) (ih _ q)

/-! ### Temporaries up to a number -/

/-- The names of the temporaries beyond the first `n`, up to the number `N`. -/
def Between (n N : Nat) (name : String) : Prop := ∃ k, n < k ∧ k ≤ N ∧ name = "t" ++ toString k

/-- The value of an operand does not depend on any of these temporaries. -/
def Apart (n N : Nat) (w : String) : Prop := ∀ name, Reads w name → ¬ Between n N name

section Between

variable {m n N : Nat} {name w : String}

theorem Between.mono (h : Between n N name) (hle : m ≤ n) : Between m N name := by
  obtain ⟨k, hk, hN, rfl⟩ := h
  exact ⟨k, by omega, hN, rfl⟩

theorem Between.beyond (h : Between n N name) : Beyond "t" n name := by
  obtain ⟨k, hk, -, hname⟩ := h
  exact ⟨k, hk, hname⟩

theorem Apart.mono (h : Apart m N w) (hle : m ≤ n) : Apart n N w :=
  fun name hname hbetween => h name hname (hbetween.mono hle)

theorem between_next (hN : n + 1 ≤ N) : Between n N ("t" ++ toString (n + 1)) := ⟨n + 1, Nat.lt_succ_self n, hN, rfl⟩

theorem apart_of_settled (h : Settled "t" n w) : Apart n N w :=
  fun name hname hbetween => h name hname hbetween.beyond

theorem settled_of_apart (h : ∀ N, Apart n N w) : Settled "t" n w := by
  rintro name hname ⟨k, hk, rfl⟩
  exact h k _ hname ⟨k, hk, Nat.le_refl k, rfl⟩

end Between

theorem le_reduceTerms (terms : List (Operator × Operand)) (left : String) (n : Nat) :
    n ≤ ((reduceTerms left terms).run n).2 := by
  induction terms generalizing left n with
  | nil => exact Nat.le_refl n
  | cons x terms ih => exact Nat.le_of_succ_le (ih _ (n + 1))

theorem apart_reduceTerms {terms : List (Operator × Operand)} {left : String} {n N : Nat} (hleft : Apart n N left) :
    Apart ((reduceTerms left terms).run n).2 N ((reduceTerms left terms).run n).1.2 := by
  induction terms generalizing left n with
  | nil => exact hleft
  | cons x terms ih => exact ih (apart_of_settled (settled_numbered "t" (n + 1)))

/-- Every term goes to a temporary of its own. -/
theorem alike_reduceTerms {terms : List (Operator × Operand)} {left : String} {n N : Nat}
    (hN : ((reduceTerms left terms).run n).2 ≤ N) (hleft : Apart n N left)
    (hterms : ∀ x ∈ terms, Apart n N x.2.lexeme) (s : Store) :
    Alike (fun v s' => EqOff (Between n N) s s' ∧ s'.resolve ((reduceTerms left terms).run n).1.2 = v)
      (applyAll s (s.resolve left) terms) (((reduceTerms left terms).run n).1.1.foldlM Quad.effect s) := by
  induction terms generalizing left n s with
  | nil => exact ⟨.refl _ s, rfl⟩
  | cons x terms ih =>
    obtain ⟨op, o⟩ := x
    obtain ⟨ho, hterms⟩ := List.forall_mem_cons.mp hterms
    have hnext : ((reduceTerms ("t" ++ toString (n + 1)) terms).run (n + 1)).2 ≤ N := hN
    have hbetween := between_next ((le_reduceTerms terms _ (n + 1)).trans hnext)
    have hrest := ih hnext (apart_of_settled (settled_numbered "t" (n + 1)))
      fun x hx => (hterms x hx).mono (Nat.le_succ n)
    show Alike _ (do applyAll s (← (s.resolve left).apply op.accumulator (s.resolve o.lexeme)) terms)
      (List.foldlM Quad.effect s (.binary op left o.lexeme ("t" ++ toString (n + 1)) ::
        ((reduceTerms ("t" ++ toString (n + 1)) terms).run (n + 1)).1.1))
    rw [List.foldlM_cons, Quad.effect, bind_map_left]
    refine Alike.bind (Alike.refl _) fun v v' hv => ?_
    subst hv
    have hset := Store.eqOff_set hbetween s v
    have hvalue : (s.set ("t" ++ toString (n + 1)) v).resolve ("t" ++ toString (n + 1)) = v := by
      rw [Store.resolve_of_reads (reads_temporary _), Store.get_set_self]
    have hsame := applyAll_congr (fun x hx => hset.resolve (hterms x hx)) v
    have halike := hrest (s.set ("t" ++ toString (n + 1)) v)
    rw [hvalue, ← hsame] at halike
    refine halike.mono fun v' s' hs' => ⟨hset.trans ?_, hs'.2⟩
    exact hs'.1.mono fun name hname => hname.mono (Nat.le_succ n)

theorem le_reduce (c : Chain) (n : Nat) : n ≤ ((reduce c).run n).2 := le_reduceTerms c.rest c.first.lexeme n

theorem alike_reduce_between {c : Chain} {n N : Nat} (hN : ((reduce c).run n).2 ≤ N)
    (hc : ∀ o ∈ c.operands, Apart n N o.lexeme) (s : Store) :
    Alike (fun v s' => EqOff (Between n N) s s' ∧ s'.resolve ((reduce c).run n).1.2 = v) (c.value s)
      (((reduce c).run n).1.1.foldlM Quad.effect s) :=
  alike_reduceTerms hN (hc _ List.mem_cons_self)
    (fun x hx => hc x.2 (List.mem_cons_of_mem _ (List.mem_map_of_mem hx))) s

/-- The code of a chain computes its value. It changes temporaries beyond the ones that were there before, and its
address reads none beyond those that are there then. -/
theorem alike_reduce {c : Chain} {n : Nat} (hc : ∀ o ∈ c.operands, Settled "t" n o.lexeme) (s : Store) :
    Alike (fun v s' => EqOff (Beyond "t" n) s s' ∧ s'.resolve ((reduce c).run n).1.2 = v) (c.value s)
        (((reduce c).run n).1.1.foldlM Quad.effect s) ∧
      n ≤ ((reduce c).run n).2 ∧ Settled "t" ((reduce c).run n).2 ((reduce c).run n).1.2 := by
  refine ⟨?_, le_reduce c n, settled_of_apart fun N => apart_reduceTerms (apart_of_settled (hc _ List.mem_cons_self))⟩
  refine (alike_reduce_between (Nat.le_refl _) (fun o ho => apart_of_settled (hc o ho)) s).mono ?_
  exact fun v s' hs' => ⟨hs'.1.mono fun name hname => hname.beyond, hs'.2⟩

theorem le_reduceInPlace (c : Chain) (n : Nat) : n ≤ ((reduceInPlace c).run n).2 := by
  unfold reduceInPlace
  split
  · exact Nat.le_refl n
  · exact Nat.le_succ n

/-- The left side of a condition goes to one temporary. -/
theorem alike_reduceInPlace_between {c : Chain} {n N : Nat} (hN : ((reduceInPlace c).run n).2 ≤ N)
    (hc : ∀ o ∈ c.operands, Apart n N o.lexeme) (s : Store) :
    Alike (fun v s' => EqOff (Between n N) s s' ∧ s'.resolve ((reduceInPlace c).run n).1.2 = v) (c.value s)
      (((reduceInPlace c).run n).1.1.foldlM Quad.effect s) := by
  have hreads := reads_temporary (n + 1)
  obtain ⟨first, rest⟩ := c
  cases rest with
  | nil => exact ⟨.refl _ s, rfl⟩
  | cons x rest =>
    have hbetween := between_next (show n + 1 ≤ N from hN)
    have hapart : ∀ y ∈ x :: rest, ¬ Reads y.2.lexeme ("t" ++ toString (n + 1)) := fun y hy hread =>
      hc y.2 (List.mem_cons_of_mem _ (List.mem_map_of_mem hy)) _ hread hbetween
    have hterm : ∀ v, ∀ y ∈ x :: rest, Quad.effect (s.set ("t" ++ toString (n + 1)) v)
        (.binary y.1 ("t" ++ toString (n + 1)) y.2.lexeme ("t" ++ toString (n + 1))) =
          s.set ("t" ++ toString (n + 1)) <$>
            v.apply y.1.accumulator ((s.set ("t" ++ toString (n + 1)) v).resolve y.2.lexeme) := by
      intro v y _
      have hset : (s.set ("t" ++ toString (n + 1)) v).set ("t" ++ toString (n + 1)) =
          s.set ("t" ++ toString (n + 1)) := funext fun v' => Store.set_set s _ v v'
      rw [Quad.effect, Store.resolve_of_reads hreads, Store.get_set_self, hset]
    show Alike _ _ (List.foldlM Quad.effect (s.set ("t" ++ toString (n + 1)) (s.resolve first.lexeme))
      ((x :: rest).map fun y => .binary y.1 ("t" ++ toString (n + 1)) y.2.lexeme ("t" ++ toString (n + 1))))
    rw [List.foldlM_map, foldlM_terms hterm, applyInPlace_eq_applyAll hapart]
    refine Alike.map_self _ fun v _ => ⟨Store.eqOff_set hbetween s v, ?_⟩
    show (s.set ("t" ++ toString (n + 1)) v).resolve ("t" ++ toString (n + 1)) = v
    rw [Store.resolve_of_reads hreads, Store.get_set_self]

theorem alike_reduceInPlace {c : Chain} {n : Nat} (hc : ∀ o ∈ c.operands, Settled "t" n o.lexeme) (s : Store) :
    Alike (fun v s' => EqOff (Beyond "t" n) s s' ∧ s'.resolve ((reduceInPlace c).run n).1.2 = v) (c.value s)
      (((reduceInPlace c).run n).1.1.foldlM Quad.effect s) := by
  refine (alike_reduceInPlace_between (Nat.le_refl _) (fun o ho => apart_of_settled (hc o ho)) s).mono ?_
  exact fun v s' hs' => ⟨hs'.1.mono fun name hname => hname.beyond, hs'.2⟩

theorem le_reduceAll (args : List Argument) (n : Nat) : n ≤ ((reduceAll args).run n).2 := by
  induction args generalizing n with
  | nil => exact Nat.le_refl n
  | cons a args ih =>
    cases a with
    | type word => exact ih n
    | value c => exact (le_reduce c n).trans (ih _)

/-- The code of arguments computes the values of their chains, the first argument first. -/
theorem alike_reduceAll_between {args : List Argument} {n N : Nat} (hN : ((reduceAll args).run n).2 ≤ N)
    (hargs : ∀ a ∈ args, a.chain?.isSome = true → ∀ w ∈ a.words, Apart n N w) (s : Store) :
    Alike (fun vs s' => EqOff (Between n N) s s' ∧ ((reduceAll args).run n).1.2.map s'.resolve = vs)
      (evaluateAll s (args.filter fun a => a.chain?.isSome)) (((reduceAll args).run n).1.1.foldlM Quad.effect s) := by
  induction args generalizing n s with
  | nil => exact ⟨.refl _ s, rfl⟩
  | cons a args ih =>
    obtain ⟨ha, hrest⟩ := List.forall_mem_cons.mp hargs
    cases a with
    | type word => exact ih hN hrest s
    | value c =>
      have hlast : ((reduceAll args).run ((reduce c).run n).2).2 ≤ N := hN
      have hle := le_reduce c n
      have hc : ∀ o ∈ c.operands, Apart n N o.lexeme := fun o ho => ha rfl _ (List.mem_map_of_mem ho)
      have hfirst := alike_reduce_between ((le_reduceAll args _).trans hlast) hc s
      have hsettled : Apart ((reduce c).run n).2 N ((reduce c).run n).1.2 :=
        apart_reduceTerms (hc _ List.mem_cons_self)
      show Alike _ (evaluateAll s (.value c :: args.filter fun a => a.chain?.isSome))
        ((((reduce c).run n).1.1 ++ ((reduceAll args).run ((reduce c).run n).2).1.1).foldlM Quad.effect s)
      rw [List.foldlM_append, evaluateAll]
      refine hfirst.bind fun v s' hv => ?_
      have hsame : evaluateAll s (args.filter fun a => a.chain?.isSome) =
          evaluateAll s' (args.filter fun a => a.chain?.isSome) := by
        refine evaluateAll_congr fun a ha w hw => hv.1.resolve ?_
        obtain ⟨hmem, hchain⟩ := List.mem_filter.mp ha
        exact hrest a hmem hchain w hw
      rw [hsame]
      have hothers := ih hlast (fun a ha hchain w hw => (hrest a ha hchain w hw).mono hle) s'
      refine hothers.map_left fun vs s'' hvs => ⟨?_, ?_⟩
      · exact hv.1.trans (hvs.1.mono fun name hname => hname.mono hle)
      · show s''.resolve ((reduce c).run n).1.2 :: ((reduceAll args).run ((reduce c).run n).2).1.2.map s''.resolve =
          v :: vs
        rw [hvs.2, ← hvs.1.resolve hsettled, hv.2]

theorem alike_reduceAll {args : List Argument} {n : Nat} (hargs : ∀ a ∈ args, ∀ w ∈ a.words, Settled "t" n w)
    (hchains : ∀ a ∈ args, a.chain?.isSome = true) (s : Store) :
    Alike (fun vs s' => EqOff (Beyond "t" n) s s' ∧ ((reduceAll args).run n).1.2.map s'.resolve = vs)
      (evaluateAll s args) (((reduceAll args).run n).1.1.foldlM Quad.effect s) := by
  have hbetween := alike_reduceAll_between (Nat.le_refl ((reduceAll args).run n).2)
    (fun a ha _ w hw => apart_of_settled (hargs a ha w hw)) s
  rw [List.filter_eq_self.mpr hchains] at hbetween
  exact hbetween.mono fun vs s' hs' => ⟨hs'.1.mono fun name hname => hname.beyond, hs'.2⟩

/-! ### Instructions in sequence -/

theorem quadsAll_append (is js : List Instruction) (n : Nat) :
    (quadsAll (is ++ js)).run n =
      (((quadsAll is).run n).1 ++ ((quadsAll js).run ((quadsAll is).run n).2).1,
        ((quadsAll js).run ((quadsAll is).run n).2).2) := by
  induction is generalizing n with
  | nil => rfl
  | cons i is ih =>
    rw [List.cons_append, quadsAll, run_bind, run_bind, run_pure, ih, quadsAll, run_bind, run_bind, run_pure,
      List.append_assoc]

/-! ## Execution -/

/-- From `s`, the interpreter takes `n` steps to the result of a computation, or gets to where it faults. Nothing is
printed. -/
def Ran (code : List Quad) (n k : Nat) (s : State) : Except Fault Store → Prop
  | .ok store => Steps code n s { s with pc := k, store }
  | .error f => ∃ m t, Steps code m s t ∧ step code t = .fault f ∧ t.printed = s.printed

variable {before quads others : List Quad}

theorem step_of_split {q : Quad} (hcode : code = before ++ q :: others) (hpc : s.pc = before.length) :
    step code s = execute code { s with pc := before.length + 1 } q := by
  have hline : code[before.length]? = some q := by simp [hcode]
  rw [step, hpc, hline]

theorem Ran.after {k : Nat} {r : Except Fault Store} (hgoes : Steps code m s t) (hprinted : t.printed = s.printed)
    (hstate : ∀ pc store, { t with pc, store } = { s with pc, store }) (h : Ran code n k t r) :
    Ran code (m + n) k s r := by
  cases r with
  | ok store =>
    have hend := hgoes.trans h
    rwa [hstate] at hend
  | error f =>
    obtain ⟨l, u, hl, hfault, hseen⟩ := h
    exact ⟨m + l, u, hgoes.trans hl, hfault, hseen.trans hprinted⟩

/-- An assignment is executed in one step. -/
theorem ran_effect {q : Quad} (hcode : code = before ++ q :: others) (hpc : s.pc = before.length)
    (hq : q.isEffect = true) : Ran code 1 (before.length + 1) s (q.effect s.store) := by
  have hstep := step_of_split hcode hpc
  cases q with
  | assign source result => exact .one hstep
  | binary op left right result =>
    show Ran code 1 (before.length + 1) s
      (s.store.set result <$> (s.store.resolve left).apply op.accumulator (s.store.resolve right))
    simp only [execute] at hstep
    cases hvalue : (s.store.resolve left).apply op.accumulator (s.store.resolve right) with
    | ok v =>
      rw [hvalue] at hstep
      exact Steps.one hstep
    | error f =>
      rw [hvalue] at hstep
      exact ⟨0, s, .refl s, hstep, rfl⟩
  | _ => cases hq

/-- Assignments are executed one after the other. -/
theorem ran_of_split (hcode : code = before ++ quads ++ others) (hpc : s.pc = before.length)
    (h : ∀ q ∈ quads, q.isEffect = true) :
    Ran code quads.length (before.length + quads.length) s (quads.foldlM Quad.effect s.store) := by
  induction quads generalizing before s with
  | nil =>
    rw [List.length_nil, Nat.add_zero, ← hpc]
    exact .refl s
  | cons q quads ih =>
    obtain ⟨hq, hquads⟩ := List.forall_mem_cons.mp h
    rw [List.append_assoc, List.cons_append] at hcode
    have hfirst := ran_effect hcode hpc hq
    have hcode' : code = (before ++ [q]) ++ quads ++ others := by simp [hcode]
    have hlength : before.length + (q :: quads).length = (before ++ [q]).length + quads.length := by
      simp only [List.length_append, List.length_cons, List.length_nil]
      omega
    rw [List.foldlM_cons, hlength, List.length_cons, Nat.add_comm quads.length]
    cases heffect : q.effect s.store with
    | ok store =>
      rw [heffect] at hfirst
      have hpc' : ({ s with pc := before.length + 1, store } : State).pc = (before ++ [q]).length := by
        rw [List.length_append, List.length_singleton]
      exact Ran.after hfirst rfl (fun _ _ => rfl) (ih hcode' hpc' hquads)
    | error f =>
      rw [heffect] at hfirst
      exact hfirst

/-- Arguments are passed one after the other. -/
theorem steps_params {addresses : List String} (hcode : code = before ++ addresses.map Quad.param ++ others)
    (hpc : s.pc = before.length) :
    Steps code addresses.length s
      { s with
        pc := before.length + addresses.length
        passed := (addresses.map s.store.resolve).reverse ++ s.passed } := by
  induction addresses generalizing before s with
  | nil =>
    rw [List.length_nil, Nat.add_zero, ← hpc]
    exact .refl s
  | cons a addresses ih =>
    rw [List.append_assoc, List.map_cons, List.cons_append] at hcode
    have hcode' : code = (before ++ [.param a]) ++ addresses.map Quad.param ++ others := by simp [hcode]
    have hpc' : before.length + 1 = (before ++ [Quad.param a]).length := by
      rw [List.length_append, List.length_singleton]
    have hrest := ih (s := { s with pc := before.length + 1, passed := s.store.resolve a :: s.passed }) hcode' hpc'
    have hlength : before.length + (a :: addresses).length = (before ++ [Quad.param a]).length + addresses.length := by
      rw [← hpc', List.length_cons]
      omega
    rw [hlength, List.map_cons, List.reverse_cons, List.append_assoc]
    exact .step (step_of_split hcode hpc) hrest

/-- A comparison and its jump. -/
theorem steps_compare {left right name : String} {relation : Relation} {x : Nat}
    (hcode : code = before ++ .compare left right :: .jumpIf relation name :: others) (hpc : s.pc = before.length)
    (hx : code.findIdx? (· = .label name) = some x) :
    Steps code 2 s
      { s with
        pc := if relation.holds (s.store.resolve left) (s.store.resolve right) then x else before.length + 2
        compared := (s.store.resolve left, s.store.resolve right) } := by
  have hcode' : code = (before ++ [.compare left right]) ++ .jumpIf relation name :: others := by simp [hcode]
  have hpc' : before.length + 1 = (before ++ [Quad.compare left right]).length := by
    rw [List.length_append, List.length_singleton]
  refine .step (step_of_split hcode hpc) (.one ?_)
  rw [step_of_split hcode' hpc', ← hpc']
  by_cases hholds : relation.holds (s.store.resolve left) (s.store.resolve right) = true
  · simp only [execute, if_pos hholds, goto, hx]
  · simp only [execute, if_neg hholds]

/-- A call that prints the arguments that are passed to it. -/
theorem steps_call {name : String} {addresses : List String}
    (hcode : code = before ++ addresses.map Quad.param ++ .call name addresses.length :: others)
    (hname : Machine.printNames.contains name = true) (hpc : s.pc = before.length) (hpassed : s.passed = []) :
    Steps code (addresses.length + 1) s
      { s with
        pc := before.length + addresses.length + 1
        printed := String.intercalate " " ((addresses.map s.store.resolve).map Value.display) :: s.printed } := by
  refine (steps_params hcode hpc).trans (.one ?_)
  have hpc' : before.length + addresses.length = (before ++ addresses.map Quad.param).length := by
    rw [List.length_append, List.length_map]
  rw [step_of_split hcode hpc', ← hpc']
  simp only [execute, hname, if_true, hpassed, List.append_nil]
  rw [List.take_of_length_le (by simp), List.drop_of_length_le (by simp), List.reverse_reverse]

end Dotlang.ThreeAddress
