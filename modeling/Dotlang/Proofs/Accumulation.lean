import Dotlang.Proofs.Fragments
import Dotlang.Proofs.Words

/-!
# What the lines of a chain compute

A chain is worth what its terms make of its first operand, from left to right. The lines that accumulate it in a
variable arrive at that value, or at the same fault, unless a term reads the variable they accumulate in.

* `Chain.value` : the value of a chain in a store;
* `Chain.inPlace target s c` : what it comes to where the terms are applied in the variable `target` itself;
* `Store.EqOff hidden s t` : two stores differ in hidden names only;
* `Alike fits x y` : two computations fault alike, or have results that fit;
* `foldlM_accumulate_inPlace`, `foldlM_accumulate`, `alike_operand`, `alike_operands` : what the lines of a chain, of an
  operand and of arguments compute;
* `Program.Holds`, `Program.Computes` : a program has code from a line on, and computes a store or a fault;
* `Program.computes_effects` : the machine executes such lines one after the other.
-/

namespace Dotlang

open Assembly (Line)
open Machine (Program Scene)
open Machine.Program (Goes)

/-! ## Stores -/

/-- The operand is spelled as the variable `name`. -/
def Reads (w name : String) : Prop := Text.withoutComma w = name ∧ Value.literal? name = none

namespace Store

variable {s t u : Store} {hidden : String → Prop} {name w : String}

theorem get_set (s : Store) (name other : String) (v : Value) :
    (s.set name v).get other = if other = name then v else s.get other := by
  rw [get, get, get?_set]
  split_ifs <;> rfl

theorem get_set_self (s : Store) (name : String) (v : Value) : (s.set name v).get name = v := by
  rw [get_set, if_pos rfl]

/-- Of two values for a variable the later one stays. -/
theorem set_set (s : Store) (name : String) (v v' : Value) : (s.set name v).set name v' = s.set name v' := by
  obtain ⟨bs⟩ := s
  show Store.mk (update name v' (update name v bs)) = ⟨update name v' bs⟩
  congr 1
  induction bs with
  | nil => simp [update]
  | cons b bs ih =>
    by_cases h : name = b.1
    · simp [update, h]
    · simp [update, h, ih]

theorem resolve_of_reads (h : Reads w name) : s.resolve w = s.get name := by
  obtain ⟨rfl, hliteral⟩ := h
  simp only [resolve, hliteral, Option.getD_none]

/-- An operand depends on the variable that it is, if it is one. -/
theorem resolve_congr (h : ∀ name, Reads w name → s.get name = t.get name) : s.resolve w = t.resolve w := by
  cases hliteral : Value.literal? (Text.withoutComma w) with
  | some v => simp only [resolve, hliteral, Option.getD_some]
  | none =>
    have hreads : Reads w (Text.withoutComma w) := ⟨rfl, hliteral⟩
    rw [resolve_of_reads hreads, resolve_of_reads hreads, h _ hreads]

theorem resolve_set_of_not_reads (h : ¬ Reads w name) (v : Value) : (s.set name v).resolve w = s.resolve w := by
  refine resolve_congr fun other hother => ?_
  rw [get_set, if_neg]
  rintro rfl
  exact h hother

/-- The stores give every name that is not hidden the same value. -/
def EqOff (hidden : String → Prop) (s t : Store) : Prop := ∀ name, ¬ hidden name → s.get name = t.get name

theorem EqOff.refl (hidden : String → Prop) (s : Store) : EqOff hidden s s := fun _ _ => rfl

theorem EqOff.symm (h : EqOff hidden s t) : EqOff hidden t s := fun name hname => (h name hname).symm

theorem EqOff.trans (h : EqOff hidden s t) (h' : EqOff hidden t u) : EqOff hidden s u :=
  fun name hname => (h name hname).trans (h' name hname)

theorem EqOff.mono {more : String → Prop} (h : EqOff hidden s t) (hsub : ∀ name, hidden name → more name) :
    EqOff more s t := fun name hname => h name fun hhidden => hname (hsub name hhidden)

theorem EqOff.set (h : EqOff hidden s t) (name : String) (v : Value) : EqOff hidden (s.set name v) (t.set name v) := by
  intro other hother
  rw [get_set, get_set, h other hother]

theorem eqOff_set (h : hidden name) (s : Store) (v : Value) : EqOff hidden s (s.set name v) := by
  intro other hother
  rw [get_set, if_neg]
  rintro rfl
  exact hother h

theorem EqOff.resolve (h : EqOff hidden s t) (hw : ∀ name, Reads w name → ¬ hidden name) : s.resolve w = t.resolve w :=
  resolve_congr fun name hname => h name (hw name hname)

end Store

open Store (EqOff)

/-! ## Numbered names -/

/-- The names that begin with `stem` and are numbered beyond `n`. -/
def Beyond (stem : String) (n : Nat) (name : String) : Prop := ∃ k, n < k ∧ name = stem ++ toString k

/-- The value of an operand does not depend on any of the names beyond `n`. -/
def Settled (stem : String) (n : Nat) (w : String) : Prop := ∀ name, Reads w name → ¬ Beyond stem n name

theorem Beyond.mono {stem name : String} {m n : Nat} (h : Beyond stem n name) (hle : m ≤ n) : Beyond stem m name := by
  obtain ⟨k, hk, rfl⟩ := h
  exact ⟨k, Nat.lt_of_le_of_lt hle hk, rfl⟩

theorem Settled.mono {stem w : String} {m n : Nat} (h : Settled stem m w) (hle : m ≤ n) : Settled stem n w :=
  fun name hname hbeyond => h name hname (hbeyond.mono hle)

theorem getLast?_numbered (stem : String) (n : Nat) :
    ∃ d, (stem ++ toString n).toList.getLast? = some d ∧ d.isDigit = true := by
  have hdigits : Nat.toDigits 10 n ≠ [] := Nat.toDigits_ne_nil
  refine ⟨(Nat.toDigits 10 n).getLast hdigits, ?_, ?_⟩
  · rw [String.toList_append, Nat.toString_eq_repr, Nat.toList_repr, List.getLast?_append_of_ne_nil _ hdigits,
      List.getLast?_eq_getLast_of_ne_nil hdigits]
  · exact Nat.isDigit_of_mem_toDigits (by decide) (by decide) (List.getLast_mem hdigits)

theorem withoutComma_numbered (stem : String) (n : Nat) :
    Text.withoutComma (stem ++ toString n) = stem ++ toString n := by
  obtain ⟨d, hlast, hdigit⟩ := getLast?_numbered stem n
  have hcomma : (stem ++ toString n).toList.getLast? ≠ some ',' := by
    rw [hlast]
    rintro ⟨⟩
    exact absurd hdigit (by decide)
  rw [Text.withoutComma, Text.dropTrailing, if_neg hcomma, String.ofList_toList]

theorem settled_numbered (stem : String) (n : Nat) : Settled stem n (stem ++ toString n) := by
  rintro name ⟨hname, -⟩ ⟨k, hk, rfl⟩
  rw [withoutComma_numbered] at hname
  exact Nat.ne_of_lt hk (numbered_injective stem hname)

/-- A numbered name is a variable, if it begins as no literal does. -/
theorem reads_numbered {stem : String} {c : Char} {cs : List Char} (hstem : stem.toList = c :: cs)
    (hdigit : c.isDigit = false) (hminus : c ≠ '-') (hquote : c ≠ '"') (n : Nat) :
    Reads (stem ++ toString n) (stem ++ toString n) := by
  refine ⟨withoutComma_numbered stem n, ?_⟩
  have hhead : (stem ++ toString n).toList = c :: (cs ++ (toString n).toList) := by
    rw [String.toList_append, hstem, List.cons_append]
  obtain ⟨d, hlast, hd⟩ := getLast?_numbered stem n
  have htruth : ∀ word : String, (word.toList.getLast?.all fun c => !c.isDigit) = true →
      stem ++ toString n ≠ word := by
    rintro word hword rfl
    rw [hlast, Option.all_some, hd] at hword
    cases hword
  exact literal?_eq_none hhead hdigit hminus hquote ⟨htruth "true" (by decide), htruth "false" (by decide)⟩

/-! ## Values -/

/-- Applies terms to a value, from left to right. -/
def applyAll (s : Store) : Value → List (Operator × Operand) → Except Fault Value
  | v, [] => .ok v
  | v, (op, o) :: terms => do applyAll s (← v.apply op.accumulator (s.resolve o.lexeme)) terms

/-- The value of a chain in a store. -/
def Chain.value (s : Store) (c : Chain) : Except Fault Value := applyAll s (s.resolve c.first.lexeme) c.rest

/-- Applies terms to the value of a variable where that stands, so a term that reads the variable reads the value so
far. -/
def applyInPlace (target : String) (s : Store) : Value → List (Operator × Operand) → Except Fault Value
  | v, [] => .ok v
  | v, (op, o) :: terms => do
    applyInPlace target s (← v.apply op.accumulator ((s.set target v).resolve o.lexeme)) terms

/-- What a chain comes to in the variable that it is assigned to. -/
def Chain.inPlace (target : String) (s : Store) (c : Chain) : Except Fault Value :=
  applyInPlace target s (s.resolve c.first.lexeme) c.rest

/-- The value of an argument. The word of a data type counts as an operand. -/
def Argument.evaluate (s : Store) : Argument → Except Fault Value
  | value c => c.value s
  | type word => .ok (s.resolve word)

/-- The values of arguments, all taken in the same store. -/
def evaluateAll (s : Store) : List Argument → Except Fault (List Value)
  | [] => .ok []
  | a :: args => do
    let v ← a.evaluate s
    (v :: ·) <$> evaluateAll s args

/-- The operands in an argument. -/
def Argument.words : Argument → List String
  | value c => c.operands.map Operand.lexeme
  | type word => [word]

section Congruence

variable {s t : Store}

theorem applyAll_congr {terms : List (Operator × Operand)}
    (h : ∀ x ∈ terms, s.resolve x.2.lexeme = t.resolve x.2.lexeme) (v : Value) :
    applyAll s v terms = applyAll t v terms := by
  induction terms generalizing v with
  | nil => rfl
  | cons x terms ih =>
    obtain ⟨hx, hterms⟩ := List.forall_mem_cons.mp h
    rw [applyAll, applyAll, hx]
    exact bind_congr fun v' => ih hterms v'

/-- It does not matter where the value stands, if no term reads that. -/
theorem applyInPlace_eq_applyAll {target : String} {terms : List (Operator × Operand)}
    (h : ∀ x ∈ terms, ¬ Reads x.2.lexeme target) (v : Value) : applyInPlace target s v terms = applyAll s v terms := by
  induction terms generalizing v with
  | nil => rfl
  | cons x terms ih =>
    obtain ⟨hx, hterms⟩ := List.forall_mem_cons.mp h
    rw [applyInPlace, applyAll, Store.resolve_set_of_not_reads hx]
    exact bind_congr fun v' => ih hterms v'

theorem Chain.value_congr {c : Chain} (h : ∀ o ∈ c.operands, s.resolve o.lexeme = t.resolve o.lexeme) :
    c.value s = c.value t := by
  obtain ⟨hfirst, hrest⟩ := List.forall_mem_cons.mp h
  rw [Chain.value, Chain.value, hfirst]
  exact applyAll_congr (fun x hx => hrest x.2 (List.mem_map_of_mem hx)) _

theorem Argument.evaluate_congr {a : Argument} (h : ∀ w ∈ a.words, s.resolve w = t.resolve w) :
    a.evaluate s = a.evaluate t := by
  cases a with
  | value c => exact Chain.value_congr fun o ho => h _ (List.mem_map_of_mem ho)
  | type word => exact congrArg Except.ok (h word List.mem_cons_self)

theorem evaluateAll_congr {args : List Argument} (h : ∀ a ∈ args, ∀ w ∈ a.words, s.resolve w = t.resolve w) :
    evaluateAll s args = evaluateAll t args := by
  induction args with
  | nil => rfl
  | cons a args ih =>
    obtain ⟨ha, hargs⟩ := List.forall_mem_cons.mp h
    rw [evaluateAll, evaluateAll, Argument.evaluate_congr ha, ih hargs]

end Congruence

/-! ## Computations side by side -/

/-- Two computations fault alike, or have results that fit. -/
def Alike {α β : Type} (fits : α → β → Prop) : Except Fault α → Except Fault β → Prop
  | .ok a, .ok b => fits a b
  | .error f, .error g => f = g
  | _, _ => False

namespace Alike

variable {α β γ δ : Type} {fits : α → β → Prop} {more : γ → δ → Prop} {x : Except Fault α} {y : Except Fault β}

theorem refl (x : Except Fault α) : Alike Eq x x := by
  cases x <;> rfl

theorem mono {looser : α → β → Prop} (h : Alike fits x y) (hsub : ∀ a b, fits a b → looser a b) : Alike looser x y := by
  cases x <;> cases y
  case ok.ok a b => exact hsub a b h
  all_goals exact h

theorem bind {f : α → Except Fault γ} {g : β → Except Fault δ} (h : Alike fits x y)
    (hnext : ∀ a b, fits a b → Alike more (f a) (g b)) : Alike more (x >>= f) (y >>= g) := by
  cases x <;> cases y
  case ok.ok a b => exact hnext a b h
  case error.error f g => exact h
  all_goals exact h.elim

theorem exists_of_ok {a : α} (h : Alike fits (.ok a) y) : ∃ b, y = .ok b ∧ fits a b := by
  cases y with
  | ok b => exact ⟨b, rfl, h⟩
  | error g => exact h.elim

theorem eq_of_error {f : Fault} (h : Alike fits (.error f) y) : y = .error f := by
  cases y with
  | ok b => exact h.elim
  | error g => exact congrArg Except.error (Eq.symm h)

/-- A computation beside what is made of its result. -/
theorem map_self (f : α → β) (h : ∀ a, x = .ok a → fits a (f a)) : Alike fits x (f <$> x) := by
  cases x with
  | ok a => exact h a rfl
  | error g => rfl

theorem map_left {across : γ → β → Prop} {f : α → γ} (h : Alike fits x y) (hsub : ∀ a b, fits a b → across (f a) b) :
    Alike across (f <$> x) y := by
  cases x <;> cases y
  case ok.ok a b => exact hsub a b h
  case error.error f g => exact h
  all_goals exact h.elim

/-- Two computations beside the same third. -/
theorem join {across : α → γ → Prop} {both : β → γ → Prop} {z : Except Fault γ} (hy : Alike fits x y)
    (hz : Alike across x z) (h : ∀ a b c, fits a b → across a c → both b c) : Alike both y z := by
  cases x <;> cases y <;> cases z
  case ok.ok.ok a b c => exact h a b c hy hz
  case error.error.error f g k => exact (Eq.symm hy).trans hz
  all_goals first | exact hy.elim | exact hz.elim

end Alike

/-! ## Lines -/

/-- What is done to one variable, term by term, leaves there what the terms come to in it. -/
theorem foldlM_terms {s : Store} {target : String} {terms : List (Operator × Operand)}
    {step : Store → Operator × Operand → Except Fault Store}
    (h : ∀ v, ∀ x ∈ terms, step (s.set target v) x =
      s.set target <$> v.apply x.1.accumulator ((s.set target v).resolve x.2.lexeme))
    (v : Value) : terms.foldlM step (s.set target v) = s.set target <$> applyInPlace target s v terms := by
  induction terms generalizing v with
  | nil => rfl
  | cons x terms ih =>
    have hrest := ih fun v x hx => h v x (List.mem_cons_of_mem _ hx)
    rw [List.foldlM_cons, h v x List.mem_cons_self, bind_map_left, applyInPlace, map_bind]
    exact bind_congr fun v' => hrest v'

namespace Assembly

/-- What a line that moves or counts does to the variables. -/
def Line.effect (s : Store) : Line → Except Fault Store
  | .move target source => .ok (s.set target (s.resolve source))
  | .arith op target source => s.set target <$> (s.get target).apply op (s.resolve source)
  | _ => .ok s

/-- Lines that move or count. -/
def Line.isEffect : Line → Bool
  | .move .. | .arith .. => true
  | _ => false

theorem isEffect_accumulate {target : String} {c : Chain} : ∀ l ∈ accumulate target c, l.isEffect = true := by
  intro l hl
  rcases List.mem_cons.mp hl with rfl | hl
  · rfl
  · obtain ⟨term, -, rfl⟩ := List.mem_map.mp hl
    rfl

theorem isEffect_operand (c : Chain) (n : Nat) : ∀ l ∈ ((operand c).run n).1.1, l.isEffect = true :=
  forall_mem_operand (fun _ _ => isEffect_accumulate) c n

theorem isEffect_operands (args : List Argument) (n : Nat) : ∀ l ∈ ((operands args).run n).1.1, l.isEffect = true :=
  forall_mem_operands (fun _ _ => isEffect_accumulate) args n

theorem isEffect_bindAll (params : List String) (args : List Argument) :
    ∀ l ∈ bindAll params args, l.isEffect = true := by
  induction params generalizing args with
  | nil => intro l hl; cases hl
  | cons param params ih =>
    intro l hl
    rcases List.mem_append.mp hl with hl | hl
    · revert hl
      unfold bind
      split
      · exact isEffect_accumulate l
      · intro hl; rw [List.mem_singleton.mp hl]; rfl
      · intro hl; rw [List.mem_singleton.mp hl]; rfl
    · exact ih args.tail l hl

/-- The lines of a chain leave in their target what the chain comes to there, and change nothing else. -/
theorem foldlM_accumulate_inPlace (target : String) (c : Chain) (s : Store) :
    (accumulate target c).foldlM Line.effect s = s.set target <$> c.inPlace target s := by
  have hterm : ∀ v, ∀ x ∈ c.rest, Line.effect (s.set target v) (.arith x.1.accumulator target x.2.lexeme) =
      s.set target <$> v.apply x.1.accumulator ((s.set target v).resolve x.2.lexeme) := by
    intro v x _
    have hset : (s.set target v).set target = s.set target := funext fun v' => Store.set_set s target v v'
    rw [Line.effect, Store.get_set_self, hset]
  show (c.rest.map _).foldlM Line.effect (s.set target (s.resolve c.first.lexeme)) = _
  rw [List.foldlM_map]
  exact foldlM_terms hterm _

/-- **The lines of a chain leave its value in their target and change nothing else**, or fault as the value does. No
term after the first operand may read the target. -/
theorem foldlM_accumulate {target : String} {c : Chain} (h : ∀ x ∈ c.rest, ¬ Reads x.2.lexeme target) (s : Store) :
    (accumulate target c).foldlM Line.effect s = s.set target <$> c.value s := by
  rw [foldlM_accumulate_inPlace, Chain.inPlace, applyInPlace_eq_applyAll h]
  rfl

theorem reads_scratch (n : Nat) : Reads ("$t" ++ toString n) ("$t" ++ toString n) :=
  reads_numbered (by decide : "$t".toList = '$' :: ['t']) (by decide) (by decide) (by decide) n

/-- The lines of an operand compute the value of its chain. They change scratch variables beyond the ones that were
there before, and the operand reads none beyond those that are there then. -/
theorem alike_operand {c : Chain} {n : Nat} (hc : ∀ o ∈ c.operands, Settled "$t" n o.lexeme) (s : Store) :
    Alike (fun v s' => EqOff (Beyond "$t" n) s s' ∧ s'.resolve ((operand c).run n).1.2 = v) (c.value s)
        (((operand c).run n).1.1.foldlM Line.effect s) ∧
      n ≤ ((operand c).run n).2 ∧ Settled "$t" ((operand c).run n).2 ((operand c).run n).1.2 := by
  have hreads := reads_scratch (n + 1)
  have hbeyond : Beyond "$t" n ("$t" ++ toString (n + 1)) := ⟨n + 1, Nat.lt_succ_self n, rfl⟩
  obtain ⟨first, rest⟩ := c
  cases rest with
  | nil => exact ⟨⟨.refl _ s, rfl⟩, Nat.le_refl n, hc first List.mem_cons_self⟩
  | cons x rest =>
    have hterms : ∀ y ∈ x :: rest, ¬ Reads y.2.lexeme ("$t" ++ toString (n + 1)) := fun y hy hread =>
      hc y.2 (List.mem_cons_of_mem _ (List.mem_map_of_mem hy)) _ hread hbeyond
    refine ⟨?_, Nat.le_succ n, settled_numbered "$t" (n + 1)⟩
    show Alike _ _ ((accumulate ("$t" ++ toString (n + 1)) ⟨first, x :: rest⟩).foldlM Line.effect s)
    rw [foldlM_accumulate hterms]
    refine Alike.map_self _ fun v _ => ⟨Store.eqOff_set hbeyond s v, ?_⟩
    show (s.set ("$t" ++ toString (n + 1)) v).resolve ("$t" ++ toString (n + 1)) = v
    rw [Store.resolve_of_reads hreads, Store.get_set_self]

/-- The lines of arguments compute their values, the first argument first. -/
theorem alike_operands {args : List Argument} {n : Nat} (hargs : ∀ a ∈ args, ∀ w ∈ a.words, Settled "$t" n w)
    (s : Store) :
    Alike (fun vs s' => EqOff (Beyond "$t" n) s s' ∧ ((operands args).run n).1.2.map s'.resolve = vs)
      (evaluateAll s args) (((operands args).run n).1.1.foldlM Line.effect s) := by
  induction args generalizing n s with
  | nil => exact ⟨.refl _ s, rfl⟩
  | cons a args ih =>
    obtain ⟨ha, hrest⟩ := List.forall_mem_cons.mp hargs
    cases a with
    | type word =>
      have hword : ∀ name, Reads word name → ¬ Beyond "$t" n name := ha word List.mem_cons_self
      refine (ih hrest s).map_left fun vs s' hvs => ⟨hvs.1, ?_⟩
      show s'.resolve word :: ((operands args).run n).1.2.map s'.resolve = s.resolve word :: vs
      rw [hvs.2, hvs.1.resolve hword]
    | value c =>
      obtain ⟨hfirst, hle, hsettled⟩ := alike_operand (fun o ho => ha _ (List.mem_map_of_mem ho)) s
      show Alike _ (evaluateAll s (.value c :: args))
        ((((operand c).run n).1.1 ++ ((operands args).run ((operand c).run n).2).1.1).foldlM Line.effect s)
      rw [List.foldlM_append, evaluateAll]
      refine hfirst.bind fun v s' hv => ?_
      have hsame : evaluateAll s args = evaluateAll s' args :=
        evaluateAll_congr fun a ha w hw => hv.1.resolve (hrest a ha w hw)
      rw [hsame]
      refine (ih (fun a ha w hw => (hrest a ha w hw).mono hle) s').map_left fun vs s'' hvs => ⟨?_, ?_⟩
      · exact hv.1.trans (hvs.1.mono fun name hname => hname.mono hle)
      · show s''.resolve ((operand c).run n).1.2 :: ((operands args).run ((operand c).run n).2).1.2.map s''.resolve =
          v :: vs
        rw [hvs.2, ← hvs.1.resolve hsettled, hv.2]

end Assembly

/-! ## Execution -/

namespace Machine.Program

variable {p : Program} {k n : Nat} {a : Scene} {l : Line} {code : List Line}

/-- The code is what the program has from line `k` on. -/
def Holds (p : Program) (k : Nat) (code : List Line) : Prop := ∀ i l, code[i]? = some l → p.lines[k + i]? = some (.ok l)

theorem Holds.head (h : p.Holds k (l :: code)) : p.lines[k]? = some (.ok l) := h 0 l rfl

theorem Holds.tail (h : p.Holds k (l :: code)) : p.Holds (k + 1) code := by
  intro i l' hl'
  rw [Nat.add_right_comm]
  exact h (i + 1) l' hl'

theorem Holds.left {more : List Line} (h : p.Holds k (code ++ more)) : p.Holds k code := by
  intro i l hl
  refine h i l ?_
  rw [List.getElem?_append_left (List.getElem?_eq_some_iff.mp hl).1, hl]

theorem Holds.right {more : List Line} (h : p.Holds k (code ++ more)) : p.Holds (k + code.length) more := by
  intro i l hl
  rw [Nat.add_assoc]
  refine h (code.length + i) l ?_
  rw [List.getElem?_append_right (Nat.le_add_right ..), Nat.add_sub_cancel_left, hl]

/-- From `a`, the program takes `n` steps to the result of a computation, or fewer to where it faults. It does not
print, ask or compare, and stays in its function. -/
def Computes (p : Program) (n : Nat) (a : Scene) : Except Fault Store → Prop
  | .ok s => Goes p n a { a with state := { a.state with pc := a.state.pc + n, store := s } }
  | .error f => ∃ m b, m < n ∧ Goes p m a b ∧ p.step b.state = .fault f ∧ b.seen = a.seen ∧ b.replies = a.replies

/-- What is computed from where another computation ends. -/
theorem Computes.after {m : Nat} {s : Store} {r : Except Fault Store} (hfirst : p.Computes m a (.ok s))
    (h : p.Computes n { a with state := { a.state with pc := a.state.pc + m, store := s } } r) :
    p.Computes (m + n) a r := by
  cases r with
  | ok s' => simpa only [Computes, Nat.add_assoc] using Goes.trans hfirst h
  | error f =>
    obtain ⟨k, b, hk, hgoes, hend⟩ := h
    exact ⟨m + k, b, Nat.add_lt_add_left hk m, Goes.trans hfirst hgoes, hend⟩

/-- A line that moves or counts is executed in one step. -/
theorem computes_effect (hline : p.lines[a.state.pc]? = some (.ok l)) (hl : l.isEffect = true) :
    p.Computes 1 a (l.effect a.state.store) := by
  have hstep : p.step a.state = p.execute { a.state with pc := a.state.pc + 1 } l := by
    rw [step, hline]
  cases l with
  | move target source =>
    refine .one ?_
    rw [after?, hstep]
    rfl
  | arith op target source =>
    simp only [execute] at hstep
    show p.Computes 1 a
      (a.state.store.set target <$> (a.state.store.get target).apply op (a.state.store.resolve source))
    cases hvalue : (a.state.store.get target).apply op (a.state.store.resolve source) with
    | ok v =>
      rw [hvalue] at hstep
      refine .one ?_
      rw [after?, hstep]
    | error f =>
      rw [hvalue] at hstep
      exact ⟨0, a, Nat.zero_lt_one, .refl a, hstep, rfl, rfl⟩
  | _ => cases hl

/-- **Lines that move and count are executed one after the other.** -/
theorem computes_effects (hcode : p.Holds a.state.pc code) (h : ∀ l ∈ code, l.isEffect = true) :
    p.Computes code.length a (code.foldlM Line.effect a.state.store) := by
  induction code generalizing a with
  | nil => exact .refl a
  | cons l code ih =>
    obtain ⟨hl, hrest⟩ := List.forall_mem_cons.mp h
    have hfirst := computes_effect hcode.head hl
    rw [List.foldlM_cons, List.length_cons, Nat.add_comm code.length]
    cases heffect : l.effect a.state.store with
    | ok s =>
      rw [heffect] at hfirst
      exact hfirst.after (ih hcode.tail hrest)
    | error f =>
      rw [heffect] at hfirst
      obtain ⟨m, b, hm, hend⟩ := hfirst
      exact ⟨m, b, Nat.lt_of_lt_of_le hm (Nat.le_add_right ..), hend⟩

theorem holds_of_placed {lines : List Line} (h : Placed lines k code) : (ofLines lines).Holds k code := by
  obtain ⟨before, after, rfl, rfl⟩ := h
  intro i l hl
  have hi := (List.getElem?_eq_some_iff.mp hl).1
  rw [lines_ofLines, List.append_assoc, List.getElem?_append_right (Nat.le_add_right ..), Nat.add_sub_cancel_left,
    List.getElem?_append_left hi, hl]

end Machine.Program

end Dotlang
