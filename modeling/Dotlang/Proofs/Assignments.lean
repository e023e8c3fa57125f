import Dotlang.Proofs.Accumulation
import Dotlang.Proofs.Handover

/-!
# What assignments and calls leave in the variables

The lines of an assignment count in its target, and those of a call count in the parameters, one after the other. So an
operand can be read when its variable has already changed.

* `WrittenAt text k code` : the code stands in a text from line `k` on;
* `InTime target words` : operands are read before the target changes;
* `assignment_leaves_value` : an assignment then leaves the value of its chain in the target;
* `later_operand_reads_target` : `x =. a -. x` leaves zero;
* `Spares x y` : giving a parameter its argument does not change another argument;
* `Bound params args s t` : `t` is `s` with the arguments bound to the parameters;
* `arguments_bound_by_value` : the lines before a call then bind its arguments by value;
* `swapped_arguments_are_lost` : `f(b, a)` gives the parameters `a` and `b` one value.
-/

namespace Dotlang

open Assembly (Line ArgumentWords accumulate bindAll lines)
open Machine (Program Scene IsOperand)
open Machine.Program (Goes)

/-! ## Lines in a text -/

namespace Machine

variable {text : String} {k : Nat} {code : List Line}

/-- The text has the code from line `k` on. -/
def WrittenAt (text : String) (k : Nat) (code : List Line) : Prop :=
  code.map (fun l => l.render.toList) <+: (textLines text).drop k

instance : Decidable (WrittenAt text k code) := inferInstanceAs (Decidable (_ <+: _))

/-- The machine reads the lines of a text as they were written. -/
theorem Program.holds_of_writtenAt (h : WrittenAt text k code) (hcode : ∀ l ∈ code, l.Readable) :
    (Program.ofText text).Holds k code := by
  intro i l hl
  obtain ⟨after, hafter⟩ := h
  have hline : (textLines text)[k + i]? = some l.render.toList := by
    rw [← List.getElem?_drop, ← hafter, List.getElem?_append_left, List.getElem?_map, hl, Option.map_some]
    rw [List.length_map]
    exact (List.getElem?_eq_some_iff.mp hl).1
  rw [getElem?_lines_ofText, hline, Option.map_some, Line.decode_render (hcode l (List.mem_of_getElem? hl))]

/-- Lines in a text that move and count are executed one after the other, and the others stand behind them. -/
theorem Program.computes_of_writtenAt {before after : List Line} {a : Scene}
    (h : WrittenAt text a.state.pc (before ++ after)) (hcode : ∀ l ∈ before ++ after, l.Readable)
    (hbefore : ∀ l ∈ before, l.isEffect = true) :
    (Program.ofText text).Holds (a.state.pc + before.length) after ∧
      (Program.ofText text).Computes before.length a (before.foldlM Line.effect a.state.store) := by
  have hholds := holds_of_writtenAt h hcode
  exact ⟨hholds.right, computes_effects hholds.left hbefore⟩

end Machine

/-! ## Assignments -/

instance (w name : String) : Decidable (Reads w name) := inferInstanceAs (Decidable (_ ∧ _))

/-- No operand reads the variable in which they are counted after it has changed. The second one may read it, if the
first one does and so leaves it as it is. -/
def InTime (target : String) : List String → Prop
  | first :: next :: later => (Reads next target → Reads first target) ∧ ∀ w ∈ later, ¬ Reads w target
  | _ => True

instance (target : String) : (words : List String) → Decidable (InTime target words)
  | [] | [_] => inferInstanceAs (Decidable True)
  | _ :: _ :: _ => inferInstanceAs (Decidable (_ ∧ _))

namespace Assembly

variable {target : String} {c : Chain}

/-- Operands that are read in time are read as in the store before. -/
theorem inPlace_eq_value (h : InTime target (c.operands.map Operand.lexeme)) (s : Store) :
    c.inPlace target s = c.value s := by
  obtain ⟨first, rest⟩ := c
  cases rest with
  | nil => rfl
  | cons x later =>
    obtain ⟨hnext, hlater⟩ := h
    have hx : (s.set target (s.resolve first.lexeme)).resolve x.2.lexeme = s.resolve x.2.lexeme := by
      by_cases hread : Reads x.2.lexeme target
      · rw [Store.resolve_of_reads hread, Store.get_set_self, Store.resolve_of_reads hread,
          Store.resolve_of_reads (hnext hread)]
      · exact Store.resolve_set_of_not_reads hread _
    have hunread : ∀ y ∈ later, ¬ Reads y.2.lexeme target := fun y hy =>
      hlater _ (List.mem_map_of_mem (List.mem_map_of_mem hy))
    show applyInPlace target s (s.resolve first.lexeme) (x :: later) = applyAll s (s.resolve first.lexeme) (x :: later)
    rw [applyInPlace, applyAll, hx]
    exact bind_congr fun v => applyInPlace_eq_applyAll hunread v

theorem foldlM_accumulate_inTime (h : InTime target (c.operands.map Operand.lexeme)) (s : Store) :
    (accumulate target c).foldlM Line.effect s = s.set target <$> c.value s := by
  rw [foldlM_accumulate_inPlace, inPlace_eq_value h]

end Assembly

/-- An assignment computes in its target, whatever its operands read. -/
theorem computes_assignment {text target : String} {c : Chain} {k n : Nat} {a : Scene}
    (hcode : Machine.WrittenAt text k ((lines (.assign target c)).run n).1) (ha : a.state.pc = k)
    (htarget : IsOperand target.toList) (hwords : ∀ o ∈ c.operands, IsOperand o.lexeme.toList) :
    (Program.ofText text).Computes (c.rest.length + 1) a
      (a.state.store.set target <$> c.inPlace target a.state.store) := by
  subst ha
  have hholds : (Program.ofText text).Holds a.state.pc (accumulate target c) :=
    Program.holds_of_writtenAt hcode fun l hl => (Assembly.proper_accumulate htarget hwords hl).readable
  have hlength : (accumulate target c).length = c.rest.length + 1 := by
    rw [accumulate, List.length_cons, List.length_map]
  rw [← hlength, ← Assembly.foldlM_accumulate_inPlace]
  exact Program.computes_effects hholds Assembly.isEffect_accumulate

/-- **Main result.** Wherever the lines of an assignment stand in a text, they leave the value of the chain in the
target and every other variable as it was, or fault as the value does. The value is that of the chain from left to right
in the store before the assignment. Its operands are read in time. -/
theorem assignment_leaves_value {text target : String} {c : Chain} {k n : Nat} {a : Scene}
    (hcode : Machine.WrittenAt text k ((lines (.assign target c)).run n).1) (ha : a.state.pc = k)
    (htarget : IsOperand target.toList) (hwords : ∀ o ∈ c.operands, IsOperand o.lexeme.toList)
    (hintime : InTime target (c.operands.map Operand.lexeme)) :
    (∀ v, c.value a.state.store = .ok v → ∃ t,
      Goes (.ofText text) (c.rest.length + 1) a
          { a with state := { a.state with pc := k + (c.rest.length + 1), store := t } } ∧
        t.get? target = some v ∧ ∀ name, name ≠ target → t.get? name = a.state.store.get? name) ∧
      ∀ f, c.value a.state.store = .error f → ∃ m b, m < c.rest.length + 1 ∧ Goes (.ofText text) m a b ∧
        (Program.ofText text).step b.state = .fault f ∧ b.seen = a.seen ∧ b.replies = a.replies := by
  have hcomputes := computes_assignment hcode ha htarget hwords
  rw [Assembly.inPlace_eq_value hintime] at hcomputes
  subst ha
  constructor
  · intro v hv
    rw [hv] at hcomputes
    refine ⟨_, hcomputes, ?_, fun name hname => ?_⟩
    · rw [Store.get?_set, if_pos rfl]
    · rw [Store.get?_set, if_neg hname]
  · intro f hf
    rw [hf] at hcomputes
    exact hcomputes

/-- Words of plain characters are operands. -/
theorem isOperand_of_plain {ws : List String} (h : ∀ w ∈ ws, w.toList ≠ [] ∧ w.toList.all Machine.isPlain = true) :
    ∀ w ∈ ws, IsOperand w.toList :=
  fun w hw => Or.inl ⟨(h w hw).1, List.all_eq_true.mp (h w hw).2⟩

/-- Before the first line, with the variables of a store. -/
def Machine.Scene.holding (s : Store) : Scene := ⟨⟨0, none, [], s⟩, [], []⟩

/-- The store in which the examples begin. -/
def fiveAndTwo : Store := ⟨[("x", .int 5), ("a", .int 2)]⟩

/-- The sum of `x` with itself, times `a`. -/
def doubling : Chain := ⟨⟨.identifier, "x"⟩, [(.arith .add, ⟨.identifier, "x"⟩), (.arith .mul, ⟨.identifier, "a"⟩)]⟩

theorem assignment_leaves_value_doubling :
    doubling.value fiveAndTwo = .ok (.int 20) ∧ InTime "x" (doubling.operands.map Operand.lexeme) ∧
      ∃ t, Goes (.ofText "MOV x, x\nADD x, x\nMUL x, a") 3 (.holding fiveAndTwo) ⟨⟨3, none, [], t⟩, [], []⟩ ∧
        t.get? "x" = some (.int 20) ∧ t.get? "a" = some (.int 2) := by
  have hcode : Machine.WrittenAt "MOV x, x\nADD x, x\nMUL x, a" 0 ((lines (.assign "x" doubling)).run 0).1 := by
    decide +kernel
  have hwords : ∀ w ∈ doubling.operands.map Operand.lexeme, IsOperand w.toList := isOperand_of_plain (by decide)
  have hoperands : ∀ o ∈ doubling.operands, IsOperand o.lexeme.toList := fun o ho => hwords _ (List.mem_map_of_mem ho)
  have hintime : InTime "x" (doubling.operands.map Operand.lexeme) := by decide +kernel
  have hvalue : doubling.value fiveAndTwo = .ok (.int 20) := by decide +kernel
  obtain ⟨t, hgoes, hx, hothers⟩ := (assignment_leaves_value (a := .holding fiveAndTwo) hcode rfl
    (hwords "x" (by decide)) hoperands hintime).1 (.int 20) hvalue
  exact ⟨hvalue, hintime, t, hgoes, hx, hothers "a" (by decide)⟩

/-- What `a` has more than `x`. -/
def surplus : Chain := ⟨⟨.identifier, "a"⟩, [(.arith .sub, ⟨.identifier, "x"⟩)]⟩

/-- **A later operand reads the target, which has changed.** Of `x =. a -. x` the first line gives `x` the value of `a`,
and the second one takes that from itself. -/
theorem later_operand_reads_target :
    surplus.value fiveAndTwo = .ok (.int (-3)) ∧
      Machine.WrittenAt "MOV x, a\nSUB x, x" 0 ((lines (.assign "x" surplus)).run 0).1 ∧
      ∃ t, Goes (.ofText "MOV x, a\nSUB x, x") 2 (.holding fiveAndTwo) ⟨⟨2, none, [], t⟩, [], []⟩ ∧
        t.get? "x" = some (.int 0) := by
  have hcode : Machine.WrittenAt "MOV x, a\nSUB x, x" 0 ((lines (.assign "x" surplus)).run 0).1 := by decide +kernel
  have hwords : ∀ w ∈ surplus.operands.map Operand.lexeme, IsOperand w.toList := isOperand_of_plain (by decide)
  have hoperands : ∀ o ∈ surplus.operands, IsOperand o.lexeme.toList := fun o ho => hwords _ (List.mem_map_of_mem ho)
  have hcomputes := computes_assignment (a := .holding fiveAndTwo) hcode rfl (hwords "x" (by decide)) hoperands
  have hinPlace : surplus.inPlace "x" (Scene.holding fiveAndTwo).state.store = .ok (.int 0) := by decide +kernel
  rw [hinPlace] at hcomputes
  exact ⟨by decide +kernel, hcode, _, hcomputes, by decide⟩

/-! ## Arguments -/

/-- The first parameter can be given its argument without a change to the second argument: this does not read the
parameter, or the parameter is given its own value. -/
def Spares (x y : String × Argument) : Prop :=
  ∀ w ∈ y.2.words, Reads w x.1 → x.2.words.length = 1 ∧ ∀ u ∈ x.2.words, Reads u x.1

instance (x y : String × Argument) : Decidable (Spares x y) := inferInstanceAs (Decidable (∀ _ ∈ _, _ → _))

/-- Of a store, the arguments bound by value, parameters without an argument set to zero, and the rest as it was. -/
structure Bound (params : List String) (args : List Argument) (s t : Store) : Prop where
  given : ∀ x ∈ params.zip args, ∃ v, x.2.evaluate s = .ok v ∧ t.get? x.1 = some v
  missing : ∀ param ∈ params.drop args.length, t.get? param = some (.int 0)
  others : ∀ name, name ∉ params → t.get? name = s.get? name

section Arguments

variable {param : String} {params : List String} {arg : Argument} {args : List Argument} {s t : Store} {v : Value}

theorem argumentWords_of_words (h : ∀ w ∈ arg.words, IsOperand w.toList) : ArgumentWords arg := by
  cases arg with
  | value c => exact fun o ho => h _ (List.mem_map_of_mem ho)
  | type word => exact h word List.mem_cons_self

theorem evaluate_of_words_singleton {u : String} (h : arg.words = [u]) (s : Store) :
    arg.evaluate s = .ok (s.resolve u) := by
  cases arg with
  | type word =>
    cases h
    rfl
  | value c =>
    obtain ⟨first, rest⟩ := c
    cases rest with
    | nil =>
      cases h
      rfl
    | cons x rest => cases h

theorem Spares.evaluate_eq {x y : String × Argument} (h : Spares x y) (hv : x.2.evaluate s = .ok v) :
    y.2.evaluate (s.set x.1 v) = y.2.evaluate s := by
  refine Argument.evaluate_congr fun w hw => ?_
  by_cases hread : Reads w x.1
  · obtain ⟨hlength, hown⟩ := h w hw hread
    obtain ⟨u, hu⟩ := List.length_eq_one_iff.mp hlength
    have hvalue : s.get x.1 = v := by
      rw [evaluate_of_words_singleton hu, Store.resolve_of_reads (hown u (hu ▸ List.mem_singleton_self u))] at hv
      exact Except.ok.inj hv
    rw [Store.resolve_of_reads hread, Store.resolve_of_reads hread, Store.get_set_self, hvalue]
  · exact Store.resolve_set_of_not_reads hread v

/-- A parameter whose argument reads it in time is set to the value of this. -/
theorem foldlM_bind_some (h : InTime param arg.words) (s : Store) :
    (Assembly.bind param (some arg)).foldlM Line.effect s = s.set param <$> arg.evaluate s := by
  cases arg with
  | value c => exact Assembly.foldlM_accumulate_inTime h s
  | type word => rfl

theorem foldlM_bind_none (param : String) (s : Store) :
    (Assembly.bind param none).foldlM Line.effect s = .ok (s.set param (.int 0)) := by
  have hzero : s.resolve "0" = .int 0 := by
    rw [Store.resolve, show Value.literal? (Text.withoutComma "0") = some (.int 0) by decide +kernel, Option.getD_some]
  rw [← hzero]
  rfl

/-- What is set before other parameters are bound stays. -/
theorem get?_of_others (hfresh : param ∉ params)
    (h : ∀ name, name ∉ params → t.get? name = (s.set param v).get? name) :
    t.get? param = some v ∧ ∀ name, name ∉ param :: params → t.get? name = s.get? name := by
  constructor
  · rw [h param hfresh, Store.get?_set, if_pos rfl]
  · intro name hname
    rw [List.mem_cons, not_or] at hname
    rw [h name hname.2, Store.get?_set, if_neg hname.1]

namespace Bound

theorem cons (hfresh : param ∉ params) (hv : arg.evaluate s = .ok v)
    (hkept : ∀ y ∈ params.zip args, y.2.evaluate (s.set param v) = y.2.evaluate s)
    (h : Bound params args (s.set param v) t) : Bound (param :: params) (arg :: args) s t := by
  obtain ⟨hparam, hothers⟩ := get?_of_others hfresh h.others
  refine ⟨List.forall_mem_cons.mpr ⟨⟨v, hv, hparam⟩, fun y hy => ?_⟩, h.missing, hothers⟩
  rw [← hkept y hy]
  exact h.given y hy

theorem cons_missing (hfresh : param ∉ params) (h : Bound params [] (s.set param (.int 0)) t) :
    Bound (param :: params) [] s t := by
  obtain ⟨hparam, hothers⟩ := get?_of_others hfresh h.others
  exact ⟨fun x hx => absurd hx List.not_mem_nil, List.forall_mem_cons.mpr ⟨hparam, h.missing⟩, hothers⟩

end Bound

/-- Parameters are bound one after the other as all at once, if no binding spoils an argument. -/
theorem bound_of_bindAll (hdistinct : params.Nodup) (hintime : ∀ x ∈ params.zip args, InTime x.1 x.2.words)
    (hspares : (params.zip args).Pairwise Spares)
    (hvalues : ∀ x ∈ params.zip args, ∃ v, x.2.evaluate s = .ok v) :
    ∃ t, (bindAll params args).foldlM Line.effect s = .ok t ∧ Bound params args s t := by
  induction params generalizing args s with
  | nil => exact ⟨s, rfl, fun x hx => absurd hx List.not_mem_nil, fun x hx => absurd hx (by simp), fun _ _ => rfl⟩
  | cons param params ih =>
    obtain ⟨hfresh, hdistinct⟩ := List.nodup_cons.mp hdistinct
    cases args with
    | nil =>
      obtain ⟨t, ht, hbound⟩ := @ih [] (s.set param (.int 0)) hdistinct (by simp) (by simp) (by simp)
      refine ⟨t, ?_, hbound.cons_missing hfresh⟩
      show (Assembly.bind param none ++ bindAll params []).foldlM Line.effect s = _
      rw [List.foldlM_append, foldlM_bind_none]
      exact ht
    | cons arg args =>
      rw [List.zip_cons_cons] at hintime hspares hvalues
      obtain ⟨hfirst, hintime⟩ := List.forall_mem_cons.mp hintime
      obtain ⟨hspared, hspares⟩ := List.pairwise_cons.mp hspares
      obtain ⟨⟨v, hv⟩, hvalues⟩ := List.forall_mem_cons.mp hvalues
      have hkept : ∀ y ∈ params.zip args, y.2.evaluate (s.set param v) = y.2.evaluate s := fun y hy =>
        (hspared y hy).evaluate_eq hv
      obtain ⟨t, ht, hbound⟩ := ih hdistinct (s := s.set param v) hintime hspares fun y hy => by
        rw [hkept y hy]
        exact hvalues y hy
      refine ⟨t, ?_, hbound.cons hfresh hv hkept⟩
      show (Assembly.bind param (some arg) ++ bindAll params args).foldlM Line.effect s = _
      rw [List.foldlM_append, foldlM_bind_some hfirst, hv]
      exact ht

end Arguments

/-- The lines before a call compute in its parameters, whatever the arguments read. -/
theorem computes_bindAll {text name : String} {params : List String} {args : List Argument} {k n : Nat} {a : Scene}
    (hcode : Machine.WrittenAt text k ((lines (.call name args (some params))).run n).1) (ha : a.state.pc = k)
    (hname : IsOperand name.toList) (hparams : ∀ param ∈ params, IsOperand param.toList)
    (hwords : ∀ arg ∈ args, ∀ w ∈ arg.words, IsOperand w.toList) :
    (Program.ofText text).lines[k + (bindAll params args).length]? = some (.ok (.call name [])) ∧
      (Program.ofText text).Computes (bindAll params args).length a
        ((bindAll params args).foldlM Line.effect a.state.store) := by
  subst ha
  have hargs : ∀ arg ∈ args, ArgumentWords arg := fun arg harg => argumentWords_of_words (hwords arg harg)
  have hreadable : ∀ l ∈ bindAll params args ++ [.call name []], l.Readable := by
    intro l hl
    rcases List.mem_append.mp hl with hl | hl
    · exact (Assembly.proper_bindAll hparams hargs hl).readable
    · rw [List.mem_singleton.mp hl]
      exact Line.readable_instruction rfl (List.forall_mem_singleton.mpr hname)
  have hcomputes := Program.computes_of_writtenAt hcode hreadable (Assembly.isEffect_bindAll params args)
  exact hcomputes.imp_left Program.Holds.head

/-- **Main result.** Wherever the lines of a call stand in a text, the machine gets to the call itself with each
argument bound by value: a parameter has what its argument is worth in the store before the first of these lines,
parameters without an argument are zero, and other variables are as they were. Each argument is read before its own
parameter changes, and no binding changes a later argument. -/
theorem arguments_bound_by_value {text name : String} {params : List String} {args : List Argument} {k n : Nat}
    {a : Scene} (hcode : Machine.WrittenAt text k ((lines (.call name args (some params))).run n).1)
    (ha : a.state.pc = k) (hname : IsOperand name.toList) (hparams : ∀ param ∈ params, IsOperand param.toList)
    (hwords : ∀ arg ∈ args, ∀ w ∈ arg.words, IsOperand w.toList) (hdistinct : params.Nodup)
    (hintime : ∀ x ∈ params.zip args, InTime x.1 x.2.words) (hspares : (params.zip args).Pairwise Spares)
    (hvalues : ∀ x ∈ params.zip args, ∃ v, x.2.evaluate a.state.store = .ok v) :
    ∃ t, Goes (.ofText text) (bindAll params args).length a
        { a with state := { a.state with pc := k + (bindAll params args).length, store := t } } ∧
      (Program.ofText text).lines[k + (bindAll params args).length]? = some (.ok (.call name [])) ∧
      Bound params args a.state.store t := by
  obtain ⟨hcall, hcomputes⟩ := computes_bindAll hcode ha hname hparams hwords
  obtain ⟨t, ht, hbound⟩ := bound_of_bindAll hdistinct hintime hspares hvalues
  rw [ht] at hcomputes
  subst ha
  exact ⟨t, hcomputes, hcall, hbound⟩

/-- The text of a call whose second parameter is given its own value, and whose third one is given none. -/
def bindingThree : String := "MOV p, a\nMUL p, x\nMOV x, x\nMOV q, 0\nCALL f"

/-- The arguments of that call. -/
def productAndItself : List Argument :=
  [.value ⟨⟨.identifier, "a"⟩, [(.arith .mul, ⟨.identifier, "x"⟩)]⟩, .value ⟨⟨.identifier, "x"⟩, []⟩]

theorem arguments_bound_by_value_bindingThree :
    Machine.WrittenAt bindingThree 0 ((lines (.call "f" productAndItself (some ["p", "x", "q"]))).run 0).1 ∧
      ∃ t, Goes (.ofText bindingThree) 4 (.holding fiveAndTwo) ⟨⟨4, none, [], t⟩, [], []⟩ ∧
        t.get? "p" = some (.int 10) ∧ t.get? "x" = some (.int 5) ∧ t.get? "q" = some (.int 0) ∧
        t.get? "a" = some (.int 2) := by
  have hcode : Machine.WrittenAt bindingThree 0
      ((lines (.call "f" productAndItself (some ["p", "x", "q"]))).run 0).1 := by decide +kernel
  have hplain : ∀ w ∈ ["f", "p", "x", "q", "a"], IsOperand w.toList := isOperand_of_plain (by decide)
  have hparams : ∀ param ∈ ["p", "x", "q"], IsOperand param.toList := fun param h =>
    hplain param ((by decide : ∀ param ∈ ["p", "x", "q"], param ∈ ["f", "p", "x", "q", "a"]) param h)
  have hwords : ∀ arg ∈ productAndItself, ∀ w ∈ arg.words, IsOperand w.toList := fun arg harg w hw =>
    hplain w ((by decide : ∀ arg ∈ productAndItself, ∀ w ∈ arg.words, w ∈ ["f", "p", "x", "q", "a"]) arg harg w hw)
  have hintime : ∀ x ∈ ["p", "x", "q"].zip productAndItself, InTime x.1 x.2.words := by decide +kernel
  have hspares : (["p", "x", "q"].zip productAndItself).Pairwise Spares := by decide +kernel
  have hproduct : (productAndItself[0]).evaluate fiveAndTwo = .ok (.int 10) := by decide +kernel
  have hitself : (productAndItself[1]).evaluate fiveAndTwo = .ok (.int 5) := by decide +kernel
  have hvalues : ∀ x ∈ ["p", "x", "q"].zip productAndItself, ∃ v, x.2.evaluate fiveAndTwo = .ok v :=
    List.forall_mem_cons.mpr ⟨⟨_, hproduct⟩, List.forall_mem_singleton.mpr ⟨_, hitself⟩⟩
  obtain ⟨t, hgoes, -, hbound⟩ := arguments_bound_by_value (a := .holding fiveAndTwo) hcode rfl (hplain "f" (by decide))
    hparams hwords (by decide) hintime hspares hvalues
  have hp : t.get? "p" = some (.int 10) := by
    obtain ⟨v, hv, ht⟩ := hbound.given ("p", productAndItself[0]) List.mem_cons_self
    rwa [Except.ok.inj (hv.symm.trans hproduct)] at ht
  have hx : t.get? "x" = some (.int 5) := by
    obtain ⟨v, hv, ht⟩ := hbound.given ("x", productAndItself[1]) (List.mem_cons_of_mem _ List.mem_cons_self)
    rwa [Except.ok.inj (hv.symm.trans hitself)] at ht
  have hq : t.get? "q" = some (.int 0) := hbound.missing "q" List.mem_cons_self
  exact ⟨hcode, t, hgoes, hp, hx, hq, hbound.others "a" (by decide)⟩

/-- The arguments of a call, of which the second one reads the first parameter. -/
def swapped : List Argument := [.value ⟨⟨.identifier, "x"⟩, []⟩, .value ⟨⟨.identifier, "a"⟩, []⟩]

/-- **A later argument reads an earlier parameter, which has been bound.** A call that swaps `a` and `x` gives both of
them the value of `x`. -/
theorem swapped_arguments_are_lost :
    Machine.WrittenAt "MOV a, x\nMOV x, a\nCALL f" 0 ((lines (.call "f" swapped (some ["a", "x"]))).run 0).1 ∧
      swapped.map (Argument.evaluate fiveAndTwo) = [.ok (.int 5), .ok (.int 2)] ∧
      ∃ t, Goes (.ofText "MOV a, x\nMOV x, a\nCALL f") 2 (.holding fiveAndTwo) ⟨⟨2, none, [], t⟩, [], []⟩ ∧
        t.get? "a" = some (.int 5) ∧ t.get? "x" = some (.int 5) := by
  have hcode : Machine.WrittenAt "MOV a, x\nMOV x, a\nCALL f" 0
      ((lines (.call "f" swapped (some ["a", "x"]))).run 0).1 := by decide +kernel
  have hplain : ∀ w ∈ ["f", "a", "x"], IsOperand w.toList := isOperand_of_plain (by decide)
  have hparams : ∀ param ∈ ["a", "x"], IsOperand param.toList := fun param h => hplain param (List.mem_cons_of_mem _ h)
  have hwords : ∀ arg ∈ swapped, ∀ w ∈ arg.words, IsOperand w.toList := fun arg harg w hw =>
    hplain w ((by decide : ∀ arg ∈ swapped, ∀ w ∈ arg.words, w ∈ ["f", "a", "x"]) arg harg w hw)
  have hcomputes := (computes_bindAll (a := .holding fiveAndTwo) hcode rfl (hplain "f" (by decide)) hparams hwords).2
  have hstore : (bindAll ["a", "x"] swapped).foldlM Line.effect (Scene.holding fiveAndTwo).state.store =
      .ok ⟨[("x", .int 5), ("a", .int 5)]⟩ := by decide +kernel
  rw [hstore] at hcomputes
  exact ⟨hcode, by decide +kernel, _, hcomputes, by decide, by decide⟩

end Dotlang
