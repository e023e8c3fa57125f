import Dotlang.Proofs.Temporaries

/-!
# The shape of three-address code

A temporary is written where it is numbered, and read behind that in the code of the same instruction.

* `Quad.names`, `Quad.reads`, `Quad.write?` : the texts in an instruction, the operands that it reads, and the name that
  it writes;
* `numbers n m` : the names of the temporaries behind number `n`, up to number `m`;
* `Introduces n m qs l` : `qs` writes the temporaries from `m` to `l` one after the other, and reads none but those
  behind `n` that are written before. One lemma for each way to reduce chains;
* `eraseDups_of_introduces`, `written_of_introduces` : so they appear in their order, and no read comes before a write;
* `chainCode`, `chainAddress`, `run_quads_assign` : the code of an assignment, written out, and the number behind it;
* `exists_instruction_of_split` : every instruction of the code is in the code of an instruction of the source;
* `Shaped`, `generate_shaped` : what code looks like where no name of the source is like that of a temporary.
-/

namespace Dotlang

open ThreeAddress (Quad isTemporary)

/-- The names and operands of the source in an instruction. Parameters and data types are not written out. -/
def Instruction.names (i : Instruction) : List String :=
  (match i with
    | .assign target _ => [target]
    | .call name _ _ | .functionBegin name => [name]
    | _ => []) ++ i.words

namespace ThreeAddress

/-! ## Texts in an instruction -/

namespace Quad

/-- All texts in an instruction, as a report lists them. -/
def names (q : Quad) : List String := [q.fields.arg1, q.fields.arg2, q.fields.result].reduceOption

/-- The operands that an instruction reads. -/
def reads : Quad → List String
  | .assign source _ => [source]
  | .binary _ left right _ | .compare left right => [left, right]
  | .param value => [value]
  | _ => []

/-- The name that an instruction writes. -/
def write? : Quad → Option String
  | .assign _ result | .binary _ _ _ result => some result
  | _ => none

def isBinary : Quad → Bool
  | .binary .. => true
  | _ => false

theorem names_of_write? {q : Quad} {result : String} (h : q.write? = some result) : q.names = q.reads ++ [result] := by
  cases q <;> cases h <;> rfl

theorem mem_names_of_mem_reads {q : Quad} {w : String} (h : w ∈ q.reads) : w ∈ q.names := by
  cases q with
  | assign _ result | binary _ _ _ result => exact List.mem_append_left [result] h
  | compare | param => exact h
  | _ => exact absurd h List.not_mem_nil

end Quad

theorem isTemporary_of_toList {w : String} {c : Char} {cs : List Char} (h : w.toList = c :: cs) (hc : c ≠ 't') :
    isTemporary w = false := by
  unfold isTemporary
  rw [h]
  split
  · rename_i heq
    cases heq
    exact absurd rfl hc
  · rfl

theorem isTemporary_label (l : Label) : isTemporary l.name = false := by
  have hname : l.name.toList = 'L' :: (toString l.index).toList := String.toList_append ..
  exact isTemporary_of_toList hname (by decide)

theorem isTemporary_count (n : Nat) : isTemporary (toString n) = false := by
  cases hdigits : (toString n).toList with
  | nil =>
    rw [isTemporary, hdigits]
  | cons c cs =>
    refine isTemporary_of_toList hdigits ?_
    rintro rfl
    rw [Nat.toString_eq_repr, Nat.toList_repr] at hdigits
    have hdigit : 't'.isDigit = true :=
      Nat.isDigit_of_mem_toDigits (by decide) (by decide) (hdigits ▸ List.mem_cons_self)
    exact absurd hdigit (by decide)

/-! ## Numbers in order -/

/-- The temporaries behind number `n`, up to number `m`. -/
def numbers (n m : Nat) : List String := (List.range' (n + 1) (m - n)).map fun k => "t" ++ toString k

variable {n m l : Nat} {qs qs' : List Quad}

theorem mem_numbers {w : String} : w ∈ numbers n m ↔ Between n m w := by
  unfold numbers Between
  rw [List.mem_map]
  constructor
  · rintro ⟨k, hk, rfl⟩
    rw [List.mem_range'_1] at hk
    exact ⟨k, by omega, by omega, rfl⟩
  · rintro ⟨k, hn, hm, rfl⟩
    exact ⟨k, List.mem_range'_1.mpr (by omega), rfl⟩

/-- A temporary has one number only. -/
theorem not_between_of_between {w : String} (h : Between m l w) : ¬ Between n m w := by
  rintro ⟨k, -, hle, rfl⟩
  obtain ⟨k', hlt, -, heq⟩ := h
  exact absurd (numbered_injective "t" heq) (hle.trans_lt hlt).ne

theorem numbers_append (hnm : n ≤ m) (hml : m ≤ l) : numbers n m ++ numbers m l = numbers n l := by
  have hstart : m + 1 = n + 1 + 1 * (m - n) := by omega
  have hlength : l - n = m - n + (l - m) := by omega
  rw [numbers, numbers, numbers, ← List.map_append, hstart, List.range'_append, hlength]

theorem numbers_self (n : Nat) : numbers n n = [] := by rw [numbers, Nat.sub_self, List.range'_zero, List.map_nil]

theorem numbers_succ (n : Nat) : numbers n (n + 1) = ["t" ++ toString (n + 1)] := by
  rw [numbers, Nat.add_sub_cancel_left]
  rfl

theorem numbers_cons (n k : Nat) :
    numbers n (n + (k + 1)) = ("t" ++ toString (n + 1)) :: numbers (n + 1) (n + 1 + k) := by
  rw [← numbers_append (Nat.le_succ n) (by omega), numbers_succ, List.singleton_append, Nat.add_comm k, Nat.add_assoc]

theorem length_numbers (n k : Nat) : (numbers n (n + k)).length = k := by
  rw [numbers, List.length_map, List.length_range', Nat.add_sub_cancel_left]

theorem temporaries_eq_numbers (is : List Instruction) : temporaries is = numbers 0 (temporaryCount is) := by
  rw [temporaries, numbers, Nat.sub_zero, List.range'_eq_map_range, List.map_map]
  refine List.map_congr_left fun k _ => ?_
  rw [Function.comp_apply, Nat.zero_add, Nat.add_comm]

/-! ## Temporaries in code -/

/-- If it is a temporary, then one of these. -/
def Known (n m : Nat) (w : String) : Prop := isTemporary w = true → Between n m w

theorem Known.of_other {w : String} (h : isTemporary w = false) : Known n m w := fun htrue => by
  rw [h] at htrue
  cases htrue

theorem Known.next (hnm : n ≤ m) : Known n (m + 1) ("t" ++ toString (m + 1)) :=
  fun _ => ⟨m + 1, Nat.lt_succ_of_le hnm, Nat.le_refl _, rfl⟩

theorem Known.one {x : String} (hx : Known n m x) : ∀ w ∈ [x], Known n m w := List.forall_mem_singleton.mpr hx

theorem Known.two {x y : String} (hx : Known n m x) (hy : Known n m y) : ∀ w ∈ [x, y], Known n m w :=
  List.forall_mem_cons.mpr ⟨hx, hy.one⟩

theorem Known.three {x y z : String} (hx : Known n m x) (hy : Known n m y) (hz : Known n m z) :
    ∀ w ∈ [x, y, z], Known n m w := List.forall_mem_cons.mpr ⟨hx, hy.two hz⟩

theorem Known.mono {w : String} (h : Known n m w) (hml : m ≤ l) : Known n l w := fun ht => by
  obtain ⟨k, hn, hm, rfl⟩ := h ht
  exact ⟨k, hn, hm.trans hml, rfl⟩

/-- The temporaries from `m` to `l` are written one after the other, and none is read or written again but those behind
`n` that are there already. -/
inductive Introduces (n : Nat) : Nat → List Quad → Nat → Prop where
  | nil (m : Nat) : Introduces n m [] m
  | old {m l : Nat} {q : Quad} {qs : List Quad} (hq : ∀ w ∈ q.names, Known n m w) (h : Introduces n m qs l) :
      Introduces n m (q :: qs) l
  | new {m l : Nat} {q : Quad} {qs : List Quad} (hreads : ∀ w ∈ q.reads, Known n m w)
      (hwrite : q.write? = some ("t" ++ toString (m + 1))) (h : Introduces n (m + 1) qs l) :
      Introduces n m (q :: qs) l

namespace Introduces

theorem le (h : Introduces n m qs l) : m ≤ l := by
  induction h with
  | nil m => exact Nat.le_refl m
  | old _ _ ih => exact ih
  | new _ _ _ ih => exact Nat.le_of_succ_le ih

theorem trans {k : Nat} (h : Introduces n m qs l) (h' : Introduces n l qs' k) : Introduces n m (qs ++ qs') k := by
  induction h with
  | nil m => exact h'
  | old hq _ ih => exact .old hq (ih h')
  | new hreads hwrite _ ih => exact .new hreads hwrite (ih h')

theorem of_old (h : ∀ q ∈ qs, ∀ w ∈ q.names, Known n m w) : Introduces n m qs m := by
  induction qs with
  | nil => exact .nil m
  | cons q qs ih =>
    obtain ⟨hq, hqs⟩ := List.forall_mem_cons.mp h
    exact .old hq (ih hqs)

/-- Code that only writes a name of the source. -/
theorem one {q : Quad} (h : ∀ w ∈ q.names, Known n m w) : Introduces n m [q] m := .old h (.nil m)

end Introduces

/-! ### Chains and arguments -/

/-- No operand of the chain is called as a temporary. -/
def FromSource (c : Chain) : Prop := ∀ o ∈ c.operands, isTemporary o.lexeme = false

theorem introduces_reduceTerms {terms : List (Operator × Operand)} {left : String} (hnm : n ≤ m)
    (hleft : Known n m left) (hterms : ∀ x ∈ terms, isTemporary x.2.lexeme = false) :
    Introduces n m ((reduceTerms left terms).run m).1.1 ((reduceTerms left terms).run m).2 ∧
      Known n ((reduceTerms left terms).run m).2 ((reduceTerms left terms).run m).1.2 := by
  induction terms generalizing left m with
  | nil => exact ⟨.nil m, hleft⟩
  | cons x terms ih =>
    obtain ⟨hx, hterms⟩ := List.forall_mem_cons.mp hterms
    obtain ⟨hrest, haddress⟩ := ih (Nat.le_succ_of_le hnm) (Known.next hnm) hterms
    exact ⟨.new (hleft.two (.of_other hx)) rfl hrest, haddress⟩

theorem introduces_reduce {c : Chain} (hnm : n ≤ m) (hc : FromSource c) :
    Introduces n m ((reduce c).run m).1.1 ((reduce c).run m).2 ∧
      Known n ((reduce c).run m).2 ((reduce c).run m).1.2 :=
  introduces_reduceTerms hnm (.of_other (hc _ List.mem_cons_self))
    fun x hx => hc x.2 (List.mem_cons_of_mem _ (List.mem_map_of_mem hx))

theorem introduces_reduceInPlace {c : Chain} (hnm : n ≤ m) (hc : FromSource c) :
    Introduces n m ((reduceInPlace c).run m).1.1 ((reduceInPlace c).run m).2 ∧
      Known n ((reduceInPlace c).run m).2 ((reduceInPlace c).run m).1.2 := by
  have hfirst := hc _ List.mem_cons_self
  unfold reduceInPlace
  split
  · exact ⟨.nil m, .of_other hfirst⟩
  · have htemporary := Known.next hnm
    refine ⟨.new (Known.of_other hfirst).one rfl (.of_old fun q hq => ?_), htemporary⟩
    obtain ⟨x, hx, rfl⟩ := List.mem_map.mp hq
    have hoperand := hc x.2 (List.mem_cons_of_mem _ (List.mem_map_of_mem hx))
    exact htemporary.three (.of_other hoperand) htemporary

theorem introduces_reduceAll {args : List Argument} (hnm : n ≤ m)
    (hargs : ∀ a ∈ args, ∀ c, a.chain? = some c → FromSource c) :
    Introduces n m ((reduceAll args).run m).1.1 ((reduceAll args).run m).2 ∧
      ∀ w ∈ ((reduceAll args).run m).1.2, Known n ((reduceAll args).run m).2 w := by
  induction args generalizing m with
  | nil => exact ⟨.nil m, List.forall_mem_nil _⟩
  | cons a args ih =>
    obtain ⟨ha, hothers⟩ := List.forall_mem_cons.mp hargs
    cases a with
    | type word => exact ih hnm hothers
    | value c =>
      obtain ⟨hfirst, haddress⟩ := introduces_reduce hnm (ha c rfl)
      obtain ⟨hrest, haddresses⟩ := ih (hnm.trans hfirst.le) hothers
      exact ⟨hfirst.trans hrest, List.forall_mem_cons.mpr ⟨haddress.mono hrest.le, haddresses⟩⟩

/-! ### Instructions -/

/-- Every instruction numbers its own temporaries, and reads no other ones. -/
theorem introduces_quads {i : Instruction} (hnames : ∀ w ∈ i.names, isTemporary w = false) (n : Nat) :
    Introduces n n ((quads i).run n).1 ((quads i).run n).2 := by
  have hlabel : ∀ {m : Nat} (l : Label), Known n m l.name := fun l => .of_other (isTemporary_label l)
  cases i with
  | assign target c =>
    obtain ⟨htarget, hwords⟩ := List.forall_mem_cons.mp hnames
    obtain ⟨hreduce, haddress⟩ := introduces_reduce (Nat.le_refl n) fun o ho => hwords _ (List.mem_map_of_mem ho)
    exact hreduce.trans (.one (haddress.two (.of_other htarget)))
  | step target op o =>
    obtain ⟨htarget, ho⟩ := List.forall_mem_cons.mp hnames
    have htemporary : Known n (n + 1) ("t" ++ toString (n + 1)) := Known.next (Nat.le_refl n)
    have ho' : Known n (n + 1) o.lexeme := .of_other (ho _ List.mem_cons_self)
    -- the target is copied, the copy is changed in place, and copied back
    refine .new (Known.of_other htarget).one rfl (.of_old ?_)
    refine List.forall_mem_cons.mpr ⟨htemporary.three ho' htemporary, List.forall_mem_singleton.mpr ?_⟩
    exact htemporary.two (.of_other htarget)
  | compare cond relation label =>
    obtain ⟨hrhs, hlhs⟩ := List.forall_mem_cons.mp hnames
    obtain ⟨hreduce, haddress⟩ := introduces_reduceInPlace (Nat.le_refl n) fun o ho => hlhs _ (List.mem_map_of_mem ho)
    refine hreduce.trans (.of_old ?_)
    exact List.forall_mem_cons.mpr ⟨haddress.two (.of_other hrhs), List.forall_mem_singleton.mpr (hlabel label).one⟩
  | jump label | label label => exact .one (hlabel label).one
  | call name args params =>
    obtain ⟨hname, hwords⟩ := List.forall_mem_cons.mp hnames
    have hargs : ∀ a ∈ args, ∀ c, a.chain? = some c → FromSource c := by
      intro a ha c hc o ho
      refine hwords _ (List.mem_flatMap.mpr ⟨a, List.mem_filter.mpr ⟨ha, by rw [hc]; rfl⟩, ?_⟩)
      cases a <;> cases hc
      exact List.mem_map_of_mem ho
    obtain ⟨hreduce, haddresses⟩ := introduces_reduceAll (Nat.le_refl n) hargs
    refine (hreduce.trans (.of_old fun q hq => ?_)).trans (.one ((Known.of_other hname).two ?_))
    · obtain ⟨address, haddress, rfl⟩ := List.mem_map.mp hq
      exact (haddresses _ haddress).one
    · exact .of_other (isTemporary_count _)
  | functionBegin name => exact .one (Known.of_other (hnames _ List.mem_cons_self)).one
  | functionEnd => exact .one (List.forall_mem_nil _)

/-! ## Order of appearance -/

section Order

variable {xs ys : List String}

theorem eraseDups_append_of_subset (h : ∀ w ∈ ys, w ∈ xs) : (xs ++ ys).eraseDups = xs.eraseDups := by
  have hnone : ys.removeAll xs = [] := by
    refine List.filter_eq_nil_iff.mpr fun w hw => ?_
    simpa using h w hw
  rw [List.eraseDups_append, hnone, List.eraseDups_nil, List.append_nil]

theorem eraseDups_append_of_apart (h : ∀ w ∈ ys, w ∉ xs) : (xs ++ ys).eraseDups = xs.eraseDups ++ ys.eraseDups := by
  have hall : ys.removeAll xs = ys := by
    refine List.filter_eq_self.mpr fun w hw => ?_
    simpa using h w hw
  rw [List.eraseDups_append, hall]

end Order

/-- The temporaries that are named in some code, wherever they are. -/
def mentioned (qs : List Quad) : List String := (qs.flatMap Quad.names).filter isTemporary

theorem mentioned_append (qs qs' : List Quad) : mentioned (qs ++ qs') = mentioned qs ++ mentioned qs' := by
  rw [mentioned, List.flatMap_append, List.filter_append, mentioned, mentioned]

theorem mentioned_cons (q : Quad) (qs : List Quad) :
    mentioned (q :: qs) = q.names.filter isTemporary ++ mentioned qs := by
  rw [mentioned, List.flatMap_cons, List.filter_append, mentioned]

/-- Temporaries appear in the order of their numbers. -/
theorem eraseDups_of_introduces (h : Introduces n m qs l) (hnm : n ≤ m) {seen : List String}
    (hseen : seen.eraseDups = numbers n m) : (seen ++ mentioned qs).eraseDups = numbers n l := by
  have hmem : ∀ {seen : List String} {m : Nat}, seen.eraseDups = numbers n m → ∀ w, w ∈ seen ↔ Between n m w := by
    intro seen m hseen w
    rw [← mem_numbers, ← hseen, List.mem_eraseDups]
  -- what is known already adds nothing
  have hknown : ∀ {seen : List String} {m : Nat}, seen.eraseDups = numbers n m → ∀ ws : List String,
      (∀ w ∈ ws, Known n m w) → (seen ++ ws.filter isTemporary).eraseDups = numbers n m := by
    intro seen m hseen ws hws
    rw [eraseDups_append_of_subset, hseen]
    intro w hw
    obtain ⟨hw, htemporary⟩ := List.mem_filter.mp hw
    exact (hmem hseen w).mpr (hws w hw htemporary)
  induction h generalizing seen with
  | nil m => rwa [mentioned, List.flatMap_nil, List.filter_nil, List.append_nil]
  | @old m l q qs hq _ ih =>
    rw [mentioned_cons, ← List.append_assoc]
    exact ih hnm (hknown hseen q.names hq)
  | @new m l q qs hreads hwrite _ ih =>
    rw [mentioned_cons, ← List.append_assoc]
    refine ih (Nat.le_succ_of_le hnm) ?_
    have hbefore := hknown hseen q.reads hreads
    rw [Quad.names_of_write? hwrite, List.filter_append, ← List.append_assoc,
      List.filter_cons_of_pos (isTemporary_numbered (m + 1)), List.filter_nil, eraseDups_append_of_apart, hbefore,
      ← numbers_append hnm (Nat.le_succ m), numbers_succ]
    · rfl
    · intro w hw hmem'
      rw [← numbers_succ] at hw
      exact not_between_of_between (mem_numbers.mp hw) ((hmem hbefore w).mp hmem')

/-- The temporaries of a program appear in the order of their numbers. -/
theorem eraseDups_quadsAll {is : List Instruction} (hnames : ∀ i ∈ is, ∀ w ∈ i.names, isTemporary w = false)
    (n : Nat) : (mentioned ((quadsAll is).run n).1).eraseDups = numbers n ((quadsAll is).run n).2 := by
  induction is generalizing n with
  | nil => exact (numbers_self n).symm
  | cons i is ih =>
    obtain ⟨hi, his⟩ := List.forall_mem_cons.mp hnames
    have hstart : ([] : List String).eraseDups = numbers n n := (numbers_self n).symm
    have hfirst := eraseDups_of_introduces (introduces_quads hi n) (Nat.le_refl n) hstart
    rw [List.nil_append] at hfirst
    have hrest := ih his ((quads i).run n).2
    show (mentioned (((quads i).run n).1 ++ ((quadsAll is).run ((quads i).run n).2).1)).eraseDups =
      numbers n ((quadsAll is).run ((quads i).run n).2).2
    rw [mentioned_append, eraseDups_append_of_apart, hfirst, hrest, numbers_append (le_quads i n) (le_quadsAll is _)]
    intro w hw hw'
    rw [← List.mem_eraseDups, hrest, mem_numbers] at hw
    rw [← List.mem_eraseDups, hfirst, mem_numbers] at hw'
    exact not_between_of_between hw hw'

/-! ## Reads and writes -/

/-- A temporary is written before it is read. -/
theorem written_of_introduces (h : Introduces n m qs l) {earlier : List Quad}
    (hearlier : ∀ w, Between n m w → ∃ q ∈ earlier, q.write? = some w) {before after : List Quad} {q : Quad}
    (hsplit : qs = before ++ q :: after) {w : String} (hw : w ∈ q.reads) (htemporary : isTemporary w = true) :
    ∃ q' ∈ earlier ++ before, q'.write? = some w := by
  induction h generalizing earlier before with
  | nil m => exact absurd hsplit (by simp)
  | @old m l q' qs hq' _ ih =>
    cases before with
    | nil =>
      cases hsplit
      rw [List.append_nil]
      exact hearlier w (hq' w (Quad.mem_names_of_mem_reads hw) htemporary)
    | cons q'' before =>
      cases hsplit
      have hmore : ∀ w, Between n m w → ∃ q ∈ earlier ++ [q'], q.write? = some w := fun w hw => by
        obtain ⟨q, hq, hwrite⟩ := hearlier w hw
        exact ⟨q, List.mem_append_left _ hq, hwrite⟩
      have hfound := ih hmore rfl
      rwa [List.append_assoc] at hfound
  | @new m l q' qs hreads hwrite _ ih =>
    cases before with
    | nil =>
      cases hsplit
      rw [List.append_nil]
      exact hearlier w (hreads w hw htemporary)
    | cons q'' before =>
      cases hsplit
      have hmore : ∀ w, Between n (m + 1) w → ∃ q ∈ earlier ++ [q'], q.write? = some w := by
        rintro w ⟨k, hn, hle, rfl⟩
        rcases Nat.le_succ_iff.mp hle with hle | rfl
        · obtain ⟨q, hq, hwrite'⟩ := hearlier _ ⟨k, hn, hle, rfl⟩
          exact ⟨q, List.mem_append_left _ hq, hwrite'⟩
        · exact ⟨q', List.mem_append_right _ List.mem_cons_self, hwrite⟩
      have hfound := ih hmore rfl
      rwa [List.append_assoc] at hfound

/-! ## Assignments and calls -/

/-- One operation for each term. Each reads what the one before has written, and writes the next of the names. -/
def chained (left : String) (terms : List (Operator × Operand)) (names : List String) : List Quad :=
  List.zipWith (fun x ends => .binary x.1 ends.1 x.2.lexeme ends.2) terms ((left :: names).zip names)

/-- The code of a chain behind number `n`. -/
def chainCode (n : Nat) (c : Chain) : List Quad := chained c.first.lexeme c.rest (numbers n (n + c.rest.length))

/-- Where the code of a chain leaves its value: the last of its temporaries, or its only operand. -/
def chainAddress (n : Nat) (c : Chain) : String := (numbers n (n + c.rest.length)).getLastD c.first.lexeme

section Chained

variable {left : String} {terms : List (Operator × Operand)} {names : List String}

theorem length_chained (h : names.length = terms.length) : (chained left terms names).length = terms.length := by
  rw [chained, List.length_zipWith, List.length_zip, List.length_cons, h]
  omega

theorem isBinary_of_mem_chained {q : Quad} (hq : q ∈ chained left terms names) : q.isBinary = true := by
  rw [chained, ← List.map_uncurry_zip_eq_zipWith] at hq
  obtain ⟨x, -, rfl⟩ := List.mem_map.mp hq
  rfl

theorem writes_chained (h : names.length = terms.length) :
    (chained left terms names).map Quad.write? = names.map some := by
  induction terms generalizing left names with
  | nil => rw [List.length_eq_zero_iff.mp h]; rfl
  | cons x terms ih =>
    obtain ⟨name, names, rfl⟩ := List.exists_cons_of_length_eq_add_one h
    exact congrArg (some name :: ·) (ih (Nat.succ.inj h))

end Chained

/-- Terms are reduced to one operation each, and number one temporary each. -/
theorem run_reduceTerms (left : String) (terms : List (Operator × Operand)) (n : Nat) :
    (reduceTerms left terms).run n =
      ((chained left terms (numbers n (n + terms.length)), (numbers n (n + terms.length)).getLastD left),
        n + terms.length) := by
  induction terms generalizing left n with
  | nil => rw [List.length_nil, Nat.add_zero, numbers_self]; rfl
  | cons x terms ih =>
    have hcount : n + (terms.length + 1) = n + 1 + terms.length := by omega
    rw [List.length_cons, numbers_cons, hcount, List.getLastD_cons, reduceTerms, run_bind]
    show (reduceTerms ("t" ++ toString (n + 1)) terms >>= fun r =>
      pure (Quad.binary x.1 left x.2.lexeme ("t" ++ toString (n + 1)) :: r.1, r.2)).run (n + 1) = _
    rw [run_bind, ih]
    rfl

/-- The code of an assignment, and the number behind it. -/
theorem run_quads_assign (target : String) (c : Chain) (n : Nat) :
    (quads (.assign target c)).run n =
      (chainCode n c ++ [.assign (chainAddress n c) target], n + c.rest.length) := by
  rw [quads, run_bind, reduce, run_reduceTerms]
  rfl

/-- The last instruction in the code of an instruction passes no argument. -/
theorem getLast?_quads (i : Instruction) (n : Nat) (value : String) :
    ((quads i).run n).1.getLast? ≠ some (.param value) := by
  have hlast : ∀ {qs : List Quad} {q : Quad}, q ≠ .param value → (qs ++ [q]).getLast? ≠ some (.param value) := by
    intro qs q hq
    rw [List.getLast?_concat]
    exact fun h => hq (Option.some.inj h)
  cases i with
  | assign target c => exact hlast nofun
  | step target op o => exact nofun
  | compare cond relation label =>
    show (_ ++ ([Quad.compare _ _] ++ [Quad.jumpIf relation label.name])).getLast? ≠ _
    rw [← List.append_assoc]
    exact hlast nofun
  | call name args params => exact hlast nofun
  | _ => exact nofun

theorem getLast?_quadsAll (is : List Instruction) (n : Nat) (value : String) :
    ((quadsAll is).run n).1.getLast? ≠ some (.param value) := by
  induction is generalizing n with
  | nil => exact nofun
  | cons i is ih =>
    show (((quads i).run n).1 ++ ((quadsAll is).run ((quads i).run n).2).1).getLast? ≠ _
    rw [List.getLast?_append]
    intro h
    rcases Option.or_eq_some_iff.mp h with h | ⟨-, h⟩
    · exact ih _ h
    · exact getLast?_quads i n value h

/-- An instruction of the code is in the code of an instruction of the source. -/
theorem exists_instruction_of_split {is : List Instruction} {n : Nat} {earlier later : List Quad} {q : Quad}
    (h : ((quadsAll is).run n).1 = earlier ++ q :: later) :
    ∃ before i after front back, is = before ++ i :: after ∧
      ((quads i).run ((quadsAll before).run n).2).1 = front ++ q :: back ∧
      earlier = ((quadsAll before).run n).1 ++ front ∧
      later = back ++ ((quadsAll after).run ((quads i).run ((quadsAll before).run n).2).2).1 := by
  induction is generalizing n earlier with
  | nil =>
    have hnil : ([] : List Quad) = earlier ++ q :: later := h
    simp at hnil
  | cons i is ih =>
    -- the instruction stands behind the code of the first one
    have hlater : ∀ earlier', earlier = ((quads i).run n).1 ++ earlier' →
        ((quadsAll is).run ((quads i).run n).2).1 = earlier' ++ q :: later →
        ∃ before j after front back, i :: is = before ++ j :: after ∧
          ((quads j).run ((quadsAll before).run n).2).1 = front ++ q :: back ∧
          earlier = ((quadsAll before).run n).1 ++ front ∧
          later = back ++ ((quadsAll after).run ((quads j).run ((quadsAll before).run n).2).2).1 := by
      rintro earlier' rfl hrest
      obtain ⟨before, j, after, front, back, rfl, hcode, rfl, hlater⟩ := ih hrest
      exact ⟨i :: before, j, after, front, back, rfl, hcode, (List.append_assoc ..).symm, hlater⟩
    have hsplit : ((quads i).run n).1 ++ ((quadsAll is).run ((quads i).run n).2).1 = earlier ++ q :: later := h
    rcases List.append_eq_append_iff.mp hsplit with ⟨earlier', hearlier, hrest⟩ | ⟨front, hfirst, hrest⟩
    · exact hlater earlier' hearlier hrest
    · cases front with
      | nil => exact hlater [] (by simpa using hfirst.symm) hrest.symm
      | cons q' back =>
        cases hrest
        exact ⟨[], i, is, earlier, back, rfl, hfirst, rfl, rfl⟩

theorem length_reduceAll (args : List Argument) (n : Nat) :
    ((reduceAll args).run n).1.2.length = (args.filter fun a => a.chain?.isSome).length := by
  induction args generalizing n with
  | nil => rfl
  | cons a args ih =>
    cases a with
    | type word => exact ih n
    | value c => exact congrArg (· + 1) (ih _)

/-- A call stands behind its arguments. -/
theorem params_of_call {i : Instruction} {n : Nat} {front back : List Quad} {name : String} {count : Nat}
    (h : ((quads i).run n).1 = front ++ .call name count :: back) :
    ∃ args params computed, ∃ values : List String, i = .call name args params ∧ (∀ q ∈ computed, q.isEffect = true) ∧
      front = computed ++ values.map Quad.param ∧ back = [] ∧ values.length = count ∧
      count = (args.filter fun a => a.chain?.isSome).length := by
  have hmem : .call name count ∈ ((quads i).run n).1 := h ▸ List.mem_append_right _ List.mem_cons_self
  have heffect : ∀ {qs : List Quad}, (∀ q ∈ qs, q.isEffect = true) → Quad.call name count ∉ qs :=
    fun hqs hcall => Bool.false_ne_true (hqs _ hcall)
  cases i with
  | call name' args params =>
    -- its code ends in the call, and what computes and passes the arguments is no call
    rcases List.eq_nil_or_concat back with rfl | ⟨back, last, rfl⟩
    · obtain ⟨hfront, hlast⟩ := List.append_inj' h rfl
      cases hlast
      exact ⟨args, params, _, _, rfl, isEffect_reduceAll args n, hfront.symm, rfl, rfl, length_reduceAll args n⟩
    · rw [List.concat_eq_append, ← List.cons_append, ← List.append_assoc] at h
      obtain ⟨hfront, -⟩ := List.append_inj' h rfl
      have hcall : .call name count ∈ ((reduceAll args).run n).1.1 ++ ((reduceAll args).run n).1.2.map Quad.param :=
        hfront ▸ List.mem_append_right _ List.mem_cons_self
      rcases List.mem_append.mp hcall with hcall | hcall
      · exact absurd hcall (heffect (isEffect_reduceAll args n))
      · simp at hcall
  | assign target c =>
    rcases List.mem_append.mp hmem with hmem | hmem
    · exact absurd hmem (heffect (isEffect_reduce c n))
    · cases List.mem_singleton.mp hmem
  | compare cond relation label =>
    rcases List.mem_append.mp hmem with hmem | hmem
    · exact absurd hmem (heffect (isEffect_reduceInPlace cond.lhs n))
    · simp at hmem
  | step target op o =>
    have hthree : .call name count ∈ [Quad.assign target ("t" ++ toString (n + 1)),
      .binary op ("t" ++ toString (n + 1)) o.lexeme ("t" ++ toString (n + 1)),
      .assign ("t" ++ toString (n + 1)) target] := hmem
    simp at hthree
  | _ => cases List.mem_singleton.mp hmem

/-! ## The shape of a program -/

/-- What code looks like. -/
structure Shaped (is : List Instruction) : Prop where
  /-- The code of an instruction stands between the codes of those before and of those after it, each numbered on from
  there. -/
  placed : ∀ before i after, is = before ++ i :: after → generate is =
    generate before ++ ((quads i).run (temporaryCount before)).1 ++
      ((quadsAll after).run (temporaryCount (before ++ [i]))).1
  /-- An assignment behind number `n` is just one operation for each operator, which write new temporaries one after the
  other, and then one assignment to its target. The code of what follows comes next, and numbers on. -/
  assigned : ∀ before target c after n, is = before ++ .assign target c :: after → temporaryCount before = n →
    (quads (.assign target c)).run n = (chainCode n c ++ [.assign (chainAddress n c) target], n + c.rest.length) ∧
      generate is = generate before ++ (chainCode n c ++ [.assign (chainAddress n c) target]) ++
        ((quadsAll after).run (n + c.rest.length)).1 ∧
      (chainCode n c).length = c.rest.length ∧ (∀ q ∈ chainCode n c, q.isBinary = true) ∧
      (chainCode n c).map Quad.write? = (numbers n (n + c.rest.length)).map some ∧
      ∀ w ∈ numbers n (n + c.rest.length), w ∉ mentioned (generate before)
  /-- Temporaries appear in the order of their numbers, and none is left out. -/
  ordered : (mentioned (generate is)).eraseDups = temporaries is
  /-- A temporary is written before it is read, in the code of the same instruction. -/
  written : ∀ before i after, is = before ++ i :: after → ∀ earlier q later,
    ((quads i).run (temporaryCount before)).1 = earlier ++ q :: later → ∀ w ∈ q.reads, isTemporary w = true →
      ∃ q' ∈ earlier, q'.write? = some w
  /-- A call is the last instruction in the code of a call in the source. Just as many arguments are passed before it as
  it counts, and as it has in the source. -/
  called : ∀ earlier name count later, generate is = earlier ++ .call name count :: later →
    ∃ before args params after computed, ∃ values : List String, is = before ++ .call name args params :: after ∧
      count = (args.filter fun a => a.chain?.isSome).length ∧ values.length = count ∧
      ((quads (.call name args params)).run (temporaryCount before)).1 =
        computed ++ values.map Quad.param ++ [.call name count] ∧
      earlier = generate before ++ computed ++ values.map Quad.param ∧
      later = ((quadsAll after).run (temporaryCount (before ++ [.call name args params]))).1 ∧
      ∀ value, (generate before ++ computed).getLast? ≠ some (.param value)

/-- **Where no name of the source is like that of a temporary, code has its shape.** -/
theorem generate_shaped {is : List Instruction} (hnames : ∀ i ∈ is, ∀ w ∈ i.names, isTemporary w = false) :
    Shaped is := by
  have hordered : ∀ {js : List Instruction}, (∀ i ∈ js, ∀ w ∈ i.names, isTemporary w = false) →
      (mentioned (generate js)).eraseDups = numbers 0 (temporaryCount js) :=
    fun hjs => eraseDups_quadsAll hjs 0
  constructor
  case placed =>
    rintro before i after rfl
    exact generate_split before after i
  case assigned =>
    rintro before target c after n rfl rfl
    have hcode := generate_split before after (.assign target c)
    rw [temporaryCount_concat, run_quads_assign] at hcode
    have hlength := length_numbers (temporaryCount before) c.rest.length
    refine ⟨run_quads_assign target c _, hcode, length_chained hlength, fun q hq => isBinary_of_mem_chained hq,
      writes_chained hlength, fun w hw hmentioned => ?_⟩
    rw [← List.mem_eraseDups, hordered fun i hi => hnames i (List.mem_append_left _ hi), mem_numbers] at hmentioned
    exact not_between_of_between (mem_numbers.mp hw) hmentioned
  case ordered => rw [hordered hnames, temporaries_eq_numbers]
  case written =>
    rintro before i after rfl earlier q later hsplit w hw htemporary
    have hi := introduces_quads (hnames i (List.mem_append_right _ List.mem_cons_self)) (temporaryCount before)
    have hnone : ∀ w, Between (temporaryCount before) (temporaryCount before) w →
        ∃ q' ∈ ([] : List Quad), q'.write? = some w := by
      rintro w ⟨k, hlt, hle, -⟩
      exact absurd hle (Nat.not_le.mpr hlt)
    exact written_of_introduces hi hnone hsplit hw htemporary
  case called =>
    intro earlier name count later hsplit
    obtain ⟨before, i, after, front, back, his, hcode, rfl, rfl⟩ := exists_instruction_of_split hsplit
    obtain ⟨args, params, computed, values, rfl, heffect, rfl, rfl, hlength, hcount⟩ := params_of_call hcode
    refine ⟨before, args, params, after, computed, values, his, hcount, hlength, hcode, (List.append_assoc ..).symm,
      ?_, fun value hlast => ?_⟩
    · rw [temporaryCount_concat]
      rfl
    · rw [List.getLast?_append] at hlast
      rcases Option.or_eq_some_iff.mp hlast with hlast | ⟨-, hlast⟩
      · exact Bool.false_ne_true (heffect _ (List.mem_of_getLast? hlast))
      · exact getLast?_quadsAll before 0 value hlast

/-- Temporaries in an assignment, in a condition and in an argument. -/
def reducedThrice : String :=
  "nmb a =. 1; nmb c =. a +. 2 *. 3; oye (a +. c <. 9) \x7b printO(a, c -. 1); \x7d"

theorem generate_shaped_reducedThrice :
    (∀ i ∈ (analyze reducedThrice).instructions, ∀ w ∈ i.names, isTemporary w = false) ∧
      Shaped (analyze reducedThrice).instructions ∧
      (mentioned (generate (analyze reducedThrice).instructions)).eraseDups = ["t1", "t2", "t3", "t4"] := by
  have hnames : ∀ i ∈ (analyze reducedThrice).instructions, ∀ w ∈ i.names, isTemporary w = false := by
    decide +kernel
  have hmade : temporaries (analyze reducedThrice).instructions = ["t1", "t2", "t3", "t4"] := by decide +kernel
  have hshaped := generate_shaped hnames
  exact ⟨hnames, hshaped, hshaped.ordered.trans hmade⟩

end ThreeAddress

end Dotlang
