import Dotlang.Proofs.Declarations
import Dotlang.Proofs.RoundTrip
import Dotlang.Token.Lexer

/-!
# The first registration stays

A registration has a place: that of the token which it is made at, or one behind the tokens for a built-in function. A
name may be registered at several places and by several rules.

* `Registers tokens builtins i s` : at place `i`, one of the rules registers `s`;
* `registered?`, `waitingType` : what is registered at a token, and which data type waits there;
* `placed` : all registrations with their places, in order, as `mem_placed` says;
* `Awaits`, `waitingType_eq_some_iff` : a data type waits that no identifier and no other data type follows;
* `SymbolTable.IsFirst`, `SymbolTable.FirstOf l t` : the entries of `t` are the first registrations in `l`. One insertion
  keeps it;
* `first_registration_stays` : so it is with the table of a token list, and no entry is ever changed.
-/

namespace Dotlang

/-! ## Rules -/

/-- One rule for each way to register a name. -/
inductive Registers (tokens : List Token) (builtins : List String) : Nat → Symbol → Prop where
  /-- A data type and the next identifier, if no data type stands between them. -/
  | typed {before between after : List Token} {type name : Token}
      (htokens : tokens = before ++ type :: between ++ name :: after) (htype : type.kind = .dataType)
      (hbetween : ∀ t ∈ between, t.kind ≠ .dataType ∧ t.kind ≠ .identifier) (hname : name.kind = .identifier) :
      Registers tokens builtins (before ++ type :: between).length
        ⟨name.lexeme, .variable type.dataType? (initializer? after), some name.line⟩
  /-- The header of a counting loop. -/
  | loop {before after : List Token} {first paren type name eq value : Token}
      (htokens : tokens = before ++ first :: paren :: type :: name :: eq :: value :: after)
      (hfirst : first.keyword? = some .first) (hparen : paren.kind = .lparen) (htype : type.kind = .dataType)
      (hname : name.kind = .identifier) (heq : eq.kind = .assign)
      (hvalue : value.kind = .number ∨ value.kind = .identifier) :
      Registers tokens builtins before.length
        ⟨name.lexeme, .variable type.dataType? (some value.lexeme), some name.line⟩
  /-- The declaration of a function. -/
  | function {before after : List Token} {ex name : Token} (htokens : tokens = before ++ ex :: name :: after)
      (hex : ex.keyword? = some .ex) (hname : name.kind = .identifier) :
      Registers tokens builtins before.length
        ⟨name.lexeme, .function (parameterNames (firstParens after)), some name.line⟩
  /-- A typed input. -/
  | input {before after : List Token} {enter paren message comma type name : Token}
      (htokens : tokens = before ++ enter :: paren :: message :: comma :: type :: name :: after)
      (henter : enter.keyword? = some .enter) (hparen : paren.kind = .lparen) (hmessage : message.kind = .string)
      (hcomma : comma.kind = .comma) (htype : type.kind = .dataType) (hname : name.kind = .identifier) :
      Registers tokens builtins before.length ⟨name.lexeme, .variable type.dataType? none, some name.line⟩
  /-- A built-in function. -/
  | builtin {k : Nat} {name : String} (hname : builtins[k]? = some name) :
      Registers tokens builtins (tokens.length + k) (.ofBuiltin name)

/-- No symbol of the name is registered before. -/
def FirstRegisters (tokens : List Token) (builtins : List String) (i : Nat) (s : Symbol) : Prop :=
  Registers tokens builtins i s ∧ ∀ j < i, ∀ s', Registers tokens builtins j s' → s'.name ≠ s.name

/-! ## Places -/

/-- The data type that waits behind a token. -/
def Token.waitingAfter (pending : Option (Option DataType)) (t : Token) : Option (Option DataType) :=
  if t.kind = .dataType then some t.dataType? else if t.kind = .identifier then none else pending

/-- The data type that waits for its identifier behind some tokens. -/
def waitingType (before : List Token) : Option (Option DataType) := before.foldl Token.waitingAfter none

/-- What is registered at a token, given the data type that waits there and what follows. -/
def registered? (pending : Option (Option DataType)) (t : Token) (ts : List Token) : Option Symbol :=
  if t.kind = .identifier then pending.map fun type => ⟨t.lexeme, .variable type (initializer? ts), some t.line⟩
  else keywordSymbol? t.keyword? ts

/-- Where there is no keyword, no keyword registers anything. -/
theorem keywordSymbol?_of_kind {t : Token} (h : t.kind ≠ .keyword) (ts : List Token) :
    keywordSymbol? t.keyword? ts = none := by
  rw [Token.keyword?, if_neg h]
  rfl

theorem registrations_cons (pending : Option (Option DataType)) (t : Token) (ts : List Token) :
    registrations pending (t :: ts) =
      (registered? pending t ts).toList ++ registrations (t.waitingAfter pending) ts := by
  unfold registered? Token.waitingAfter
  rw [registrations]
  split
  · rename_i hkind
    have hname : t.kind ≠ .identifier := by rw [hkind]; decide
    rw [if_pos hkind, if_neg hname, keywordSymbol?_of_kind (by rw [hkind]; decide)]
    rfl
  · rename_i hkind
    have htype : t.kind ≠ .dataType := by rw [hkind]; decide
    rw [if_neg htype, if_pos hkind, if_pos hkind]
  · rename_i htype hname
    rw [if_neg htype, if_neg hname, if_neg hname]

/-- What the tokens register, with places counted from `n`. -/
def placedFrom (n : Nat) : Option (Option DataType) → List Token → List (Nat × Symbol)
  | _, [] => []
  | pending, t :: ts =>
    ((registered? pending t ts).map (n, ·)).toList ++ placedFrom (n + 1) (t.waitingAfter pending) ts

/-- All registrations with their places. -/
def placed (tokens : List Token) (builtins : List String) : List (Nat × Symbol) :=
  placedFrom 0 none tokens ++ (builtins.zipIdx tokens.length).map fun (name, i) => (i, .ofBuiltin name)

theorem map_snd_placedFrom (n : Nat) (pending : Option (Option DataType)) (ts : List Token) :
    (placedFrom n pending ts).map Prod.snd = registrations pending ts := by
  induction ts generalizing n pending with
  | nil => rfl
  | cons t ts ih =>
    rw [placedFrom, registrations_cons, List.map_append, ih]
    cases registered? pending t ts <;> rfl

theorem map_snd_placed (tokens : List Token) (builtins : List String) :
    (placed tokens builtins).map Prod.snd = registrations none tokens ++ builtins.map Symbol.ofBuiltin := by
  rw [placed, List.map_append, map_snd_placedFrom, List.map_map]
  have hfst : builtins = (builtins.zipIdx tokens.length).map Prod.fst := (List.zipIdx_map_fst _ _).symm
  conv_rhs => rw [hfst, List.map_map]
  rfl

theorem mem_placedFrom {n : Nat} {pending : Option (Option DataType)} {ts : List Token} {i : Nat} {s : Symbol} :
    (i, s) ∈ placedFrom n pending ts ↔ ∃ before t after, ts = before ++ t :: after ∧ i = n + before.length ∧
      registered? (before.foldl Token.waitingAfter pending) t after = some s := by
  induction ts generalizing n pending with
  | nil => simp [placedFrom]
  | cons t ts ih =>
    rw [placedFrom, List.mem_append, Option.mem_toList, Option.map_eq_some_iff, ih]
    constructor
    · rintro (⟨s', hs', hpair⟩ | ⟨before, u, after, rfl, rfl, hs⟩)
      · cases hpair
        exact ⟨[], t, ts, rfl, rfl, hs'⟩
      · exact ⟨t :: before, u, after, rfl, by rw [List.length_cons]; omega, hs⟩
    · rintro ⟨before, u, after, hsplit, rfl, hs⟩
      cases before with
      | nil =>
        cases hsplit
        exact Or.inl ⟨s, hs, rfl⟩
      | cons t' before =>
        cases hsplit
        exact Or.inr ⟨before, u, after, rfl, by rw [List.length_cons]; omega, hs⟩

/-- The tokens come first, and the built-in functions in the given order. -/
theorem pairwise_placed (tokens : List Token) (builtins : List String) :
    (placed tokens builtins).Pairwise fun p q => p.1 < q.1 := by
  have htokens : ∀ (ts : List Token) (n : Nat) (pending : Option (Option DataType)),
      (placedFrom n pending ts).Pairwise fun p q => p.1 < q.1 := by
    intro ts
    induction ts with
    | nil => exact fun _ _ => .nil
    | cons t ts ih =>
      intro n pending
      refine List.pairwise_append.mpr ⟨?_, ih _ _, ?_⟩
      · cases registered? pending t ts <;> simp
      · rintro ⟨i, s⟩ hi ⟨j, s'⟩ hj
        obtain ⟨x, hx, hpair⟩ := Option.map_eq_some_iff.mp (Option.mem_toList.mp hi)
        cases hpair
        obtain ⟨before, u, after, hsplit, rfl, hu⟩ := mem_placedFrom.mp hj
        show n < n + 1 + before.length
        omega
  refine List.pairwise_append.mpr ⟨htokens _ _ _, ?_, ?_⟩
  · rw [List.pairwise_map]
    show List.Pairwise (fun p q : String × Nat => p.2 < q.2) (builtins.zipIdx tokens.length)
    rw [← List.pairwise_map, List.zipIdx_map_snd]
    exact List.pairwise_lt_range'
  · rintro ⟨i, s⟩ hi ⟨j, s'⟩ hj
    obtain ⟨before, t, after, rfl, rfl, ht⟩ := mem_placedFrom.mp hi
    obtain ⟨⟨name, k⟩, hk, hpair⟩ := List.mem_map.mp hj
    cases hpair
    have hle := (List.mem_zipIdx hk).1
    rw [List.length_append, List.length_cons] at hle
    show 0 + before.length < j
    omega

/-! ## Places and rules -/

/-- A data type, behind which there is neither an identifier nor another data type. -/
def Awaits (before : List Token) (type : Option DataType) : Prop :=
  ∃ earlier t between, before = earlier ++ t :: between ∧ t.kind = .dataType ∧ t.dataType? = type ∧
    ∀ u ∈ between, u.kind ≠ .dataType ∧ u.kind ≠ .identifier

theorem awaits_concat {before : List Token} {u : Token} {type : Option DataType} :
    Awaits (before ++ [u]) type ↔ u.kind = .dataType ∧ u.dataType? = type ∨
      u.kind ≠ .dataType ∧ u.kind ≠ .identifier ∧ Awaits before type := by
  constructor
  · rintro ⟨earlier, t, between, hsplit, ht, htype, hbetween⟩
    rcases List.eq_nil_or_concat between with rfl | ⟨between, last, rfl⟩
    · obtain ⟨-, hlast⟩ := List.append_inj' hsplit rfl
      cases hlast
      exact Or.inl ⟨ht, htype⟩
    · rw [List.concat_eq_append, ← List.cons_append, ← List.append_assoc] at hsplit
      obtain ⟨rfl, hlast⟩ := List.append_inj' hsplit rfl
      cases hlast
      rw [List.concat_eq_append, List.forall_mem_append] at hbetween
      obtain ⟨hbetween, hu⟩ := hbetween
      obtain ⟨htype', hname⟩ := hu u List.mem_cons_self
      exact Or.inr ⟨htype', hname, earlier, t, between, rfl, ht, htype, hbetween⟩
  · rintro (⟨ht, htype⟩ | ⟨htype', hname, earlier, t, between, rfl, ht, htype, hbetween⟩)
    · exact ⟨before, u, [], rfl, ht, htype, fun _ h => absurd h List.not_mem_nil⟩
    · refine ⟨earlier, t, between ++ [u], by simp, ht, htype, List.forall_mem_append.mpr ⟨hbetween, ?_⟩⟩
      exact List.forall_mem_cons.mpr ⟨⟨htype', hname⟩, fun _ h => absurd h List.not_mem_nil⟩

theorem waitingType_eq_some_iff {before : List Token} {type : Option DataType} :
    waitingType before = some type ↔ Awaits before type := by
  induction before using List.reverseRecOn with
  | nil => simp [waitingType, Awaits]
  | append_singleton before u ih =>
    rw [waitingType, List.foldl_append, awaits_concat, ← ih]
    show u.waitingAfter (waitingType before) = some type ↔ _
    unfold Token.waitingAfter
    split_ifs with htype hname
    · simp [htype]
    · simp [hname]
    · simp [htype, hname]

theorem registers_of_keywordSymbol? {builtins : List String} {before after : List Token} {t : Token} {s : Symbol}
    (h : keywordSymbol? t.keyword? after = some s) : Registers (before ++ t :: after) builtins before.length s := by
  unfold keywordSymbol? at h
  split at h
  · rename_i hword
    unfold loopVariable? at h
    split at h
    · split_ifs at h with hkinds
      cases h
      obtain ⟨hparen, htype, hname, heq, hvalue⟩ := hkinds
      exact .loop rfl hword hparen htype hname heq hvalue
    · cases h
  · rename_i hword
    unfold declaredFunction? at h
    split at h
    · split_ifs at h with hname
      cases h
      exact .function rfl hword hname
    · cases h
  · rename_i hword
    unfold inputVariable? at h
    split at h
    · split_ifs at h with hkinds
      cases h
      obtain ⟨hparen, hmessage, hcomma, htype, hname⟩ := hkinds
      exact .input rfl hword hparen hmessage hcomma htype hname
    · cases h
  · cases h

theorem registers_of_registered? {builtins : List String} {before after : List Token} {t : Token} {s : Symbol}
    (h : registered? (waitingType before) t after = some s) :
    Registers (before ++ t :: after) builtins before.length s := by
  unfold registered? at h
  split_ifs at h with hname
  · obtain ⟨type, hwaiting, rfl⟩ := Option.map_eq_some_iff.mp h
    obtain ⟨earlier, d, between, rfl, hd, rfl, hbetween⟩ := waitingType_eq_some_iff.mp hwaiting
    exact .typed rfl hd hbetween hname
  · exact registers_of_keywordSymbol? h

/-- A place is taken just by what a rule registers there. -/
theorem mem_placed {tokens : List Token} {builtins : List String} {i : Nat} {s : Symbol} :
    (i, s) ∈ placed tokens builtins ↔ Registers tokens builtins i s := by
  have hplaced : ∀ {before after : List Token} {t : Token}, tokens = before ++ t :: after →
      registered? (waitingType before) t after = some s → (before.length, s) ∈ placed tokens builtins := by
    intro before after t htokens hs
    exact List.mem_append_left _ (mem_placedFrom.mpr ⟨before, t, after, htokens, (Nat.zero_add _).symm, hs⟩)
  have hword : ∀ {t : Token} {k : Keyword}, t.keyword? = some k → ∀ (pending : Option (Option DataType))
      (ts : List Token), registered? pending t ts = keywordSymbol? (some k) ts := by
    intro t k ht pending ts
    rw [registered?, if_neg (by rw [Read.kind_of_keyword? ht]; decide), ht]
  constructor
  · intro h
    rcases List.mem_append.mp h with h | h
    · obtain ⟨before, t, after, rfl, rfl, hs⟩ := mem_placedFrom.mp h
      rw [Nat.zero_add]
      exact registers_of_registered? hs
    · obtain ⟨⟨name, k⟩, hk, hpair⟩ := List.mem_map.mp h
      cases hpair
      obtain ⟨hle, hname⟩ := List.mk_mem_zipIdx_iff_le_and_getElem?_sub.mp hk
      obtain ⟨k, rfl⟩ := Nat.exists_eq_add_of_le hle
      rw [Nat.add_sub_cancel_left] at hname
      exact .builtin hname
  · intro h
    cases h with
    | typed htokens htype hbetween hname =>
      refine hplaced htokens ?_
      rw [registered?, if_pos hname, waitingType_eq_some_iff.mpr ⟨_, _, _, rfl, htype, rfl, hbetween⟩]
      rfl
    | loop htokens hfirst hparen htype hname heq hvalue =>
      refine hplaced htokens ((hword hfirst _ _).trans ?_)
      exact if_pos ⟨hparen, htype, hname, heq, hvalue⟩
    | function htokens hex hname => exact hplaced htokens ((hword hex _ _).trans (if_pos hname))
    | input htokens henter hparen hmessage hcomma htype hname =>
      refine hplaced htokens ((hword henter _ _).trans ?_)
      exact if_pos ⟨hparen, hmessage, hcomma, htype, hname⟩
    | @builtin k name hname =>
      refine List.mem_append_right _ (List.mem_map.mpr ⟨(name, tokens.length + k), ?_, rfl⟩)
      refine List.mk_mem_zipIdx_iff_le_and_getElem?_sub.mpr ⟨Nat.le_add_right _ _, ?_⟩
      rwa [Nat.add_sub_cancel_left]

/-! ## Tables -/

namespace SymbolTable

theorem contains_iff {t : SymbolTable} {name : String} :
    t.contains name = true ↔ ∃ s ∈ t.entries, s.name = name := by
  rw [contains, get?, List.find?_isSome]
  simp only [beq_iff_eq]

theorem entries_insert (t : SymbolTable) (s : Symbol) :
    (t.insert s).entries = t.entries ++ if t.contains s.name then [] else [s] := by
  unfold insert
  split_ifs
  · exact (List.append_nil _).symm
  · rfl

/-- No insertion changes an entry. -/
theorem entries_prefix_insertAll (t : SymbolTable) (ss : List Symbol) : t.entries <+: (t.insertAll ss).entries := by
  induction ss generalizing t with
  | nil => exact List.prefix_refl _
  | cons s ss ih =>
    refine List.IsPrefix.trans ?_ (ih (t.insert s))
    rw [entries_insert]
    exact List.prefix_append _ _

theorem insertAll_append (t : SymbolTable) (ss more : List Symbol) :
    t.insertAll (ss ++ more) = (t.insertAll ss).insertAll more := List.foldl_append

theorem nodup_insert {t : SymbolTable} (h : (t.entries.map Symbol.name).Nodup) (s : Symbol) :
    ((t.insert s).entries.map Symbol.name).Nodup := by
  rw [entries_insert]
  split_ifs with htaken
  · rwa [List.append_nil]
  · rw [contains_iff, ← List.mem_map] at htaken
    rw [List.map_append]
    exact List.concat_eq_append ▸ List.Nodup.concat htaken h

theorem nodup_insertAll {t : SymbolTable} (h : (t.entries.map Symbol.name).Nodup) (ss : List Symbol) :
    ((t.insertAll ss).entries.map Symbol.name).Nodup := by
  induction ss generalizing t with
  | nil => exact h
  | cons s ss ih => exact ih (nodup_insert h s)

/-- An entry is found by its name. -/
theorem get?_of_mem {t : SymbolTable} (h : (t.entries.map Symbol.name).Nodup) {s : Symbol} (hs : s ∈ t.entries) :
    t.get? s.name = some s := by
  obtain ⟨found, hfound⟩ := Option.isSome_iff_exists.mp (contains_iff.mpr ⟨s, hs, rfl⟩)
  rw [hfound]
  exact congrArg some (List.inj_on_of_nodup_map h (List.mem_of_find?_eq_some hfound) hs (name_of_get? hfound))

/-- A registration at place `i`, and none of its name before. -/
def IsFirst (l : List (Nat × Symbol)) (i : Nat) (s : Symbol) : Prop :=
  (i, s) ∈ l ∧ ∀ j < i, ∀ s', (j, s') ∈ l → s'.name ≠ s.name

theorem isFirst_concat {l : List (Nat × Symbol)} {n i : Nat} {x s : Symbol} (hn : ∀ p ∈ l, p.1 < n) :
    IsFirst (l ++ [(n, x)]) i s ↔ IsFirst l i s ∨ (i, s) = (n, x) ∧ ∀ p ∈ l, p.2.name ≠ x.name := by
  have hmem : ∀ p, p ∈ l ++ [(n, x)] ↔ p ∈ l ∨ p = (n, x) := by simp
  simp only [IsFirst, hmem]
  constructor
  · rintro ⟨hi | hi, hfirst⟩
    · exact Or.inl ⟨hi, fun j hj s' hs' => hfirst j hj s' (Or.inl hs')⟩
    · cases hi
      exact Or.inr ⟨rfl, fun p hp => hfirst p.1 (hn p hp) p.2 (Or.inl hp)⟩
  · rintro (⟨hi, hfirst⟩ | ⟨hi, hnew⟩)
    · refine ⟨Or.inl hi, fun j hj s' hs' => hs'.elim (hfirst j hj s') fun hlast => ?_⟩
      cases hlast
      exact absurd hj (hn _ hi).not_gt
    · cases hi
      refine ⟨Or.inr rfl, fun j hj s' hs' => hs'.elim (hnew (j, s')) fun hlast => ?_⟩
      cases hlast
      exact absurd hj (lt_irrefl _)

/-- The table has an entry for each name that was registered, and its entries are the first registrations, in their
order. -/
structure FirstOf (l : List (Nat × Symbol)) (t : SymbolTable) : Prop where
  complete : ∀ p ∈ l, t.contains p.2.name = true
  first : ∃ ps : List (Nat × Symbol), t.entries = ps.map Prod.snd ∧ ps.Sublist l ∧
    ∀ i s, (i, s) ∈ ps ↔ IsFirst l i s

theorem FirstOf.registered {l : List (Nat × Symbol)} {t : SymbolTable} (h : FirstOf l t) {name : String}
    (hname : t.contains name = true) : ∃ p ∈ l, p.2.name = name := by
  obtain ⟨ps, hentries, hsub, -⟩ := h.first
  obtain ⟨s, hs, rfl⟩ := contains_iff.mp hname
  rw [hentries] at hs
  obtain ⟨p, hp, rfl⟩ := List.mem_map.mp hs
  exact ⟨p, hsub.subset hp, rfl⟩

/-- A registration behind the others adds an entry if the name is new, and changes nothing otherwise. -/
theorem FirstOf.insert {l : List (Nat × Symbol)} {t : SymbolTable} (h : FirstOf l t) {n : Nat} (hn : ∀ p ∈ l, p.1 < n)
    (x : Symbol) : FirstOf (l ++ [(n, x)]) (t.insert x) := by
  obtain ⟨ps, hentries, hsub, hps⟩ := h.first
  by_cases htaken : t.contains x.name = true
  · -- some registration before has the name, so this one is not a first one
    obtain ⟨p, hp, hname⟩ := h.registered htaken
    have hsame : t.insert x = t := if_pos htaken
    rw [hsame]
    refine ⟨fun q hq => ?_, ps, hentries, hsub.trans (List.sublist_append_left _ _), fun i s => ?_⟩
    · rcases List.mem_append.mp hq with hq | hq
      · exact h.complete q hq
      · rwa [List.mem_singleton.mp hq]
    · rw [isFirst_concat hn, hps]
      exact (or_iff_left fun hnew => hnew.2 p hp hname).symm
  · have hadded : (t.insert x).entries = t.entries ++ [x] := by rw [entries_insert, if_neg htaken]
    refine ⟨fun q hq => ?_, ps ++ [(n, x)], ?_, hsub.append (List.Sublist.refl _), fun i s => ?_⟩
    · rw [contains_iff, hadded]
      rcases List.mem_append.mp hq with hq | hq
      · obtain ⟨s, hs, hname⟩ := contains_iff.mp (h.complete q hq)
        exact ⟨s, List.mem_append_left _ hs, hname⟩
      · rw [List.mem_singleton.mp hq]
        exact ⟨x, List.mem_append_right _ List.mem_cons_self, rfl⟩
    · rw [hadded, hentries, List.map_append]
      rfl
    · have hnew : ∀ p ∈ l, p.2.name ≠ x.name := fun p hp hname => htaken (hname ▸ h.complete p hp)
      rw [isFirst_concat hn, List.mem_append, hps, List.mem_singleton]
      exact or_congr_right (and_iff_left hnew).symm

theorem firstOf_insertAll {l : List (Nat × Symbol)} (h : l.Pairwise fun p q => p.1 < q.1) :
    FirstOf l (empty.insertAll (l.map Prod.snd)) := by
  induction l using List.reverseRecOn with
  | nil => exact ⟨fun p hp => absurd hp List.not_mem_nil, [], rfl, .slnil, by simp [IsFirst]⟩
  | append_singleton l x ih =>
    obtain ⟨hl, -, hlast⟩ := List.pairwise_append.mp h
    rw [List.map_append, insertAll_append]
    exact (ih hl).insert (fun p hp => hlast p hp x List.mem_cons_self) x.2

end SymbolTable

/-- **The first registration of a name stays.** Names are distinct, every name that is registered has an entry, the
entries are the first registrations in the order of their places, and no registration changes the entries before it. -/
theorem first_registration_stays (tokens : List Token) (builtins : List String) :
    ((SymbolTable.ofTokens tokens builtins).entries.map Symbol.name).Nodup ∧
      (∀ i s, Registers tokens builtins i s → (SymbolTable.ofTokens tokens builtins).contains s.name = true) ∧
      (∀ s ∈ (SymbolTable.ofTokens tokens builtins).entries,
        (SymbolTable.ofTokens tokens builtins).get? s.name = some s) ∧
      (∃ ps : List (Nat × Symbol), (SymbolTable.ofTokens tokens builtins).entries = ps.map Prod.snd ∧
        ps.Pairwise (fun p q => p.1 < q.1) ∧ ∀ i s, (i, s) ∈ ps ↔ FirstRegisters tokens builtins i s) ∧
      ∀ before after, registrations none tokens ++ builtins.map Symbol.ofBuiltin = before ++ after →
        (SymbolTable.empty.insertAll before).entries <+: (SymbolTable.ofTokens tokens builtins).entries := by
  have hnodup : ((SymbolTable.ofTokens tokens builtins).entries.map Symbol.name).Nodup :=
    SymbolTable.nodup_insertAll (t := .empty) List.nodup_nil _
  have hpairwise := pairwise_placed tokens builtins
  obtain ⟨hcomplete, ps, hentries, hsub, hps⟩ := SymbolTable.firstOf_insertAll hpairwise
  rw [map_snd_placed] at hcomplete hentries
  refine ⟨hnodup, fun i s hs => hcomplete _ (mem_placed.mpr hs), fun s hs => SymbolTable.get?_of_mem hnodup hs, ?_, ?_⟩
  · refine ⟨ps, hentries, hpairwise.sublist hsub, fun i s => ?_⟩
    rw [hps, SymbolTable.IsFirst]
    simp only [mem_placed]
    rfl
  · intro before after hsplit
    rw [SymbolTable.ofTokens, hsplit, SymbolTable.insertAll_append]
    exact SymbolTable.entries_prefix_insertAll _ _

/-- The variable of a counting loop, which is registered by its header first, then as behind any data type, and twice
more behind the loop. -/
def reusedName : String := "first (nmb i =. n; i <. 3; i +. 1) \x7b \x7d flat i; Ex i(nmb a) \x7b \x7d"

theorem first_registration_stays_reusedName :
    Registers (tokenize reusedName) builtinNames 0 ⟨"i", .variable (some .integer) (some "n"), some 1⟩ ∧
      Registers (tokenize reusedName) builtinNames 3 ⟨"i", .variable (some .integer) none, some 1⟩ ∧
      (SymbolTable.ofTokens (tokenize reusedName) builtinNames).contains "i" = true ∧
      (SymbolTable.ofTokens (tokenize reusedName) builtinNames).get? "i" =
        some ⟨"i", .variable (some .integer) (some "n"), some 1⟩ ∧
      (SymbolTable.empty.insertAll [⟨"i", .variable (some .integer) (some "n"), some 1⟩]).entries <+:
        (SymbolTable.ofTokens (tokenize reusedName) builtinNames).entries := by
  obtain ⟨-, hcomplete, hfound, -, hprefix⟩ := first_registration_stays (tokenize reusedName) builtinNames
  obtain ⟨hheader, htyped, hentry, hall⟩ :
      (0, ⟨"i", .variable (some .integer) (some "n"), some 1⟩) ∈ placed (tokenize reusedName) builtinNames ∧
      (3, ⟨"i", .variable (some .integer) none, some 1⟩) ∈ placed (tokenize reusedName) builtinNames ∧
      ⟨"i", .variable (some .integer) (some "n"), some 1⟩ ∈
        (SymbolTable.ofTokens (tokenize reusedName) builtinNames).entries ∧
      (registrations none (tokenize reusedName) ++ builtinNames.map Symbol.ofBuiltin).head? =
        some ⟨"i", .variable (some .integer) (some "n"), some 1⟩ := by
    decide +kernel
  obtain ⟨after, hsplit⟩ := List.head?_eq_some_iff.mp hall
  exact ⟨mem_placed.mp hheader, mem_placed.mp htyped, hcomplete 0 _ (mem_placed.mp hheader), hfound _ hentry,
    hprefix [_] after hsplit⟩

end Dotlang
