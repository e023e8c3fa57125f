import Dotlang.Proofs.Phases

/-!
# Sources with the same tokens in other places

The phases behind the reading of statements do not look at positions either, so two sources whose tokens agree in kind
and text, token by token, are compiled and run alike.

* `Symbol.Alike`, `SymbolTable.Alike` : the same symbols up to their lines, in the same order;
* `SymbolTable.ofTokens_alike` : token lists that are alike have tables that are alike;
* `Typing.check_alike` : and the findings in them have the same causes;
* `lower_of_alike` : trees that are alike have the same instructions;
* `layout_irrelevant` : so nothing but lines and columns depends on where the tokens of a source stand.
-/

namespace Dotlang

variable {ts us : List Token}

/-! ## Symbols -/

/-- The same symbol, wherever it was introduced. -/
structure Symbol.Alike (s s' : Symbol) : Prop where
  name : s.name = s'.name
  meaning : s.meaning = s'.meaning

theorem initializer?_alike (h : TokensAlike ts us) : initializer? ts = initializer? us := by
  obtain _ | ⟨heq, _ | ⟨hvalue, _⟩⟩ := h
  · rfl
  · rfl
  · rw [initializer?, initializer?, heq.kind, hvalue.kind, hvalue.lexeme]

/-- Two symbols under one condition, or none. -/
theorem rel_ite {c c' : Prop} [Decidable c] [Decidable c'] (hc : c ↔ c') {s s' : Symbol} (h : s.Alike s') :
    Option.Rel Symbol.Alike (if c then some s else none) (if c' then some s' else none) := by
  simp only [hc]
  split
  · exact .some h
  · exact .none

theorem loopVariable?_alike (h : TokensAlike ts us) :
    Option.Rel Symbol.Alike (loopVariable? ts) (loopVariable? us) := by
  obtain _ | ⟨hparen, _ | ⟨htype, _ | ⟨hname, _ | ⟨heq, _ | ⟨hvalue, _⟩⟩⟩⟩⟩ := h
  case cons.cons.cons.cons.cons =>
    refine rel_ite ?_ ⟨hname.lexeme, ?_⟩
    · rw [hparen.kind, htype.kind, hname.kind, heq.kind, hvalue.kind]
    · rw [htype.dataType?, hvalue.lexeme]
  all_goals exact .none

theorem firstParens_alike (h : TokensAlike ts us) : TokensAlike (firstParens ts) (firstParens us) := by
  have hkind : ∀ t u : Token, t.Alike u → decide (t.kind ≠ .lparen) = decide (u.kind ≠ .lparen) := by
    intro t u htu
    rw [htu.kind]
  have hdrop := h.dropWhile hkind
  rw [firstParens, firstParens, List.drop_one, List.drop_one]
  exact hdrop.tail.takeWhile_isInside

theorem declaredFunction?_alike (h : TokensAlike ts us) :
    Option.Rel Symbol.Alike (declaredFunction? ts) (declaredFunction? us) := by
  cases h with
  | nil => exact .none
  | cons hname hts =>
    refine rel_ite (by rw [hname.kind]) ⟨hname.lexeme, ?_⟩
    rw [parameterNames_alike (firstParens_alike hts)]

theorem inputVariable?_alike (h : TokensAlike ts us) :
    Option.Rel Symbol.Alike (inputVariable? ts) (inputVariable? us) := by
  obtain _ | ⟨hparen, _ | ⟨hmessage, _ | ⟨hcomma, _ | ⟨htype, _ | ⟨hname, _⟩⟩⟩⟩⟩ := h
  case cons.cons.cons.cons.cons =>
    refine rel_ite ?_ ⟨hname.lexeme, ?_⟩
    · rw [hparen.kind, hmessage.kind, hcomma.kind, htype.kind, hname.kind]
    · rw [htype.dataType?]
  all_goals exact .none

theorem keywordSymbol?_alike (k : Option Keyword) (h : TokensAlike ts us) :
    Option.Rel Symbol.Alike (keywordSymbol? k ts) (keywordSymbol? k us) := by
  unfold keywordSymbol?
  split
  · exact loopVariable?_alike h
  · exact declaredFunction?_alike h
  · exact inputVariable?_alike h
  · exact .none

theorem toList_of_rel {o o' : Option Symbol} (h : Option.Rel Symbol.Alike o o') :
    List.Forall₂ Symbol.Alike o.toList o'.toList := by
  cases h with
  | none => exact .nil
  | some hs => exact .cons hs .nil

theorem registrations_alike (pending : Option (Option DataType)) (h : TokensAlike ts us) :
    List.Forall₂ Symbol.Alike (registrations pending ts) (registrations pending us) := by
  induction h generalizing pending with
  | nil => exact .nil
  | @cons t u ts us ht hts ih =>
    rw [registrations, registrations, ht.kind]
    cases u.kind with
    | dataType =>
      rw [ht.dataType?]
      exact ih _
    | identifier =>
      refine List.rel_append ?_ (ih none)
      cases pending with
      | none => exact .nil
      | some type =>
        refine .cons ⟨ht.lexeme, ?_⟩ .nil
        rw [initializer?_alike hts]
    | _ =>
      rw [ht.keyword?]
      exact List.rel_append (toList_of_rel (keywordSymbol?_alike _ hts)) (ih pending)

/-! ## Tables -/

/-- The same symbols up to their lines, in the same order. -/
def SymbolTable.Alike (a b : SymbolTable) : Prop := List.Forall₂ Symbol.Alike a.entries b.entries

namespace SymbolTable.Alike

variable {a b : SymbolTable} (h : a.Alike b)
include h

theorem get? (name : String) : Option.Rel Symbol.Alike (a.get? name) (b.get? name) := by
  obtain ⟨ss⟩ := a
  obtain ⟨ss'⟩ := b
  have h : List.Forall₂ Symbol.Alike ss ss' := h
  show Option.Rel _ (ss.find? _) (ss'.find? _)
  induction h with
  | nil => exact .none
  | @cons s s' ss ss' hs hss ih =>
    rw [List.find?_cons, List.find?_cons, hs.name]
    split
    · exact .some hs
    · exact ih hss

theorem contains (name : String) : a.contains name = b.contains name := by
  have hget := h.get? name
  rw [SymbolTable.contains, SymbolTable.contains]
  generalize a.get? name = o, b.get? name = o' at hget ⊢
  cases hget <;> rfl

theorem params (name : String) : a.params name = b.params name := by
  have hget := h.get? name
  rw [SymbolTable.params, SymbolTable.params]
  generalize a.get? name = o, b.get? name = o' at hget ⊢
  cases hget with
  | none => rfl
  | @some s s' hs =>
    obtain ⟨name, meaning, line⟩ := s
    obtain ⟨name', meaning', line'⟩ := s'
    obtain rfl : meaning = meaning' := hs.meaning
    cases meaning <;> rfl

theorem ofName? (name : String) : ValueType.ofName? a name = ValueType.ofName? b name :=
  map_of_rel (h.get? name) fun s s' hs => by rw [hs.meaning]

theorem insert {s s' : Symbol} (hs : s.Alike s') : (a.insert s).Alike (b.insert s') := by
  rw [SymbolTable.insert, SymbolTable.insert, h.contains, hs.name]
  split
  · exact h
  · exact List.rel_append h (.cons hs .nil)

theorem insertAll {ss ss' : List Symbol} (hss : List.Forall₂ Symbol.Alike ss ss') :
    (a.insertAll ss).Alike (b.insertAll ss') := by
  induction hss generalizing a b with
  | nil => exact h
  | cons hs _ ih => exact ih (h.insert hs)

end SymbolTable.Alike

theorem SymbolTable.ofTokens_alike (h : TokensAlike ts us) (builtins : List String) :
    (ofTokens ts builtins).Alike (ofTokens us builtins) := by
  have hempty : empty.Alike empty := .nil
  refine hempty.insertAll (List.rel_append (registrations_alike none h) ?_)
  exact List.forall₂_same.mpr fun s _ => ⟨rfl, rfl⟩

/-! ## Findings -/

/-- Tokens that are picked and reported by what does not depend on their positions. -/
theorem map_cause_filter {p q : Token → Bool} {f g : Token → Diagnostic} (hp : ∀ t u, t.Alike u → p t = q u)
    (hcause : ∀ t u : Token, t.Alike u → (f t).cause = (g u).cause) (h : TokensAlike ts us) :
    ((ts.filter p).map f).map Diagnostic.cause = ((us.filter q).map g).map Diagnostic.cause := by
  induction h with
  | nil => rfl
  | cons ht _ ih =>
    rw [List.filter_cons, List.filter_cons, hp _ _ ht]
    split
    · rw [List.map_cons, List.map_cons, List.map_cons, List.map_cons, ih, hcause _ _ ht]
    · exact ih

theorem lexicalDiagnostics_alike (h : TokensAlike ts us) :
    (lexicalDiagnostics ts).map Diagnostic.cause = (lexicalDiagnostics us).map Diagnostic.cause := by
  refine map_cause_filter (fun t u ht => ?_) (fun t u ht => ?_) h
  · rw [ht.kind]
  · rw [ht.lexeme]

namespace Typing

variable {a b : SymbolTable} (h : a.Alike b)

theorem scan_alike {check check' : Option Token → Token → Option Token → Option Diagnostic}
    (hcheck : ∀ {o o' p p' : Option Token} {t u : Token}, Option.Rel Token.Alike o o' → t.Alike u →
      Option.Rel Token.Alike p p' → (check o t p).map Diagnostic.cause = (check' o' u p').map Diagnostic.cause)
    {before before' : Option Token} (hbefore : Option.Rel Token.Alike before before') (hts : TokensAlike ts us) :
    (scan check before ts).map Diagnostic.cause = (scan check' before' us).map Diagnostic.cause := by
  induction hts generalizing before before' with
  | nil => rfl
  | @cons t u ts us ht hts ih =>
    rw [scan, scan, List.map_append, List.map_append, ih (.some ht), ← Option.toList_map, ← Option.toList_map,
      hcheck hbefore ht (TokensAlike.head? hts)]

include h

theorem undeclared_alike (hts : TokensAlike ts us) :
    (undeclared a ts).map Diagnostic.cause = (undeclared b us).map Diagnostic.cause := by
  refine map_cause_filter (fun t u ht => ?_) (fun t u ht => ?_) hts
  · rw [ht.kind, ht.lexeme, h.contains]
  · rw [ht.lexeme]

theorem ofLexeme_alike (w : String) : ValueType.ofLexeme a w = ValueType.ofLexeme b w := by
  simp only [ValueType.ofLexeme, h.ofName?]

theorem ofToken?_alike {o o' : Option Token} (ho : Option.Rel Token.Alike o o') :
    ValueType.ofToken? a o = ValueType.ofToken? b o' := by
  cases ho with
  | none => rfl
  | some ht => simp only [ValueType.ofToken?, Option.map_some, ht.lexeme, ofLexeme_alike h]

theorem assignment?_alike {o o' p p' : Option Token} {t u : Token} (ho : Option.Rel Token.Alike o o')
    (ht : t.Alike u) (hp : Option.Rel Token.Alike p p') :
    (assignment? a o t p).map Diagnostic.cause = (assignment? b o' u p').map Diagnostic.cause := by
  cases ho with
  | none => rfl
  | some ho =>
    simp only [assignment?, Option.bind_eq_bind, Option.bind_some, ho.lexeme, h.ofName?, ofToken?_alike h hp, ht.kind]
    cases ValueType.ofName? b _ with
    | none => rfl
    | some target =>
      simp only [Option.bind_some]
      split <;> rfl

theorem operands?_alike {o o' p p' : Option Token} {t u : Token} (ho : Option.Rel Token.Alike o o')
    (ht : t.Alike u) (hp : Option.Rel Token.Alike p p') :
    (operands? a o t p).map Diagnostic.cause = (operands? b o' u p').map Diagnostic.cause := by
  simp only [operands?, ofToken?_alike h ho, ofToken?_alike h hp, ht.kind, ht.lexeme]
  split
  · split
    · rfl
    · split <;> rfl
  · rfl

/-- The findings in token lists that are alike have the same causes. -/
theorem check_alike (hts : TokensAlike ts us) :
    (check a ts).map Diagnostic.cause = (check b us).map Diagnostic.cause := by
  rw [check, check, List.map_append, List.map_append, List.map_append, List.map_append, undeclared_alike h hts,
    scan_alike (assignment?_alike h) .none hts, scan_alike (operands?_alike h) .none hts]

end Typing

/-! ## Instructions -/

section Lower

variable {a b : SymbolTable}

mutual

theorem Statement.lower_erase (hparams : ∀ name, a.params name = b.params name) (loopExit : Option Label) :
    ∀ s : Statement, s.erase.lower b loopExit = s.lower a loopExit
  | .block _ body => lowerBody_erase hparams loopExit body
  | .declare _ d => rfl
  | .assign _ name value => rfl
  | .call _ name args builtin => by rw [Statement.erase, Statement.lower, Statement.lower, hparams]
  | .function _ name _ body => by
    rw [Statement.erase, Statement.lower, Statement.lower, lowerBody_erase hparams loopExit body]
  | .conditional _ cond body alternatives => by
    simp only [Statement.erase, Statement.lower, lowerBody_erase hparams loopExit body,
      Alternatives.lower_erase hparams loopExit _ alternatives]
  | .whileLoop _ cond body => by simp only [Statement.erase, Statement.lower, lowerBody_erase hparams _ body]
  | .doWhile _ body cond => by simp only [Statement.erase, Statement.lower, lowerBody_erase hparams _ body]
  | .counting _ init cond step body => by
    simp only [Statement.erase, Statement.lower, lowerBody_erase hparams _ body]
  | .brk _ => rfl

theorem lowerBody_erase (hparams : ∀ name, a.params name = b.params name) (loopExit : Option Label) :
    ∀ body : List Statement, lowerBody b loopExit (eraseBody body) = lowerBody a loopExit body
  | [] => rfl
  | s :: ss => by
    rw [eraseBody, lowerBody, lowerBody, Statement.lower_erase hparams loopExit s, lowerBody_erase hparams loopExit ss]

theorem Alternatives.lower_erase (hparams : ∀ name, a.params name = b.params name) (loopExit : Option Label)
    (exit : Label) :
    ∀ alternatives : Alternatives, alternatives.erase.lower b loopExit exit = alternatives.lower a loopExit exit
  | .done => rfl
  | .otherwise body => lowerBody_erase hparams loopExit body
  | .branch cond body rest => by
    simp only [Alternatives.erase, Alternatives.lower, lowerBody_erase hparams loopExit body,
      Alternatives.lower_erase hparams loopExit exit rest]

end

/-- Positions are not part of the instructions, nor are lines in the table. -/
theorem lower_of_alike (htable : a.Alike b) {body body' : List Statement} (h : BodyAlike body body') :
    lower a body = lower b body' := by
  rw [lower, lower, ← lowerBody_erase htable.params none body, ← lowerBody_erase (fun _ => rfl) none body', h]

end Lower

/-! ## Sources -/

/-- The same symbols up to their lines, the same code, and complaints of the same causes. -/
structure Analysis.Alike (a b : Analysis) : Prop where
  symbols : a.symbols.Alike b.symbols
  code : a.code = b.code
  causes : a.diagnostics.map Diagnostic.cause = b.diagnostics.map Diagnostic.cause

theorem analyze_alike {source source' : String} (h : TokensAlike (tokenize source) (tokenize source')) :
    (analyze source).Alike (analyze source') := by
  obtain ⟨hbody, hparse⟩ := parse_alike h
  have hsymbols := SymbolTable.ofTokens_alike h builtinNames
  have hcauses : (parse (tokenize source)).diagnostics.map Diagnostic.cause =
      (parse (tokenize source')).diagnostics.map Diagnostic.cause := by
    rw [← List.forall₂_eq_eq_eq, List.forall₂_map_left_iff, List.forall₂_map_right_iff]
    exact hparse.imp fun _ _ hd => hd.cause
  have hlower : lower (analyze source).symbols (analyze source).body =
      lower (analyze source').symbols (analyze source').body := lower_of_alike hsymbols hbody
  refine ⟨hsymbols, ?_, ?_⟩
  · rw [Analysis.code, Analysis.code, hlower]
  · simp only [analyze, List.map_append, hcauses, lexicalDiagnostics_alike h, Typing.check_alike hsymbols h]

theorem SymbolTable.Alike.map_eq {a b : SymbolTable} (h : a.Alike b) :
    (a.entries.map fun s => (s.name, s.meaning)) = b.entries.map fun s => (s.name, s.meaning) := by
  rw [← List.forall₂_eq_eq_eq, List.forall₂_map_left_iff, List.forall₂_map_right_iff]
  exact List.Forall₂.imp (fun s s' hs => Prod.ext hs.name hs.meaning) h

theorem map_message_of_cause {ds es : List Diagnostic} (h : ds.map Diagnostic.cause = es.map Diagnostic.cause) :
    (ds.map fun d => (d.phase, d.message)) = es.map fun d => (d.phase, d.message) := by
  have hmessages := congrArg (List.map fun c : Cause => (c.phase, c.message)) h
  rwa [List.map_map, List.map_map] at hmessages

/-- **Layout does not matter.** Of two sources whose tokens agree in kind and text, one compiles to the same code as the
other and runs alike: the same events, the same output, the same replies left over. Their symbols are the same up to
lines, and their complaints have the same phases and messages in the same order. -/
theorem layout_irrelevant {source source' : String}
    (h : (tokenize source).map Token.word = (tokenize source').map Token.word) (options : Options)
    (replies : List (Option String)) :
    let t := (compile source options).replay replies
    let t' := (compile source' options).replay replies
    t.result.code.assembly = t'.result.code.assembly ∧ t.result.code.threeAddress = t'.result.code.threeAddress ∧
      t.events = t'.events ∧ t.unused = t'.unused ∧ t.result.output = t'.result.output ∧
      (t.result.symbols.entries.map fun s => (s.name, s.meaning)) =
        (t'.result.symbols.entries.map fun s => (s.name, s.meaning)) ∧
      (t.result.diagnostics.map fun d => (d.phase, d.message)) =
        t'.result.diagnostics.map fun d => (d.phase, d.message) := by
  intro t t'
  obtain ⟨hsymbols, hcode, hcauses⟩ := analyze_alike (tokensAlike_iff.mpr h)
  -- as many complaints on both sides, so both sources are run or neither is
  by_cases hclean : (analyze source).diagnostics = []
  · have hclean' : (analyze source').diagnostics = [] := by
      rw [hclean, List.map_nil] at hcauses
      exact List.map_eq_nil_iff.mp hcauses.symm
    have ht : t = _ := replay_compile_of_clean options replies hclean rfl
    have ht' : t' = _ := replay_compile_of_clean options replies hclean' rfl
    rw [ht, ht', hcode]
    exact ⟨rfl, rfl, rfl, rfl, rfl, hsymbols.map_eq, rfl⟩
  · have hclean' : (analyze source').diagnostics ≠ [] := by
      intro hnil
      rw [hnil, List.map_nil] at hcauses
      exact hclean (List.map_eq_nil_iff.mp hcauses)
    have ht : t = _ := replay_compile_of_ne_nil options replies hclean
    have ht' : t' = _ := replay_compile_of_ne_nil options replies hclean'
    rw [ht, ht']
    exact ⟨rfl, rfl, rfl, rfl, rfl, hsymbols.map_eq, map_message_of_cause hcauses⟩

def onOneLine : String := "nmb a =. 1; printO(a);"

def spreadOut : String := "nmb\n  a =. 1;\n\nprintO(  a\n);"

theorem layout_irrelevant_spreadOut :
    (tokenize onOneLine).map Token.word = (tokenize spreadOut).map Token.word ∧
      tokenize onOneLine ≠ tokenize spreadOut ∧
      ((compile onOneLine {}).replay []).events = [.print "1"] ∧
      ((compile onOneLine {}).replay []).events = ((compile spreadOut {}).replay []).events ∧
      ((compile onOneLine {}).replay []).result.code.assembly =
        ((compile spreadOut {}).replay []).result.code.assembly := by
  have hwords : (tokenize onOneLine).map Token.word = (tokenize spreadOut).map Token.word := by decide +kernel
  obtain ⟨hassembly, -, hevents, -⟩ := layout_irrelevant hwords {} []
  exact ⟨hwords, by decide +kernel, by decide +kernel, hevents, hassembly⟩

end Dotlang
