import Mathlib.Logic.Function.Basic
import LiveArith.Proofs.Language

/-! # Renaming — the same names with other cells

    What a text builds to depends on which names are bound and not on the cells:
    with other cells under the same names the build comes to the same error, or to
    the same tree with the other cells in it.  So a formula that is kept while one
    of its cells is set again and again has the values that the text has when it is
    read anew each time.  The route:

    * two runs agree if they come to one error, or to results that are alike at one
      cursor; every way to put parsers together keeps this (`Agree.bind` and the
      makings of the rules), and by rule induction the rules agree (`rule_agree`);
    * trees that are alike have the same value where their cells read alike
      (`Tree.Alike.eval_eq`), so drafts whose names read the same have the same
      value (`Draft.Reads.map_eval_eq`);
    * a cell that is set reads as if it had been made with that value
      (`Store.set_alloc`), whatever it was set to before (`Formula.sweep_eq`). -/

namespace LiveArith

open LiveArith.Grammar LiveArith.Parse LiveArith.Token

/-! ## Trees -/

/-- The trees are the same but for their cells, which correspond. -/
inductive Tree.Alike (R : Cell → Cell → Prop) : Tree → Tree → Prop where
  | constant (v : Float) : Alike R (.constant v) (.constant v)
  | cell {c d : Cell} : R c d → Alike R (.cell c) (.cell d)
  | negate {t u : Tree} : Alike R t u → Alike R (.negate t) (.negate u)
  | binary {l l' r r' : Tree} (op : Operator) : Alike R l l' → Alike R r r' →
      Alike R (.binary l op r) (.binary l' op r')
  | call {t u : Tree} (f : Builtin) : Alike R t u → Alike R (.call f t) (.call f u)

/-- Trees that are alike have the same value where their cells read the same. -/
theorem Tree.Alike.eval_eq {R : Cell → Cell → Prop} {read read' : Cell → Float}
    (hread : ∀ c d, R c d → read c = read' d) {t u : Tree} (h : Alike R t u) :
    t.eval read = u.eval read' := by
  induction h with
  | constant v => rfl
  | cell hc => exact hread _ _ hc
  | negate _ ih => rw [Tree.eval, Tree.eval, ih]
  | binary op _ _ ihl ihr => rw [Tree.eval, Tree.eval, ihl, ihr]
  | call f _ ih => rw [Tree.eval, Tree.eval, ih]

namespace Parse

open LiveArith.Parse.Parser

variable {α β γ δ : Type} {names : String → Prop}

/-! ## Runs that agree -/

/-- Every word that is left to read is one of the names. -/
def Covers (names : String → Prop) (c : Cursor) : Prop :=
  ∀ letters, .word letters ∈ c.tokens → names (String.ofList letters)

/-- Fewer tokens have fewer words. -/
theorem Covers.mono {c c' : Cursor} (h : Covers names c) (ht : c'.tokens ⊆ c.tokens) :
    Covers names c' :=
  fun letters hl => h letters (ht hl)

/-- Behind the spaces the same words are left. -/
theorem Covers.skipSpaces {c : Cursor} (h : Covers names c) : Covers names c.skipSpaces :=
  h.mono (by rw [c.tokens_skipSpaces]; exact List.Subset.refl _)

/-- Behind a token no other words are left. -/
theorem Covers.tail {c c' : Cursor} {a : Token} (h : Covers names c)
    (ht : c.tokens = a :: c'.tokens) : Covers names c' :=
  h.mono (by rw [ht]; exact List.subset_cons_self _ _)

/-- Both runs fail with the same error, or both succeed at the same cursor with results that
    correspond, and only names are left to read. -/
def AgreeAt (names : String → Prop) (R : α → β → Prop) (r : Run α) (r' : Run β) : Prop :=
  (∃ e, r.result = .error e ∧ r'.result = .error e) ∨
    ∃ a b c, r.result = .ok (a, c) ∧ r'.result = .ok (b, c) ∧ R a b ∧ Covers names c

/-- The parsers agree wherever only names are left to read. -/
def Agree (names : String → Prop) (R : α → β → Prop) (p : Parser α) (q : Parser β) : Prop :=
  ∀ c, Covers names c → AgreeAt names R (p c) (q c)

/-- Two sequences agree from a cursor if their first parts do and their second parts agree. -/
theorem AgreeAt.bind {R : α → β → Prop} {S : γ → δ → Prop} {p : Parser α} {q : Parser β}
    {f : α → Parser γ} {g : β → Parser δ} {c : Cursor} (h : AgreeAt names R (p c) (q c))
    (hf : ∀ a b, R a b → Agree names S (f a) (g b)) :
    AgreeAt names S ((p >>= f) c) ((q >>= g) c) := by
  rcases h with ⟨e, hp, hq⟩ | ⟨a, b, c', hp, hq, hR, hc⟩
  · rw [bind_of_error f hp, bind_of_error g hq]
    exact Or.inl ⟨e, rfl, rfl⟩
  · rw [bind_of_ok f hp, bind_of_ok g hq]
    exact hf a b hR c' hc

namespace Agree

/-- Sequences agree if their parts do. -/
theorem bind {R : α → β → Prop} {S : γ → δ → Prop} {p : Parser α} {q : Parser β}
    {f : α → Parser γ} {g : β → Parser δ} (h : Agree names R p q)
    (hf : ∀ a b, R a b → Agree names S (f a) (g b)) : Agree names S (p >>= f) (q >>= g) :=
  fun c hc => (h c hc).bind hf

/-- What reads nothing agrees on results that correspond. -/
theorem pure {R : α → β → Prop} {a : α} {b : β} (h : R a b) :
    Agree names R (Pure.pure a) (Pure.pure b) :=
  fun c hc => Or.inr ⟨a, b, c, rfl, rfl, h, hc⟩

theorem position : Agree names Eq position position :=
  fun c hc => Or.inr ⟨c.position, c.position, c, rfl, rfl, rfl, hc⟩

theorem note (s s' : Step) : Agree names Eq (note s) (note s') :=
  fun c hc => Or.inr ⟨(), (), c, rfl, rfl, rfl, hc⟩

variable {R : α → β → Prop}

theorem unexpected : Agree names R Parser.unexpected Parser.unexpected :=
  fun _ _ => Or.inl ⟨_, rfl, rfl⟩

theorem exhausted : Agree names R Parser.exhausted Parser.exhausted :=
  fun _ _ => Or.inl ⟨_, rfl, rfl⟩

/-- Rules agree if their bodies do. -/
theorem within {rule : Rule} {n : Nat} {p : Parser α} {q : Parser β} (h : Agree names R p q) :
    Agree names R (within rule n p) (within rule n q) := by
  refine bind position fun start start' _ => bind (note _ _) fun _ _ _ => bind h fun a b hR => ?_
  exact bind position fun stop stop' _ => bind (note _ _) fun _ _ _ => pure hR

/-- Choices by the same condition agree if both sides do. -/
theorem ite {b b' : Bool} (hb : b = b') {p p' : Parser α} {q q' : Parser β}
    (h : Agree names R p q) (h' : Agree names R p' q') :
    Agree names R (if b then p else p') (if b' then q else q') := by
  subst hb
  cases b with
  | true => exact h
  | false => exact h'

/-- A mark is taken alike, and what is left has no other words. -/
theorem take {ch : Char} (hm : IsMark ch) : Agree names Eq (take ch) (take ch) := by
  intro c hc
  rcases take_cases ch hm c with ⟨c', ht, htok⟩ | ⟨ht, -⟩
  · rw [ht]
    exact Or.inr ⟨true, true, c', rfl, rfl, rfl, hc.tail htok⟩
  · rw [ht]
    exact Or.inr ⟨false, false, c.skipSpaces, rfl, rfl, rfl, hc.skipSpaces⟩

/-- An operator is taken alike, and what is left has no other words. -/
theorem takeOperator (ops : List Operator) :
    Agree names Eq (takeOperator ops) (takeOperator ops) := by
  intro c hc
  rcases takeOperator_cases ops c with ⟨op, c', ht, -, htok⟩ | ⟨ht, -⟩
  · rw [ht]
    exact Or.inr ⟨some op, some op, c', rfl, rfl, rfl, hc.tail htok⟩
  · rw [ht]
    exact Or.inr ⟨none, none, c.skipSpaces, rfl, rfl, rfl, hc.skipSpaces⟩

end Agree

/-! ## Scopes that bind the same names -/

/-- Each of the names is bound in both scopes or in neither. -/
def SameBound (names : String → Prop) (scope scope' : Scope) : Prop :=
  ∀ name, names name → (scope.find? name).isSome = (scope'.find? name).isSome

/-- One of the names is bound to the two cells. -/
def Counterparts (names : String → Prop) (scope scope' : Scope) (c c' : Cell) : Prop :=
  ∃ name, names name ∧ scope.find? name = some c ∧ scope'.find? name = some c'

/-- The meanings are corresponding cells or one builtin. -/
inductive MeansAlike (R : Cell → Cell → Prop) : Meaning → Meaning → Prop where
  | cell {c d : Cell} : R c d → MeansAlike R (.cell c) (.cell d)
  | builtin (f : Builtin) : MeansAlike R (.builtin f) (.builtin f)

section Scopes

variable {scope scope' : Scope}

/-- A name means alike in both scopes, or nothing in either. -/
theorem SameBound.meaning? (h : SameBound names scope scope') {name : String} (hn : names name) :
    (scope.meaning? name = none ∧ scope'.meaning? name = none) ∨
      ∃ m m', scope.meaning? name = some m ∧ scope'.meaning? name = some m' ∧
        MeansAlike (Counterparts names scope scope') m m' := by
  have hs := h name hn
  cases hf : scope.find? name with
  | some c =>
      rw [hf] at hs
      obtain ⟨c', hf'⟩ := Option.isSome_iff_exists.1 hs.symm
      exact Or.inr ⟨.cell c, .cell c', by rw [Scope.meaning?, hf], by rw [Scope.meaning?, hf'],
        .cell ⟨name, hn, hf, hf'⟩⟩
  | none =>
      rw [hf] at hs
      have hf' : scope'.find? name = none := Option.not_isSome_iff_eq_none.1 (by rw [← hs]; simp)
      have hm : scope.meaning? name = (Builtin.ofName? name).map .builtin := by
        rw [Scope.meaning?, hf]
      rw [← Scope.meaning?_congr (hf.trans hf'.symm), hm]
      cases Builtin.ofName? name with
      | none => exact Or.inl ⟨rfl, rfl⟩
      | some f => exact Or.inr ⟨.builtin f, .builtin f, rfl, rfl, .builtin f⟩

variable {p q : Parser Tree} {p' q' : Parser Tree} {R : Cell → Cell → Prop}

/-- A number does not depend on the names. -/
theorem number_agreeAt {c : Cursor} (hc : Covers names (c.skip Literal.isFigure)) :
    AgreeAt names (Tree.Alike R) (number c) (number c) := by
  rw [number_apply]
  cases Literal.read? (c.run Literal.isFigure) with
  | none => exact Or.inl ⟨_, rfl, rfl⟩
  | some v => exact Or.inr ⟨_, _, _, rfl, rfl, .constant v, hc⟩

/-- A name that is bound in both scopes or in neither means something alike. -/
theorem name_agreeAt (h : SameBound names scope scope') {c : Cursor}
    (hn : names (String.ofList (c.run Scope.isLetter)))
    (hc : Covers names (c.skip Scope.isLetter)) :
    AgreeAt names (MeansAlike (Counterparts names scope scope')) (name scope c)
      (name scope' c) := by
  rw [name_apply, name_apply]
  rcases h.meaning? hn with ⟨hm, hm'⟩ | ⟨m, m', hm, hm', hR⟩
  · rw [hm, hm']
    exact Or.inl ⟨_, rfl, rfl⟩
  · rw [hm, hm']
    cases hR with
    | cell hcd => exact Or.inr ⟨_, _, _, rfl, rfl, .cell hcd, hc⟩
    | builtin f => exact Or.inr ⟨_, _, _, rfl, rfl, .builtin f, hc⟩

namespace Agree

/-- Chains agree if what comes behind their operators does. -/
theorem chain {ops : List Operator} {left left' : Tree} {more more' : Operator → Parser Tree}
    (hl : left.Alike R left') (h : ∀ op, Agree names (Tree.Alike R) (more op) (more' op)) :
    Agree names (Tree.Alike R) (chain ops left more) (chain ops left' more') := by
  refine bind (takeOperator ops) fun found found' hfound => ?_
  subst hfound
  cases found with
  | none => exact pure hl
  | some op => exact h op

/-- Folds agree if their operands and the rests of their chains do. -/
theorem fold {room : Nat} {left left' : Tree} {tail tail' : Tree → Parser Tree} (op : Operator)
    (hl : left.Alike R left') (h : Agree names (Tree.Alike R) p p')
    (ht : ∀ t t', t.Alike R t' → Agree names (Tree.Alike R) (tail t) (tail' t')) :
    Agree names (Tree.Alike R) (fold room left p tail op) (fold room left' p' tail' op) :=
  bind position fun _ _ _ => bind (note _ _) fun _ _ _ => bind h fun _ _ hr =>
    ht _ _ (.binary op hl hr)

/-- Powers agree if their exponents do. -/
theorem powerOf {t t' : Tree} (ht : t.Alike R t') (h : Agree names (Tree.Alike R) p p') :
    Agree names (Tree.Alike R) (powerOf p t) (powerOf p' t') :=
  bind (take (by decide)) fun _ _ hb =>
    ite hb (bind h fun _ _ hr => pure (.binary .power ht hr)) (pure ht)

/-- Groups agree if the expressions in them do. -/
theorem group (h : Agree names (Tree.Alike R) p p') :
    Agree names (Tree.Alike R) (group p) (group p') :=
  bind h fun _ _ ht => bind (take (by decide)) fun _ _ hb => ite hb (pure ht) unexpected

end Agree

/-- Variables and calls agree if the arguments do. -/
theorem named_agreeAt (h : SameBound names scope scope')
    (hp : Agree names (Tree.Alike (Counterparts names scope scope')) p p') {c : Cursor}
    (hn : names (String.ofList (c.run Scope.isLetter)))
    (hc : Covers names (c.skip Scope.isLetter)) :
    AgreeAt names (Tree.Alike (Counterparts names scope scope')) (named scope p c)
      (named scope' p' c) := by
  refine (name_agreeAt h hn hc).bind fun m m' hm => ?_
  cases hm with
  | cell hcd => exact .pure (.cell hcd)
  | builtin f => exact .bind hp fun _ _ ht => .pure (.call f ht)

namespace Agree

/-- The word that a name is read from is the next token, so it is one of the names. -/
theorem base (h : SameBound names scope scope')
    (hp : Agree names (Tree.Alike (Counterparts names scope scope')) p p')
    (hq : Agree names (Tree.Alike (Counterparts names scope scope')) q q') :
    Agree names (Tree.Alike (Counterparts names scope scope')) (base scope p q)
      (base scope' p' q') := by
  intro c hc
  rcases take_cases '(' (by decide) c with ⟨c', ht, htok⟩ | ⟨ht, -⟩
  · rw [Parse.base, Parse.base, bind_of_eq _ ht, bind_of_eq _ ht]
    exact hp.group c' (hc.tail htok)
  rw [base_of_take ht, base_of_take ht]
  cases Cursor.sight c.lookahead_skipSpaces with
  | ended look _ =>
      rw [look]
      exact Or.inl ⟨_, rfl, rfl⟩
  | figure look htok =>
      rw [if_pos look, if_pos look]
      exact number_agreeAt (hc.skipSpaces.tail htok)
  | letter look look' htok =>
      rw [look, look', if_neg Bool.false_ne_true, if_neg Bool.false_ne_true, if_pos rfl, if_pos rfl]
      have hn := hc.skipSpaces (c.skipSpaces.run Scope.isLetter) (by rw [htok]; exact .head _)
      exact named_agreeAt h hq hn (hc.skipSpaces.tail htok)
  | mark ch hm look _ =>
      rw [look, Option.any_some, hm.2.1, Option.any_some, hm.2.2]
      exact Or.inl ⟨_, rfl, rfl⟩

/-- Factors agree if their bases do, and what their signs stand before. -/
theorem signed (h : Agree names (Tree.Alike R) (Parse.base scope p q) (Parse.base scope' p' q'))
    (hq : Agree names (Tree.Alike R) q q') :
    Agree names (Tree.Alike R) (signed scope p q) (signed scope' p' q') := by
  refine bind (take (by decide)) fun _ _ hb => ite hb hq ?_
  refine bind (take (by decide)) fun _ _ hb => ite hb ?_ ?_
  · exact bind hq fun _ _ ht => pure (.negate ht)
  · exact bind h fun _ _ ht => powerOf ht hq

end Agree

/-- The parsers of a phrase agree; what they begin with corresponds. -/
def Matches (names : String → Prop) (scope scope' : Scope) : Phrase → Nat → Prop
  | .moreTerms left, n => ∀ left', left.Alike (Counterparts names scope scope') left' →
      Agree names (Tree.Alike (Counterparts names scope scope'))
        (rule scope (.moreTerms left) n) (rule scope' (.moreTerms left') n)
  | .moreFactors left, n => ∀ left', left.Alike (Counterparts names scope scope') left' →
      Agree names (Tree.Alike (Counterparts names scope scope'))
        (rule scope (.moreFactors left) n) (rule scope' (.moreFactors left') n)
  | phrase, n =>
      Agree names (Tree.Alike (Counterparts names scope scope'))
        (rule scope phrase n) (rule scope' phrase n)

/-- **AGREEMENT OF THE RULES.** Where the names left to read are bound in both scopes or in
    neither, the parsers of a phrase come to one error or to trees that are alike. -/
theorem rule_agree (h : SameBound names scope scope') :
    ∀ phrase n, Matches names scope scope' phrase n := by
  refine rule_induction ?expression_zero ?moreTerms_zero ?moreFactors_zero ?factor_zero
    ?expression_succ ?moreTerms_succ ?moreFactors_succ ?factor_succ ?term ?base
  case expression_zero =>
    intro c hc
    rw [rule_expression_zero, rule_expression_zero]
    exact Agree.exhausted.within c hc
  case moreTerms_zero =>
    intro left left' hl
    rw [rule_moreTerms_zero, rule_moreTerms_zero]
    exact .chain hl fun _ => .exhausted
  case moreFactors_zero =>
    intro left left' hl
    rw [rule_moreFactors_zero, rule_moreFactors_zero]
    exact .chain hl fun _ => .exhausted
  case factor_zero =>
    intro c hc
    rw [rule_factor_zero, rule_factor_zero]
    exact Agree.exhausted.within c hc
  case expression_succ =>
    intro n ht hs c hc
    rw [rule_expression_succ, rule_expression_succ]
    exact (Agree.bind ht hs).within c hc
  case moreTerms_succ =>
    intro n ht hs left left' hl
    rw [rule_moreTerms_succ, rule_moreTerms_succ]
    exact .chain hl fun op => .fold op hl ht hs
  case moreFactors_succ =>
    intro n hf hp left left' hl
    rw [rule_moreFactors_succ, rule_moreFactors_succ]
    exact .chain hl fun op => .fold op hl hf hp
  case factor_succ =>
    intro n hb hf c hc
    rw [rule_factor_succ, rule_factor_succ]
    exact (Agree.signed hb hf).within c hc
  case term =>
    intro n hf hp c hc
    rw [rule_term, rule_term]
    exact (Agree.bind hf hp).within c hc
  case base =>
    intro n he hf c hc
    rw [rule_base, rule_base]
    exact Agree.base h he hf c hc

/-- The end of a text does not depend on the names. -/
theorem ending_agree {t t' : Tree} (ht : t.Alike R t') :
    Agree names (Tree.Alike R) (ending t) (ending t') := by
  intro c hc
  rw [ending_apply, ending_apply]
  exact Agree.ite rfl (.pure ht) .unexpected c.skipSpaces hc.skipSpaces

/-- The parses of a whole text agree. -/
theorem formula_agree (h : SameBound names scope scope') (n : Nat) :
    Agree names (Tree.Alike (Counterparts names scope scope')) (formula scope n)
      (formula scope' n) := by
  rw [formula_eq, formula_eq]
  exact .bind (rule_agree h .expression n) fun _ _ => ending_agree

end Scopes

end Parse

/-! ## Builds -/

/-- Both builds come to one error, or to formulas of one text whose trees are alike. -/
def Report.Alike (R : Cell → Cell → Prop) (r r' : Report) : Prop :=
  (∃ e, r.outcome = .error e ∧ r'.outcome = .error e) ∨
    ∃ f f', r.outcome = .ok f ∧ r'.outcome = .ok f' ∧ f.source = f'.source ∧
      f.root.Alike R f'.root

namespace Draft

/-- Builds of one text agree, up to the cells, if each word of it is bound in both drafts or
    in neither. -/
theorem build_alike {d d' : Draft} {names : String → Prop} (hsource : d.source = d'.source)
    (hw : ∀ letters, .word letters ∈ scan d.source.toList → names (String.ofList letters))
    (hb : SameBound names d.scope d'.scope) (s s' : Store) :
    Report.Alike (Counterparts names d.scope d'.scope) (d.build s) (d'.build s') := by
  rcases formula_agree hb maxDepth (.start d.source.toList) hw with
    ⟨e, h, h'⟩ | ⟨t, t', c, h, h', ht, -⟩
  · rw [hsource] at h'
    exact Or.inl ⟨e, by rw [build, buildWithin_of_error s h],
      by rw [build, buildWithin_of_error s' h']⟩
  · rw [hsource] at h'
    exact Or.inr ⟨⟨d.source, t⟩, ⟨d'.source, t'⟩, by rw [build, buildWithin_of_ok s h],
      by rw [build, buildWithin_of_ok s' h'], hsource, ht⟩

end Draft

/-! ## What the names read -/

/-- Setting a new cell is making it with that value. -/
theorem Store.set_alloc (s : Store) (v w : Float) :
    (s.alloc v).2.set s.fresh w = (s.alloc w).2 := by
  simp [set, alloc, fresh, size]

/-- Of two values that a cell is set to the later one counts. -/
theorem Store.set_set (s : Store) (c : Cell) (v w : Float) : (s.set c v).set c w = s.set c w := by
  simp [set]

/-- What the cell was set to before has no part in the values of a sweep. -/
theorem Formula.sweep_eq (f : Formula) (s : Store) (c : Cell) (values : List Float) :
    (f.sweep s c values).1 = values.map fun v => f.eval (s.set c v) := by
  induction values generalizing s with
  | nil => rfl
  | cons v rest ih =>
      have hrest := ih (s.set c v)
      simp only [Store.set_set] at hrest
      rw [List.map_cons, ← hrest]
      rfl

/-- The value under a name; of several values under one name the last one counts. -/
def contextValue? (context : List (String × Float)) (name : String) : Option Float :=
  context.reverse.lookup name

namespace Draft

variable {d d' : Draft} {s s' : Store} {value? : String → Option Float}

/-- The names of the draft read in the store as they are given, and its cells were made. -/
structure Reads (d : Draft) (s : Store) (value? : String → Option Float) : Prop where
  held : ∀ name c, d.scope.find? name = some c → s.Holds c
  reads : ∀ name, (d.scope.find? name).map s.get = value? name

namespace Reads

/-- A draft without names reads none. -/
theorem ofSource (source : String) (s : Store) : (Draft.ofSource source).Reads s fun _ => none :=
  ⟨fun _ _ h => (nomatch h), fun _ => rfl⟩

/-- A name that is bound to a new cell reads its value, and the others read as before. -/
theorem registerNew (h : d.Reads s value?) (name : String) (v : Float) :
    (d.registerNew s name v).1.Reads (d.registerNew s name v).2
      (Function.update value? name (some v)) := by
  have hscope : (d.registerNew s name v).1.scope = d.scope.bind name s.fresh := rfl
  have hstore : (d.registerNew s name v).2 = (s.alloc v).2 := rfl
  constructor
  · intro other c hc
    rw [hscope] at hc
    rw [hstore, Store.Holds, Store.size_alloc]
    by_cases ho : other = name
    · subst ho
      rw [Scope.find?_bind_self] at hc
      rw [← Option.some.inj hc]
      exact Nat.lt_succ_self _
    · rw [Scope.find?_bind_of_ne _ _ ho] at hc
      exact Nat.lt_succ_of_lt (h.held other c hc)
  · intro other
    rw [hscope, hstore]
    by_cases ho : other = name
    · subst ho
      rw [Scope.find?_bind_self, Function.update_self, Option.map_some, Store.get_alloc_fresh]
    · rw [Scope.find?_bind_of_ne _ _ ho, Function.update_of_ne ho, ← h.reads other]
      exact Option.map_congr fun c hc => s.get_alloc_of_holds v (h.held other c hc)

/-- With a context registered a draft reads the last value of each name, or what it read before. -/
theorem registerAll (h : d.Reads s value?) (context : List (String × Float)) :
    (d.registerAll s context).1.Reads (d.registerAll s context).2
      fun name => (contextValue? context name).or (value? name) := by
  induction context generalizing d s value? with
  | nil => exact h
  | cons entry rest ih =>
      obtain ⟨name, v⟩ := entry
      have hvalue : (fun other => (contextValue? ((name, v) :: rest) other).or (value? other))
          = fun other => (contextValue? rest other).or
              (Function.update value? name (some v) other) := by
        funext other
        rw [contextValue?, List.reverse_cons, List.lookup_append, Option.or_assoc]
        by_cases ho : other = name
        · subst ho
          simp [contextValue?]
        · rw [Function.update_of_ne ho]
          simp [contextValue?, List.lookup_cons, beq_eq_false_iff_ne.mpr ho]
      rw [hvalue]
      exact ih (h.registerNew name v)

/-- A draft that registers a context reads as the context. -/
theorem ofContext (source : String) (context : List (String × Float)) :
    ((Draft.ofSource source).registerAll .empty context).1.Reads
      ((Draft.ofSource source).registerAll .empty context).2 (contextValue? context) := by
  have h := (ofSource source .empty).registerAll context
  simp only [Option.or_none] at h
  exact h

/-- Names that read the same are bound in both drafts or in neither. -/
theorem sameBound (h : d.Reads s value?) (h' : d'.Reads s' value?) (names : String → Prop) :
    SameBound names d.scope d'.scope := by
  intro name _
  have hr := (h.reads name).trans (h'.reads name).symm
  rw [← Option.isSome_map (f := s.get), hr, Option.isSome_map]

/-- Cells of one name hold the same value. -/
theorem get_eq (h : d.Reads s value?) (h' : d'.Reads s' value?) {names : String → Prop}
    {c c' : Cell} (hc : Counterparts names d.scope d'.scope c c') : s.get c = s'.get c' := by
  obtain ⟨name, -, hf, hf'⟩ := hc
  have hr := (h.reads name).trans (h'.reads name).symm
  rw [hf, hf'] at hr
  exact Option.some.inj hr

/-- **READ ANEW.** Where the names of two drafts of one text read the same, their builds come to
    one error or to formulas of one value. -/
theorem map_eval_eq (h : d.Reads s value?) (h' : d'.Reads s' value?)
    (hsource : d.source = d'.source) (t t' : Store) :
    (d.build t).outcome.map (·.eval s) = (d'.build t').outcome.map (·.eval s') := by
  rcases build_alike hsource (fun _ _ => trivial) (h.sameBound h' fun _ => True) t t' with
    ⟨e, he, he'⟩ | ⟨f, f', hf, hf', -, hR⟩
  · rw [he, he']
    rfl
  · rw [hf, hf']
    exact congrArg Except.ok (hR.eval_eq fun _ _ hc => h.get_eq h' hc)

end Reads

/-- Registering leaves the text as it is. -/
theorem source_registerAll (d : Draft) (s : Store) (context : List (String × Float)) :
    (d.registerAll s context).1.source = d.source := by
  induction context generalizing d s with
  | nil => rfl
  | cons entry rest ih => exact ih _ _

/-- A context is read as the draft that registers it. -/
theorem evaluate_eq (source : String) {context : List (String × Float)}
    (hd : d.Reads s (contextValue? context)) (hsource : d.source = source) (t : Store) :
    evaluate source context = (d.build t).outcome.map (·.eval s) := by
  have hsources := (source_registerAll (.ofSource source) .empty context).trans hsource.symm
  exact (Reads.ofContext source context).map_eval_eq hd hsources _ t

/-- **KEPT OR READ ANEW.** A text is built once, with a cell for each value of a context and then
    one for a name.  If the build fails, the text fails with the same error in the context with
    any value under the name, in whatever order that is written down; and otherwise setting the
    last cell to some values in turn gives the values that the text has in the context with each
    of them.  The error and the tree, but for its cells, depend on which names are bound. -/
theorem sweep_eq_evaluate (source : String) (context : List (String × Float)) (name : String)
    (initial : Float) (override : Float → List (String × Float))
    (hover : ∀ v, contextValue? (override v)
      = Function.update (contextValue? context) name (some v)) :
    let base := (Draft.ofSource source).registerAll .empty context
    let kept := base.1.registerNew base.2 name initial
    let outcome := (kept.1.build kept.2).outcome
    (∀ e, outcome = .error e → ∀ v, evaluate source (override v) = .error e) ∧
    (∀ f, outcome = .ok f → ∀ values,
      (f.sweep kept.2 base.2.fresh values).1.map Except.ok
        = values.map fun v => evaluate source (override v)) ∧
    ∀ d d' : Draft, d.source = source → d'.source = source →
      (∀ name, (d.scope.find? name).isSome = (d'.scope.find? name).isSome) → ∀ s s',
        Report.Alike (Counterparts (fun _ => True) d.scope d'.scope) (d.build s) (d'.build s') := by
  intro base kept outcome
  have hbase : base.1.Reads base.2 (contextValue? context) := .ofContext source context
  have hsource : kept.1.source = source := source_registerAll _ _ _
  -- the last cell, set to a value, is as if it had been made with it
  have hkept : ∀ v, kept.1.Reads (kept.2.set base.2.fresh v) (contextValue? (override v)) := by
    intro v
    have hstore : kept.2.set base.2.fresh v = (base.1.registerNew base.2 name v).2 :=
      base.2.set_alloc initial v
    have h := hbase.registerNew name v
    rw [hover, hstore]
    exact ⟨h.held, h.reads⟩
  refine ⟨?_, ?_, ?_⟩
  · intro e he v
    have hev := evaluate_eq source (hkept v) hsource kept.2
    rwa [show (kept.1.build kept.2).outcome = .error e from he] at hev
  · intro f hf values
    rw [f.sweep_eq, List.map_map]
    refine List.map_congr_left fun v _ => ?_
    have hev := evaluate_eq source (hkept v) hsource kept.2
    rw [show (kept.1.build kept.2).outcome = .ok f from hf] at hev
    exact hev.symm
  · intro d d' hd hd' hn s s'
    exact build_alike (hd.trans hd'.symm) (fun _ _ => trivial) (fun name _ => hn name) s s'

/-- A product with a cell for `k` and then one for `sin`, which the context has as well. -/
def shadowedSine : Draft × Store :=
  let base := (Draft.ofSource "k*sin").registerAll .empty [("sin", 1.0), ("k", 2.0)]
  base.1.registerNew base.2 "sin" 0.0

/-- The name of a function is a variable here, and the last cell of the name counts. -/
theorem sweep_eq_evaluate_shadowing :
    let f : Formula := ⟨"k*sin", .binary (.cell ⟨1⟩) .multiply (.cell ⟨2⟩)⟩
    (shadowedSine.1.build shadowedSine.2).outcome = .ok f ∧
      ∀ values, (f.sweep shadowedSine.2 ⟨2⟩ values).1.map Except.ok
        = values.map fun v => evaluate "k*sin" [("k", 2.0), ("sin", v)] := by
  intro f
  have hf : (shadowedSine.1.build shadowedSine.2).outcome = .ok f := by rfl
  have hover : ∀ v, contextValue? [("k", 2.0), ("sin", v)]
      = Function.update (contextValue? [("sin", 1.0), ("k", 2.0)]) "sin" (some v) := by
    intro v
    funext name
    by_cases hn : name = "sin"
    · subst hn
      rw [Function.update_self]
      rfl
    · rw [Function.update_of_ne hn]
      simp [contextValue?, List.lookup_cons, beq_eq_false_iff_ne.mpr hn]
  obtain ⟨-, hok, -⟩ := sweep_eq_evaluate "k*sin" [("sin", 1.0), ("k", 2.0)] "sin" 0.0 _ hover
  exact ⟨hf, hok f hf⟩

end Draft

end LiveArith
