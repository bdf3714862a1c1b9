import LiveArith.Proofs.Language

/-! # Spellings — what a sign, a function and a power take

    A tree does not show the parentheses and plus signs of its text.  A `Spelling`
    does, and both the tokens of the text and the tree can be read off it.  The
    route:

    * where a part stands in a spelling is told by the tokens before and after it
      (`Spelling.Stands`);
    * every expression of the grammar has a spelling (`derives_spelled`) in which the
      left operand of a power is a number, a name or a group (`Spelling.Regular`);
    * so a sign or a call never stands there, nor at the end of what stands there,
      and no `^` comes after its operand (`Stands.head_ne_power`). -/

namespace LiveArith

open LiveArith.Grammar LiveArith.Parse LiveArith.Token

/-- A formula as it is written. -/
inductive Spelling where
  | number (run : List Char) (value : Float)
  | name (letters : List Char) (identity : Cell)
  | plus (operand : Spelling)
  | minus (operand : Spelling)
  | call (letters : List Char) (function : Builtin) (argument : Spelling)
  | binary (left : Spelling) (operator : Operator) (right : Spelling)
  | group (inner : Spelling)

namespace Spelling

/-- The tokens that are written. -/
def tokens : Spelling → List Token
  | number run _ => [.number run]
  | name letters _ => [.word letters]
  | plus s => .mark '+' :: s.tokens
  | minus s => .mark '-' :: s.tokens
  | call letters _ s => .word letters :: s.tokens
  | binary l op r => l.tokens ++ .mark op.symbol :: r.tokens
  | group s => .mark '(' :: s.tokens ++ [.mark ')']

/-- The tree that is meant: neither a group nor a plus sign leaves a trace in it. -/
def tree : Spelling → Tree
  | number _ v => .constant v
  | name _ c => .cell c
  | plus s => s.tree
  | minus s => .negate s.tree
  | call _ f s => .call f s.tree
  | binary l op r => .binary l.tree op r.tree
  | group s => s.tree

/-- What can stand before a `^`: a number, a name or a group. -/
def IsBase : Spelling → Prop
  | number _ _ | name _ _ | group _ => True
  | plus _ | minus _ | call _ _ _ | binary _ _ _ => False

/-- A sign or a function with its operand. -/
def IsApplied : Spelling → Prop
  | plus _ | minus _ | call _ _ _ => True
  | number _ _ | name _ _ | binary _ _ _ | group _ => False

/-- The left operand of every power can stand before a `^`. -/
def Regular : Spelling → Prop
  | number _ _ | name _ _ => True
  | plus s | minus s | call _ _ s | group s => s.Regular
  | binary l op r => l.Regular ∧ r.Regular ∧ (op = .power → l.IsBase)

/-- `Stands whole before part after`: the part stands in the whole, with these tokens of the
    whole before it and after it. -/
inductive Stands : Spelling → List Token → Spelling → List Token → Prop where
  | here {s} : Stands s [] s []
  | plus {s before part after} : Stands s before part after →
      Stands (plus s) (.mark '+' :: before) part after
  | minus {s before part after} : Stands s before part after →
      Stands (minus s) (.mark '-' :: before) part after
  | call {letters f s before part after} : Stands s before part after →
      Stands (call letters f s) (.word letters :: before) part after
  | left {l op r before part after} : Stands l before part after →
      Stands (binary l op r) before part (after ++ .mark op.symbol :: r.tokens)
  | right {l op r before part after} : Stands r before part after →
      Stands (binary l op r) (l.tokens ++ .mark op.symbol :: before) part after
  | group {s before part after} : Stands s before part after →
      Stands (group s) (.mark '(' :: before) part (after ++ [.mark ')'])

namespace Stands

variable {whole part : Spelling} {before after : List Token}

/-- The tokens of a part are those of the whole that are neither before it nor after it. -/
theorem tokens_eq (h : Stands whole before part after) :
    whole.tokens = before ++ part.tokens ++ after := by
  induction h with
  | here => rw [List.nil_append, List.append_nil]
  | plus _ ih | minus _ ih | call _ ih | group _ ih => simp [Spelling.tokens, ih]
  | left _ ih | right _ ih => simp [Spelling.tokens, ih]

/-- A part of a regular spelling is regular. -/
theorem regular (h : Stands whole before part after) (hw : whole.Regular) : part.Regular := by
  induction h with
  | here => exact hw
  | plus _ ih | minus _ ih | call _ ih | group _ ih => exact ih hw
  | left _ ih => exact ih hw.1
  | right _ ih => exact ih hw.2.1

/-- What ends a base is a base. -/
theorem isBase (h : Stands whole before part after) (ha : after = []) (hw : whole.IsBase) :
    part.IsBase := by
  cases h with
  | here => exact hw
  | group _ => exact absurd ha (List.append_ne_nil_of_right_ne_nil _ (List.cons_ne_nil _ _))
  | plus _ | minus _ | call _ | left _ | right _ => exact False.elim hw

/-- No `^` comes after a sign or a function with its operand. -/
theorem head_ne_power (h : Stands whole before part after) (hw : whole.Regular)
    (hp : part.IsApplied) : after.head? ≠ some (.mark '^') := by
  induction h with
  | here => exact nofun
  | plus _ ih | minus _ ih | call _ ih => exact ih hw hp
  | right _ ih => exact ih hw.2.1 hp
  | @left l op r before part after h ih =>
      cases after with
      | nil =>
          -- then the part ends the left operand, and that of a power is a base
          intro hhead
          have hsymbol : op.symbol = '^' := by simpa using hhead
          have hop : op = .power := Operator.symbol_inj hsymbol
          have hbase := h.isBase rfl (hw.2.2 hop)
          cases part <;> first | exact hp | exact hbase
      | cons a after => exact ih hw.1 hp
  | @group s before part after h ih =>
      cases after with
      | nil => exact fun hhead => absurd (Token.mark.inj (Option.some.inj hhead)) (by decide)
      | cons a after => exact ih hw hp

/-- The left operand of a power that is neither a number nor a name stands in parentheses of its
    own. -/
theorem exists_group {l r : Spelling} (h : Stands whole before (.binary l .power r) after)
    (hw : whole.Regular) (hv : ∀ v, l.tree ≠ .constant v) (hc : ∀ c, l.tree ≠ .cell c) :
    ∃ inner, l = .group inner ∧ whole.tokens =
      before ++ (.mark '(' :: inner.tokens ++ [.mark ')']) ++ .mark '^' :: r.tokens ++ after := by
  have hbase : l.IsBase := (h.regular hw).2.2 rfl
  cases l with
  | number run v => exact absurd rfl (hv v)
  | name letters c => exact absurd rfl (hc c)
  | group inner =>
      refine ⟨inner, rfl, h.tokens_eq.trans ?_⟩
      simp [Spelling.tokens, Operator.symbol]
  | plus _ | minus _ | call _ _ _ | binary _ _ _ => exact False.elim hbase

end Stands

end Spelling

/-! ## The spelling of a phrase -/

namespace Grammar

/-- The spelling has these tokens and this tree. -/
structure Spells (sp : Spelling) (ts : List Token) (t : Tree) : Prop where
  regular : sp.Regular
  tokens_eq : sp.tokens = ts
  tree_eq : sp.tree = t

/-- The phrase has a spelling, which for a base can stand before a `^`; the rest of a chain goes
    on after any spelling of what comes before it. -/
def Phrase.IsSpelled : Phrase → List Token → Tree → Prop
  | .expression, ts, t | .term, ts, t | .factor, ts, t => ∃ sp, Spells sp ts t
  | .base, ts, t => ∃ sp, Spells sp ts t ∧ sp.IsBase
  | .moreTerms left, us, t | .moreFactors left, us, t =>
    ∀ sl ts, Spells sl ts left → ∃ sp, Spells sp (ts ++ us) t

/-- An operator that joins terms or factors makes no demand on its left operand. -/
theorem Spells.binary {sl sr : Spelling} {ts us : List Token} {l r : Tree} {op : Operator}
    (h : Spells sl ts l) (h' : Spells sr us r) (hop : op ≠ .power) :
    Spells (.binary sl op sr) (ts ++ .mark op.symbol :: us) (.binary l op r) := by
  obtain ⟨hl, rfl, rfl⟩ := h
  obtain ⟨hr, rfl, rfl⟩ := h'
  exact ⟨⟨hl, hr, fun he => absurd he hop⟩, rfl, rfl⟩

/-- **SPELLINGS.** Every phrase has a regular spelling. -/
theorem derives_spelled {scope : Scope} {phrase : Phrase} {n : Nat} {ts : List Token} {t : Tree}
    (h : Derives scope phrase n ts t) : phrase.IsSpelled ts t := by
  induction h with
  | expression _ _ ih ih' | term _ _ ih ih' =>
      obtain ⟨sl, hl⟩ := ih
      exact ih' sl _ hl
  | lastTerm | lastFactor => exact fun sl ts hl => ⟨sl, by rwa [List.append_nil]⟩
  | nextTerm hop _ _ ih ih' | nextFactor hop _ _ ih ih' =>
      intro sl ss hl
      obtain ⟨sr, hr⟩ := ih
      obtain ⟨sp, hsp⟩ := ih' _ _ (hl.binary hr (by rintro rfl; exact absurd hop (by decide)))
      exact ⟨sp, by rwa [List.append_assoc] at hsp⟩
  | plus _ ih =>
      obtain ⟨s, hs, rfl, rfl⟩ := ih
      exact ⟨.plus s, hs, rfl, rfl⟩
  | minus _ ih =>
      obtain ⟨s, hs, rfl, rfl⟩ := ih
      exact ⟨.minus s, hs, rfl, rfl⟩
  | @call n letters f ts t _ _ ih =>
      obtain ⟨s, hs, rfl, rfl⟩ := ih
      exact ⟨.call letters f s, hs, rfl, rfl⟩
  | bare _ ih =>
      obtain ⟨s, hs, -⟩ := ih
      exact ⟨s, hs⟩
  | power _ _ ih ih' =>
      obtain ⟨sl, ⟨hl, rfl, rfl⟩, hbase⟩ := ih
      obtain ⟨sr, hr, rfl, rfl⟩ := ih'
      exact ⟨.binary sl .power sr, ⟨hl, hr, fun _ => hbase⟩, rfl, rfl⟩
  | group _ ih =>
      obtain ⟨s, hs, rfl, rfl⟩ := ih
      exact ⟨.group s, ⟨hs, rfl, rfl⟩, True.intro⟩
  | @number n run v _ => exact ⟨.number run v, ⟨True.intro, rfl, rfl⟩, True.intro⟩
  | @name n letters c _ => exact ⟨.name letters c, ⟨True.intro, rfl, rfl⟩, True.intro⟩

end Grammar

/-! ## Where the rules stop -/

namespace Parse

variable {scope : Scope} {n : Nat} {c c' : Cursor} {t : Tree}

/-- After the argument of a function no `^` is found. -/
theorem take_power_of_call {f : Builtin}
    (h : (named scope (factor scope n) c).result = .ok (.call f t, c')) :
    Parser.take '^' c' = ⟨[], .ok (false, c')⟩ := by
  obtain ⟨meaning, c₁, -, hr⟩ := Parser.bind_eq_ok.1 h
  cases meaning with
  | cell d => exact nomatch hr
  | builtin g =>
      obtain ⟨u, c₂, hu, hr⟩ := Parser.bind_eq_ok.1 hr
      obtain ⟨-, rfl⟩ := Prod.mk.inj (Except.ok.inj hr)
      have hstops : Stops .factor c₂ := (rule_sound scope .factor n c₁ u c₂ hu).stops
      have hskip := Cursor.skipSpaces_of_lookahead (hstops ' ' (by decide))
      have hne : c₂.tokens.head? ≠ some (.mark '^') := by
        intro hhead
        obtain ⟨us, hus⟩ := List.head?_eq_some_iff.1 hhead
        exact hstops.ne_power hus
      rw [Parser.take_of_ne (by decide) hne, hskip]

end Parse

namespace Draft

/-- **ATTACHMENT.** A factor stops before neither a space nor a `^`, a term not before `*` or `/`
    either, and an expression not before `+` or `-` either, so that no `^` is found after the
    argument of a function.  What builds has a spelling in which the left operand of a power that
    is neither a number nor a name stands in parentheses of its own, and in which no `^` comes
    after what a sign or a function is applied to. -/
theorem build_attaches (d : Draft) (s : Store) :
    (∀ n c t c', (factor d.scope n c).result = .ok (t, c') →
      ∀ ch ∈ [' ', '^'], c'.lookahead ≠ some ch) ∧
    (∀ n c t c', (term d.scope n c).result = .ok (t, c') →
      ∀ ch ∈ [' ', '^', '*', '/'], c'.lookahead ≠ some ch) ∧
    (∀ n c t c', (expression d.scope n c).result = .ok (t, c') →
      ∀ ch ∈ [' ', '^', '*', '/', '+', '-'], c'.lookahead ≠ some ch) ∧
    (∀ n c f t c', (named d.scope (factor d.scope n) c).result = .ok (.call f t, c') →
      Parser.take '^' c' = ⟨[], .ok (false, c')⟩) ∧
    ∀ f, (d.build s).outcome = .ok f → ∃ sp : Spelling,
      sp.tokens = Token.scan d.source.toList ∧ sp.tree = f.root ∧
      (∀ before l r after, sp.Stands before (.binary l .power r) after →
        (∀ v, l.tree ≠ .constant v) → (∀ c, l.tree ≠ .cell c) →
          ∃ inner, l = .group inner ∧ Token.scan d.source.toList = before ++
            (.mark '(' :: inner.tokens ++ [.mark ')']) ++ .mark '^' :: r.tokens ++ after) ∧
      ∀ before part after, sp.Stands before part after → part.IsApplied →
        after.head? ≠ some (.mark '^') := by
  refine ⟨fun n c t c' h => (rule_sound d.scope .factor n c t c' h).stops,
    fun n c t c' h => (rule_sound d.scope .term n c t c' h).stops,
    fun n c t c' h => (rule_sound d.scope .expression n c t c' h).stops,
    fun n c f t c' h => take_power_of_call h, fun f hf => ?_⟩
  obtain ⟨-, hd⟩ := (buildWithin_eq_ok_iff s f).1 hf
  obtain ⟨sp, hregular, htokens, htree⟩ := derives_spelled hd
  refine ⟨sp, htokens, htree, fun before l r after h hv hc => ?_,
    fun _ _ _ h hp => h.head_ne_power hregular hp⟩
  rw [← htokens]
  exact h.exists_group hregular hv hc

end Draft

end LiveArith
