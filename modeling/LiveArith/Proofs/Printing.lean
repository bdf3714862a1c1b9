import LiveArith.Proofs.Language
import LiveArith.Tree.Written

/-! # Printing — written trees are read back

    Wherever a tree may stand without parentheses, a text that writes it there has
    the tokens of the phrase that is read there, with that tree.  The route:

    * a phrase that may stand in a tight place may stand in a looser one
      (`derives_loosen`);
    * a chain takes one more operand at its end and folds it over what came before
      (`derives_snoc`);
    * one induction over how the tree is written puts these together
      (`derives_of_written`). -/

namespace LiveArith

open LiveArith.Grammar LiveArith.Parse

/-! ## Places -/

namespace Grammar.Phrase

/-- What is read in a place: the phrases from the loosest to the tightest. -/
def place : Nat → Phrase
  | 0 => expression
  | 1 => term
  | 2 => factor
  | _ => base

end Grammar.Phrase

variable {scope : Scope} {n m : Nat} {ts us : List Token} {l r t : Tree}

/-- What stands in a place stands in the next looser one, a level deeper at most. -/
theorem derives_loosen_one (p : Nat) (h : Derives scope (.place (p + 1)) n ts t) :
    Derives scope (.place p) (n + 1) ts t := by
  match p with
  | 0 => exact List.append_nil ts ▸ .expression h .lastTerm
  | 1 => exact List.append_nil ts ▸ .term (derives_mono h n.le_succ) .lastFactor
  | 2 => exact .bare h
  | _ + 3 => exact derives_mono h n.le_succ

/-- What stands in a place may stand in every looser one. -/
theorem derives_loosen {p q : Nat} (hpq : p ≤ q) (h : Derives scope (.place q) n ts t) :
    ∃ k, Derives scope (.place p) k ts t := by
  induction hpq generalizing n with
  | refl => exact ⟨n, h⟩
  | @step q _ ih => exact ih (derives_loosen_one q h)

/-- A base stands in every place. -/
theorem derives_place_of_base (p : Nat) (h : Derives scope .base n ts t) :
    ∃ k, Derives scope (.place p) k ts t :=
  derives_loosen (q := p + 3) (by omega) h

/-! ## Chains -/

/-- **ONE MORE OPERAND.** At the end of a chain an operand is folded over all before it. -/
theorem derives_snoc {phrase : Phrase} (h : Derives scope phrase n ts l) {op : Operator}
    (hop : op ∈ phrase.operators) (hr : Derives scope phrase.operand m us r) :
    Derives scope phrase (n + m + 1) (ts ++ .mark op.symbol :: us) (.binary l op r) := by
  -- the tree before the chain changes with every operand, so the induction is over the chain
  induction h with
  | @expression n _ _ _ _ h₁ _ _ ih₂ =>
      rw [List.append_assoc, Nat.add_right_comm n 1 m]
      exact .expression (derives_mono h₁ (by omega)) (ih₂ hop hr)
  | term h₁ _ _ ih₂ =>
      rw [List.append_assoc]
      exact .term (derives_mono h₁ (by omega)) (ih₂ hop hr)
  | @lastTerm n _ =>
      rw [← List.append_nil (_ :: us)]
      exact .nextTerm hop (derives_mono hr (by omega)) .lastTerm
  | @nextTerm n _ _ _ _ _ _ hop₁ h₁ _ _ ih₂ =>
      rw [List.append_assoc, Nat.add_right_comm n 1 m]
      exact .nextTerm hop₁ (derives_mono h₁ (by omega)) (ih₂ hop hr)
  | @lastFactor n _ =>
      rw [← List.append_nil (_ :: us)]
      exact .nextFactor hop (derives_mono hr (by omega)) .lastFactor
  | @nextFactor n _ _ _ _ _ _ hop₁ h₁ _ _ ih₂ =>
      rw [List.append_assoc, Nat.add_right_comm n 1 m]
      exact .nextFactor hop₁ (derives_mono h₁ (by omega)) (ih₂ hop hr)
  | plus | minus | call | bare | power | group | number | name => exact nomatch hop

/-- An operator between what stands in its two places stands where its level may. -/
theorem derives_binary (op : Operator) (hl : Derives scope (.place op.leftPlace) n ts l)
    (hr : Derives scope (.place op.rightPlace) m us r) :
    ∃ k, Derives scope (.place op.level) k (ts ++ .mark op.symbol :: us) (.binary l op r) := by
  cases op with
  | add | subtract =>
      have hsum : Derives scope .expression n ts l := hl
      exact ⟨n + m + 1, derives_snoc hsum (by decide) hr⟩
  | multiply | divide =>
      have hproduct : Derives scope .term n ts l := hl
      exact ⟨n + m + 1, derives_snoc hproduct (by decide) hr⟩
  | power =>
      exact ⟨n + m + 1, .power (derives_mono hl (by omega)) (derives_mono hr (by omega))⟩

/-! ## Written trees -/

/-- A literal is not empty. -/
theorem ne_nil_of_read? {run : List Char} {v : Float} (h : Literal.read? run = some v) :
    run ≠ [] := by
  rintro rfl
  exact nomatch h

/-- The name of a builtin is one token. -/
theorem scan_name (f : Builtin) : Token.scan f.name.toList = [.word f.name.toList] := by
  have hne : f.name.toList ≠ [] := by cases f <;> decide
  have hall : f.name.toList.all Scope.isLetter = true := by cases f <;> rfl
  exact Token.scan_whole_run .letters hne (List.all_eq_true.1 hall)

/-- **WRITTEN TREES.** A text that writes a tree in a place has the tokens of the phrase that is
    read there, with that tree. -/
theorem derives_of_written {p : Nat} {text : List Char} (h : Tree.Written scope p t text) :
    ∃ n, Derives scope (.place p) n (Token.scan text) t := by
  induction h with
  | constant hrun hv =>
      rw [Token.scan_whole_run .figures (ne_nil_of_read? hv) hrun]
      exact derives_place_of_base (n := 0) _ (.number hv)
  | cell hne hname hc =>
      rw [Token.scan_whole_run .letters hne hname]
      exact derives_place_of_base (n := 0) _ (.name (by simp [Scope.meaning?, hc]))
  | negate hp _ ih =>
      -- bare in its place, so the place is no tighter than that of a factor
      obtain ⟨n, hd⟩ := ih
      rw [Token.scan_isMark (by decide)]
      exact derives_loosen hp (.minus hd)
  | @call _ f _ _ hp hf _ ih =>
      obtain ⟨n, hd⟩ := ih
      rw [Token.scan_append_space, scan_name]
      have hm : scope.meaning? (String.ofList f.name.toList) = some (.builtin f) := by
        rw [String.ofList_toList]
        simp [Scope.meaning?, hf]
      exact derives_loosen hp (.call hm hd)
  | @binary _ op _ _ _ _ hp _ _ ihl ihr =>
      obtain ⟨n, hl⟩ := ihl
      obtain ⟨m, hr⟩ := ihr
      obtain ⟨k, hd⟩ := derives_binary op hl hr
      rw [Token.scan_append_mark op.isMark_symbol]
      exact derives_loosen hp hd
  | group _ _ ih =>
      obtain ⟨n, hd⟩ := ih
      rw [List.cons_append, Token.scan_isMark (by decide), Token.scan_append_mark (by decide),
        Token.scan_nil]
      exact derives_place_of_base _ (.group hd)

/-! ## Printing -/

namespace Tree

/-- The text of a tree in a place, for a choice of the literals and of the names of cells. -/
def print (literal : Float → List Char) (name : Cell → List Char) : Nat → Tree → List Char
  | _, constant v => literal v
  | _, cell c => name c
  | p, negate t => bracket (p ≤ 2) ('-' :: t.print literal name 2)
  | p, call f t => bracket (p ≤ 2) (f.name.toList ++ ' ' :: t.print literal name 2)
  | p, binary l op r =>
    bracket (p ≤ op.level)
      (l.print literal name op.leftPlace ++ op.symbol :: r.print literal name op.rightPlace)
where
  bracket (bare : Bool) (text : List Char) : List Char :=
    if bare then text else '(' :: text ++ [')']

variable {scope : Scope} {literal : Float → List Char} {name : Cell → List Char}

/-- What may stand bare in the loosest place stands in any other, in parentheses if need be. -/
theorem written_bracket {p : Nat} {t : Tree} {text : List Char}
    (h : ∀ q ≤ t.level, Written scope q t text) :
    Written scope p t (print.bracket (p ≤ t.level) text) := by
  by_cases hp : p ≤ t.level
  · simpa [print.bracket, hp] using h p hp
  · simpa [print.bracket, hp] using
      Written.group (Nat.lt_of_not_le hp) (h 0 (Nat.zero_le _))

/-- **PRINTING.** A tree of numbers with a literal, cells with a name and functions in sight is
    written by its print. -/
theorem written_print {t : Tree} (hv : ∀ v ∈ t.constants,
      (∀ ch ∈ literal v, Literal.isFigure ch) ∧ Literal.read? (literal v) = some v)
    (hc : ∀ c ∈ t.cells, name c ≠ [] ∧ (∀ ch ∈ name c, Scope.isLetter ch) ∧
      scope.find? (String.ofList (name c)) = some c)
    (hf : ∀ f ∈ t.calls, scope.find? f.name = none) :
    ∀ p, Written scope p t (t.print literal name p) := by
  induction t with
  | constant v =>
      intro p
      obtain ⟨hrun, hread⟩ := hv v (List.mem_singleton_self v)
      exact .constant hrun hread
  | cell c =>
      intro p
      obtain ⟨hne, hname, hfind⟩ := hc c (List.mem_singleton_self c)
      exact .cell hne hname hfind
  | negate t ih =>
      intro p
      exact written_bracket fun q hq => .negate hq (ih hv hc hf 2)
  | binary l op r ihl ihr =>
      intro p
      refine written_bracket fun q hq => .binary hq (ihl ?_ ?_ ?_ _) (ihr ?_ ?_ ?_ _)
      · exact fun v hm => hv v (List.mem_append_left _ hm)
      · exact fun c hm => hc c (List.mem_append_left _ hm)
      · exact fun f hm => hf f (List.mem_append_left _ hm)
      · exact fun v hm => hv v (List.mem_append_right _ hm)
      · exact fun c hm => hc c (List.mem_append_right _ hm)
      · exact fun f hm => hf f (List.mem_append_right _ hm)
  | call f t ih =>
      intro p
      have ht := ih hv hc (fun g hg => hf g (List.mem_cons_of_mem f hg))
      exact written_bracket fun q hq => .call hq (hf f List.mem_cons_self) (ht 2)

end Tree

/-! ## Reading back -/

/-- **READING BACK.** A text that writes a tree builds to that very tree, unless its parse needs
    a level where none is left. -/
theorem Draft.build_of_written {d : Draft} {t : Tree}
    (h : Tree.Written d.scope 0 t d.source.toList)
    (hlimit : ∀ p, Step.exhausted p ∉ (d.parseWithin maxDepth).steps) (s : Store) :
    (d.build s).outcome = .ok ⟨d.source, t⟩ := by
  obtain ⟨n, hd⟩ := derives_of_written h
  rcases Draft.parse_or_exhausts hd with ⟨c, hp⟩ | he
  · rw [Draft.build, Draft.buildWithin_of_ok s hp]
  · obtain ⟨p, hp⟩ := he.mem
    exact absurd hp (hlimit p)

/-- A call of a negated power on a sum, less a difference: every place and every level. -/
def sampleTree : Tree :=
  let x := Tree.cell ⟨0⟩
  let two := Tree.constant (Binary64.toFloat (Literal.decimal ['2']).magnitude)
  .binary (.binary (.negate (.binary (.binary x .add two) .power (.call .sin x))) .multiply two)
    .subtract (.binary two .subtract x)

def sampleDraft : Draft where
  source := String.ofList (sampleTree.print (fun _ => ['2']) (fun _ => ['x']) 0)
  scope := ⟨[("x", ⟨0⟩)]⟩
  log := []

/-- The sample reads `-(x+2)^sin x*2-(2-x)` and builds to the tree it was printed from. -/
theorem build_sampleDraft :
    (sampleDraft.build .empty).outcome = .ok ⟨sampleDraft.source, sampleTree⟩ := by
  have htext : sampleDraft.source.toList = "-(x+2)^sin x*2-(2-x)".toList := by
    rw [sampleDraft, String.toList_ofList]
    decide
  refine Draft.build_of_written ?_ ?_ .empty
  · rw [sampleDraft, String.toList_ofList]
    refine Tree.written_print ?_ ?_ ?_ 0
    · intro v hv
      obtain rfl := List.eq_of_mem_replicate (n := 3) hv
      exact ⟨List.all_eq_true.1 rfl, if_pos rfl⟩
    · intro c hc
      obtain rfl := List.eq_of_mem_replicate (n := 3) hc
      exact ⟨List.cons_ne_nil _ _, List.all_eq_true.1 rfl, rfl⟩
    · intro f hf
      obtain rfl := List.mem_singleton.1 hf
      rfl
  · -- the steps of this parse are known, and none of them tells of a missing level
    intro p hp
    have hall : (sampleDraft.parseWithin maxDepth).steps.all
        (fun step => match step with | .exhausted _ => false | _ => true) = true := by
      rw [Draft.parseWithin, htext]
      decide
    exact nomatch List.all_eq_true.1 hall _ hp

end LiveArith
