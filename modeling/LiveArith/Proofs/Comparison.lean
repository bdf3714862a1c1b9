import Mathlib
import LiveArith.Proofs.Language

/-! # Comparison — trees that compare equal

    Comparing two trees as numbers is weaker than comparing their bits, and even a tree
    and itself may differ.  On the trees of formulas it is equality.  The route:

    * comparison goes shape by shape (`Tree.equal_of_beq`, `Tree.Equal.beq`), so it is
      symmetric, transitive, and reflexive where there is no NaN;
    * a literal has a clear sign bit and is no NaN (`Literal.isMagnitude_of_read?`), so
      of two that compare equal the bits agree (`Binary64.IsMagnitude.eq_of_beq`);
    * what a formula can have for leaves and calls (`Tree.Fits`, `derives_fits`), and so
      trees of formulas that compare equal are the same (`Tree.IsBuilt.eq_of_beq`). -/

namespace LiveArith

open LiveArith.Grammar LiveArith.Token

/-! ## Magnitudes -/

namespace Binary64

/-- The value is no NaN and has a clear sign bit: a finite magnitude or infinity. -/
structure IsMagnitude (x : Float) : Prop where
  isNaN : x.isNaN = false
  isNegative : isNegative x = false

section Patterns

open Float.Model Float.Model.UnpackedFloat

/-- A pattern up to that of infinity is no NaN. -/
theorem isNaNBits_of_le {b : BitVec Format.binary64.numBits} (h : b.toNat ≤ infinity) :
    isNaNBits b = false := by
  rw [isNaNBits, decide_eq_false_iff_not, unpackExponent_def, unpackMantissa_def]
  rintro ⟨hexponent, hmantissa⟩
  -- an exponent of ones leaves no room for a mantissa below the pattern of infinity
  refine hmantissa (BitVec.eq_of_toNat_eq ?_)
  have hexponent := congrArg BitVec.toNat hexponent
  simp only [infinity, BitVec.extractLsb'_toNat] at h hexponent ⊢
  simp only [Nat.reducePow, BitVec.reduceNeg, BitVec.toNat_ofNat, Nat.mod_succ, Nat.shiftRight_zero,
    Nat.zero_mod] at hexponent ⊢
  omega

/-- **PATTERNS.** A pattern up to that of infinity is kept by the value it stands for. -/
theorem toNat_toBits_toFloat {b : Nat} (h : b ≤ infinity) : (toFloat b).toBits.toNat = b := by
  have hb : (UInt64.ofNat b).toNat = b := by
    rw [UInt64.toNat_ofNat']
    exact Nat.mod_eq_of_lt (Nat.lt_of_le_of_lt h (by decide))
  have hbits : (toFloat b).toBits.toBitVec = (UInt64.ofNat b).toBitVec := by
    refine (pack_unpack _).trans (if_neg ?_)
    rw [Bool.not_eq_true]
    exact isNaNBits_of_le (hb.trans_le h)
  rw [UInt64.toBitVec_inj.1 hbits, hb]

/-- A pattern up to that of infinity is the bits of a magnitude. -/
theorem isMagnitude_toFloat {b : Nat} (h : b ≤ infinity) : IsMagnitude (toFloat b) := by
  have hb := toNat_toBits_toFloat h
  refine ⟨?_, ?_⟩
  · rw [Bool.eq_false_iff]
    intro hnan
    have hbits := (isNaN_unpack_iff_of_valid (toFloat b).toModel.valid).1 hnan
    have hnot : isNaNBits (packedNaN .binary64) = false :=
      hbits ▸ isNaNBits_of_le (hb.trans_le h)
    exact nomatch hnot.symm.trans isNaNBits_packedNaN
  · rw [isNegative, hb, decide_eq_false_iff_not]
    exact Nat.not_le.2 (Nat.lt_of_le_of_lt h (by decide))

end Patterns

/-- Two magnitudes that compare equal have the same bits. -/
theorem IsMagnitude.eq_of_beq {x y : Float} (hx : IsMagnitude x) (hy : IsMagnitude y)
    (h : x == y) : x = y := by
  -- only zeros of opposite signs compare equal with other bits
  have hzero : Binary64.isNegative (-0) = true := by decide +kernel
  obtain ⟨-, -, heq | ⟨-, rfl⟩ | ⟨rfl, -⟩⟩ := Float.beq_iff_ne_nan_and_eq.1 h
  · exact heq
  · exact nomatch hzero.symm.trans hy.isNegative
  · exact nomatch hzero.symm.trans hx.isNegative

end Binary64

/-- **LITERALS** are magnitudes. -/
theorem Literal.isMagnitude_of_read? {run : List Char} {v : Float} (h : read? run = some v) :
    Binary64.IsMagnitude v := by
  rw [read?, Option.ite_none_right_eq_some] at h
  obtain ⟨-, hv⟩ := h
  obtain rfl := Option.some.inj hv
  exact Binary64.isMagnitude_toFloat (Nat.min_le_right _ _)

/-! ## Shape by shape -/

namespace Tree

/-- The trees have one shape, and their constants compare equal. -/
inductive Equal : Tree → Tree → Prop where
  | constant {v w} : v == w → Equal (.constant v) (.constant w)
  | cell (c) : Equal (.cell c) (.cell c)
  | negate {t u} : Equal t u → Equal (.negate t) (.negate u)
  | binary {l l'} (op) {r r'} : Equal l l' → Equal r r' →
      Equal (.binary l op r) (.binary l' op r')
  | call (f) {t u} : Equal t u → Equal (.call f t) (.call f u)

variable {t u v : Tree}

/-- **COMPARISON** goes shape by shape. -/
theorem equal_of_beq (h : t == u) : Equal t u := by
  change beq t u = true at h
  fun_induction beq t u with
  | case1 v w => exact .constant h
  | case2 c d =>
      obtain rfl := eq_of_beq h
      exact .cell c
  | case3 t u ih => exact .negate (ih h)
  | case4 l op r l' op' r' ihl ihr =>
      obtain ⟨⟨hl, hop⟩, hr⟩ : (beq l l' = true ∧ (op == op') = true) ∧ beq r r' = true := by
        rwa [Bool.and_eq_true, Bool.and_eq_true] at h
      obtain rfl := eq_of_beq hop
      exact .binary op (ihl hl) (ihr hr)
  | case5 f t g u ih =>
      obtain ⟨hf, ht⟩ := Bool.and_eq_true_iff.1 h
      obtain rfl := eq_of_beq hf
      exact .call f (ih ht)
  | case6 => exact nomatch h

/-- Trees of one shape whose constants compare equal do so themselves. -/
theorem Equal.beq (h : Equal t u) : t == u := by
  change Tree.beq t u = true
  induction h with
  | constant hv => exact hv
  | cell c => exact beq_self_eq_true c
  | negate _ ih => exact ih
  | binary op _ _ ihl ihr => rw [Tree.beq, ihl, ihr, beq_self_eq_true op]; rfl
  | call f _ ih => rw [Tree.beq, ih, beq_self_eq_true f]; rfl

/-- It does not matter which tree is compared with which. -/
theorem Equal.symm (h : Equal t u) : Equal u t := by
  induction h with
  | constant hv => exact .constant (PartialEquivBEq.symm hv)
  | cell c => exact .cell c
  | negate _ ih => exact .negate ih
  | binary op _ _ ihl ihr => exact .binary op ihl ihr
  | call f _ ih => exact .call f ih

/-- Trees that compare equal in turn compare equal. -/
theorem Equal.trans (h : Equal t u) (h' : Equal u v) : Equal t v := by
  induction h generalizing v with
  | constant hv =>
      cases h' with
      | constant hw => exact .constant (PartialEquivBEq.trans hv hw)
  | cell c => exact h'
  | negate _ ih =>
      cases h' with
      | negate h' => exact .negate (ih h')
  | binary op _ _ ihl ihr =>
      cases h' with
      | binary _ hl hr => exact .binary op (ihl hl) (ihr hr)
  | call f _ ih =>
      cases h' with
      | call _ h' => exact .call f (ih h')

instance : PartialEquivBEq Tree where
  symm h := (equal_of_beq h).symm.beq
  trans h h' := ((equal_of_beq h).trans (equal_of_beq h')).beq

/-- A NaN compares equal to nothing, so a tree that compares equal to one holds none. -/
theorem Equal.isNaN (h : Equal t u) : ∀ v ∈ t.constants, v.isNaN = false := by
  induction h with
  | constant hv =>
      intro v hmem
      obtain rfl := List.mem_singleton.1 hmem
      rw [Float.isNaN_eq_decide_eq_nan, decide_eq_false_iff_not]
      exact (Float.beq_iff_ne_nan_and_eq.1 hv).1
  | cell => exact fun v hmem => nomatch hmem
  | negate _ ih | call _ _ ih => exact ih
  | binary _ _ _ ihl ihr =>
      intro v hmem
      exact (List.mem_append.1 hmem).elim (ihl v) (ihr v)

/-- Without a NaN a tree compares equal to itself. -/
theorem Equal.refl (h : ∀ v ∈ t.constants, v.isNaN = false) : Equal t t := by
  induction t with
  | constant v =>
      have hv := h v (List.mem_singleton.2 rfl)
      rw [Float.isNaN_eq_decide_eq_nan, decide_eq_false_iff_not] at hv
      exact .constant (Float.beq_self_iff.2 hv)
  | cell c => exact .cell c
  | negate t ih => exact .negate (ih h)
  | binary l op r ihl ihr =>
      exact .binary op (ihl fun v hv => h v (List.mem_append_left _ hv))
        (ihr fun v hv => h v (List.mem_append_right _ hv))
  | call f t ih => exact .call f (ih h)

/-- **REFLEXIVITY.** A tree compares equal to itself if no constant of it is NaN, and only then. -/
theorem beq_self_iff : t == t ↔ ∀ v ∈ t.constants, v.isNaN = false :=
  ⟨fun h => (equal_of_beq h).isNaN, fun h => (Equal.refl h).beq⟩

/-- Where all constants are magnitudes, comparison is equality. -/
theorem Equal.eq (h : Equal t u) (ht : ∀ v ∈ t.constants, Binary64.IsMagnitude v)
    (hu : ∀ v ∈ u.constants, Binary64.IsMagnitude v) : t = u := by
  induction h with
  | constant hv =>
      rw [(ht _ (List.mem_singleton.2 rfl)).eq_of_beq (hu _ (List.mem_singleton.2 rfl)) hv]
  | cell => rfl
  | negate _ ih => rw [ih ht hu]
  | binary op _ _ ihl ihr =>
      rw [ihl (fun v hv => ht v (List.mem_append_left _ hv))
          (fun v hv => hu v (List.mem_append_left _ hv)),
        ihr (fun v hv => ht v (List.mem_append_right _ hv))
          (fun v hv => hu v (List.mem_append_right _ hv))]
  | call f _ ih => rw [ih ht hu]

/-! ## The trees of formulas -/

/-- What a formula with the names of a scope can have for leaves and calls. -/
structure Fits (scope : Scope) (t : Tree) : Prop where
  constants : ∀ v ∈ t.constants, Binary64.IsMagnitude v
  cells : ∀ c ∈ t.cells, ∃ name, scope.find? name = some c
  calls : ∀ f ∈ t.calls, scope.find? f.name = none

variable {scope : Scope}

/-- An operator fits where its operands do. -/
theorem Fits.binary {l r : Tree} (hl : l.Fits scope) (op : Operator) (hr : r.Fits scope) :
    (Tree.binary l op r).Fits scope where
  constants v hv := (List.mem_append.1 hv).elim (hl.constants v) (hr.constants v)
  cells c hc := (List.mem_append.1 hc).elim (hl.cells c) (hr.cells c)
  calls f hf := (List.mem_append.1 hf).elim (hl.calls f) (hr.calls f)

/-- A call fits where its argument does, if no variable has the name of the function. -/
theorem Fits.call {f : Builtin} (hf : scope.find? f.name = none) (ht : t.Fits scope) :
    (Tree.call f t).Fits scope where
  constants := ht.constants
  cells := ht.cells
  calls g hg := by
    rcases List.mem_cons.1 hg with rfl | hg
    · exact hf
    · exact ht.calls g hg

/-- A magnitude fits as a constant. -/
theorem Fits.constant {v : Float} (hv : Binary64.IsMagnitude v) :
    (Tree.constant v).Fits scope where
  constants w hw := by
    obtain rfl := List.mem_singleton.1 hw
    exact hv
  cells c hc := nomatch hc
  calls f hf := nomatch hf

/-- A cell fits that a name is bound to. -/
theorem Fits.cell {name : String} {c : Cell} (hc : scope.find? name = some c) :
    (Tree.cell c).Fits scope where
  constants v hv := nomatch hv
  cells d hd := by
    obtain rfl := List.mem_singleton.1 hd
    exact ⟨name, hc⟩
  calls f hf := nomatch hf

end Tree

/-- The tree that a phrase goes on from. -/
def Grammar.Phrase.left? : Phrase → Option Tree
  | .moreTerms left => some left
  | .moreFactors left => some left
  | _ => none

/-- **LEAVES AND CALLS.** The constants of a phrase are literals, its cells are bound, and the
    functions that it calls are not hidden by a variable. -/
theorem derives_fits {scope : Scope} {phrase : Phrase} {n : Nat} {ts : List Token} {t : Tree}
    (h : Derives scope phrase n ts t) (hleft : ∀ l ∈ phrase.left?, l.Fits scope) :
    t.Fits scope := by
  induction h with
  | expression _ _ ihl iht | term _ _ ihl iht =>
      refine iht fun l hl => ?_
      obtain rfl := Option.some.inj hl
      exact ihl nofun
  | lastTerm | lastFactor => exact hleft _ rfl
  | nextTerm _ _ _ ihr iht | nextFactor _ _ _ ihr iht =>
      refine iht fun l hl => ?_
      obtain rfl := Option.some.inj hl
      exact (hleft _ rfl).binary _ (ihr nofun)
  | plus _ ih | bare _ ih | group _ ih => exact ih nofun
  | minus _ ih => exact ⟨(ih nofun).constants, (ih nofun).cells, (ih nofun).calls⟩
  | call hf _ ih =>
      obtain ⟨hfind, hname⟩ := Scope.find?_of_meaning?_builtin hf
      exact (ih nofun).call (by rw [hname, hfind])
  | power _ _ ihl ihr => exact (ihl nofun).binary _ (ihr nofun)
  | number hv => exact .constant (Literal.isMagnitude_of_read? hv)
  | name hc => exact .cell (Scope.find?_of_meaning? hc)

/-- The tree of a build fits the names of its draft. -/
theorem Draft.fits_of_build {d : Draft} {s : Store} {f : Formula}
    (h : (d.build s).outcome = .ok f) : f.root.Fits d.scope :=
  derives_fits ((buildWithin_eq_ok_iff s f).1 h).2 nofun

/-- The tree is that of a formula. -/
def Tree.IsBuilt (t : Tree) : Prop :=
  ∃ (d : Draft) (s : Store) (f : Formula), (d.build s).outcome = .ok f ∧ f.root = t

namespace Tree.IsBuilt

variable {t u : Tree}

/-- The constants of the tree of a formula are magnitudes. -/
theorem isMagnitude (h : t.IsBuilt) : ∀ v ∈ t.constants, Binary64.IsMagnitude v := by
  obtain ⟨d, s, f, hf, rfl⟩ := h
  exact (Draft.fits_of_build hf).constants

/-- The tree of a formula compares equal to itself. -/
theorem beq_self (h : t.IsBuilt) : t == t :=
  beq_self_iff.2 fun v hv => (h.isMagnitude v hv).isNaN

/-- Trees of formulas that compare equal are the same. -/
theorem eq_of_beq (ht : t.IsBuilt) (hu : u.IsBuilt) (h : t == u) : t = u :=
  (equal_of_beq h).eq ht.isMagnitude hu.isMagnitude

end Tree.IsBuilt

/-- A literal too great for a finite value. -/
def hugeLiteral : List Char := List.replicate 400 '9'

/-- The literal is one token. -/
theorem scan_hugeLiteral : scan hugeLiteral = [.number hugeLiteral] := by
  refine scan_whole_run .figures (by decide) fun c hc => ?_
  obtain rfl := List.eq_of_mem_replicate hc
  rfl

/-- The literal is read as infinity. -/
theorem read?_hugeLiteral :
    Literal.read? hugeLiteral = some (Binary64.toFloat Binary64.infinity) := by
  have hvalid : Literal.isValid hugeLiteral = true := by decide +kernel
  have hmagnitude : (Literal.decimal hugeLiteral).magnitude = Binary64.infinity := by
    decide +kernel
  rw [Literal.read?, if_pos hvalid, hmagnitude]

namespace Draft

/-- A text may build to infinity. -/
theorem build_hugeLiteral (s : Store) :
    ((ofSource (String.ofList hugeLiteral)).build s).outcome =
      .ok ⟨String.ofList hugeLiteral, .constant (Binary64.toFloat Binary64.infinity)⟩ := by
  refine (buildWithin_eq_ok_iff s _).2 ⟨rfl, ?_⟩
  -- the derivation stands for the parse of four hundred characters
  have hbase : Derives .empty .base 510 [.number hugeLiteral] _ := .number read?_hugeLiteral
  have hterm := Derives.term hbase.bare .lastFactor
  have hd := Derives.expression hterm .lastTerm
  rw [ofSource, String.toList_ofList, scan_hugeLiteral]
  exact hd

/-- **COMPARISON CAN BE RELIED ON.** On all trees it is symmetric and transitive, and a tree
    equals itself iff no constant is NaN.  Of a formula the constants are no NaN and have clear
    sign bits, though one may be infinite; the cells are bound to names; the functions called
    have names that are not bound.  So on the trees of formulas comparison is an equivalence,
    and two that compare equal have the same value whatever the cells hold, which two other
    trees need not have. -/
theorem build_beq :
    (∀ t u : Tree, (t == u) = (u == t)) ∧
    (∀ t u v : Tree, t == u → u == v → t == v) ∧
    (∀ t : Tree, t == t ↔ ∀ v ∈ t.constants, v.isNaN = false) ∧
    (∀ (d : Draft) (s : Store) (f : Formula), (d.build s).outcome = .ok f →
      (∀ v ∈ f.root.constants, v.isNaN = false ∧ Binary64.isNegative v = false) ∧
      (∀ c ∈ f.root.cells, ∃ name, d.scope.find? name = some c) ∧
      ∀ g ∈ f.root.calls, d.scope.find? g.name = none) ∧
    (∃ t : Tree, t.IsBuilt ∧ ∃ v ∈ t.constants, v.isInf = true) ∧
    Equivalence (fun t u : {t : Tree // t.IsBuilt} => t.1 == u.1) ∧
    (∀ t u : Tree, t.IsBuilt → u.IsBuilt → t == u → ∀ s : Store, t.eval s.get = u.eval s.get) ∧
    ∃ t u : Tree, t == u ∧ ∀ s : Store, t.eval s.get ≠ u.eval s.get := by
  refine ⟨?_, ?_, ?_, ?_, ?_, ?_, ?_, ?_⟩
  · exact fun t u => BEq.comm
  · exact fun t u v h h' => PartialEquivBEq.trans h h'
  · exact fun t => Tree.beq_self_iff
  · intro d s f hf
    have hfits := fits_of_build hf
    exact ⟨fun v hv => ⟨(hfits.constants v hv).isNaN, (hfits.constants v hv).isNegative⟩,
      hfits.cells, hfits.calls⟩
  · refine ⟨_, ⟨_, .empty, _, build_hugeLiteral _, rfl⟩, _, List.mem_singleton.2 rfl, ?_⟩
    decide +kernel
  · exact ⟨fun t => t.2.beq_self, fun h => PartialEquivBEq.symm h,
      fun h h' => PartialEquivBEq.trans h h'⟩
  · intro t u ht hu h s
    rw [ht.eq_of_beq hu h]
  · refine ⟨.constant 0, .constant (-0), ?_, fun s => ?_⟩
    · decide +kernel
    · change (0 : Float) ≠ -0
      decide +kernel

/-- A product and a call, with one name bound. -/
def productDraft (source : String) : Draft := ⟨source, ⟨[("x", ⟨0⟩)]⟩, []⟩

/-- Spaces, parentheses and signs leave no trace in the tree, so the formulas of the two texts
    compare equal and have one value. -/
theorem build_beq_productDraft :
    let two := Tree.constant (Binary64.toFloat (Literal.decimal ['2']).magnitude)
    let t := Tree.binary (.cell ⟨0⟩) .multiply (.call .sin two)
    let f : Formula := ⟨"x*sin 2", t⟩
    let g : Formula := ⟨"(x) * +sin(2)", t⟩
    ((productDraft "x*sin 2").build .empty).outcome = .ok f ∧
      ((productDraft "(x) * +sin(2)").build .empty).outcome = .ok g ∧
      (∀ v ∈ t.constants, v.isNaN = false ∧ Binary64.isNegative v = false) ∧
      f.root == g.root ∧ ∀ s : Store, f.root.eval s.get = g.root.eval s.get := by
  intro two t f g
  obtain ⟨-, -, hself, hbuild, -, -, hvalue, -⟩ := build_beq
  have hf : ((productDraft "x*sin 2").build .empty).outcome = .ok f := by rfl
  have hg : ((productDraft "(x) * +sin(2)").build .empty).outcome = .ok g := by rfl
  obtain ⟨hconstants, -, -⟩ := hbuild _ _ _ hf
  have hbeq : f.root == g.root := (hself t).2 fun v hv => (hconstants v hv).1
  exact ⟨hf, hg, hconstants, hbeq,
    hvalue f.root g.root ⟨_, _, _, hf, rfl⟩ ⟨_, _, _, hg, rfl⟩ hbeq⟩

end Draft

end LiveArith
