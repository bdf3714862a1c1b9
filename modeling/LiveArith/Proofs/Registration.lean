import LiveArith.Proofs.Renaming
import LiveArith.Proofs.Reports

/-! # Registration — the names that make a difference

    A text looks up its words and nothing else, each as a whole.  So of all the
    registrations of a draft only the last one of each word counts: not their order,
    not those of names that the text does not have, and not earlier ones of the same
    name.  The route:

    * the words of a text are its tokens of letters (`mem_scan_iff_wholeAt`);
    * a name is bound to the cell of its last registration
      (`Draft.find?_registerEach`), so two sequences that agree on the words build
      alike (`Draft.build_alike`), and trees alike with the same cells are the same
      (`Tree.Alike.eq`);
    * every word of a formula means something (`derives_meaning?`), so what is
      registered later under names without a meaning is none of its words. -/

namespace LiveArith

open LiveArith.Grammar LiveArith.Parse LiveArith.Token

/-! ## The words of a text -/

namespace Token

/-- What stands whole in a text stands whole in a longer one, if no run goes across the seam. -/
theorem WholeAt.append {k : RunKind} {front text run : List Char} {p : Nat}
    (h : WholeAt k text p run) (hj : ¬ Joined front text) :
    WholeAt k (front ++ text) (front.length + p) run := by
  obtain ⟨before, rest, rfl, rfl, hlong, hbefore⟩ := h
  refine ⟨front ++ before, rest, by rw [List.append_assoc], List.length_append, hlong, ?_⟩
  intro ch hch
  by_cases hne : before = []
  · -- the run begins the text, so what comes before it is across the seam
    subst hne
    rw [List.append_nil] at hch
    by_contra hk
    have hhead := List.head_mem hlong.ne_nil
    refine hj ⟨k, ⟨ch, hch, by simpa using hk⟩, run.head hlong.ne_nil, ?_, hlong.all _ hhead⟩
    rw [List.nil_append, List.head?_append_of_ne_nil _ hlong.ne_nil]
    exact List.head?_eq_some_head hlong.ne_nil
  · rw [List.getLast?_append_of_ne_nil _ hne] at hch
    exact hbefore ch hch

/-- **RUNS AND TOKENS.** The runs that stand whole in a text are its tokens. -/
theorem mem_scan_iff_wholeAt (k : RunKind) (text run : List Char) :
    k.token run ∈ scan text ↔ ∃ p, WholeAt k text p run := by
  constructor
  · induction text using text_induction with
    | nil =>
        intro h
        rw [scan_nil] at h
        exact absurd h List.not_mem_nil
    | space text ih =>
        intro h
        rw [scan_space] at h
        obtain ⟨p, hp⟩ := ih h
        exact ⟨_, hp.append (not_joined_space text)⟩
    | run k' run' text hr ih =>
        intro h
        rw [scan_run k' hr] at h
        rcases List.mem_cons.1 h with heq | hmem
        · obtain ⟨rfl, rfl⟩ := RunKind.token_inj heq
          exact ⟨0, [], text, rfl, rfl, hr, nofun⟩
        · obtain ⟨p, hp⟩ := ih hmem
          exact ⟨_, hp.append hr.not_joined⟩
    | mark c text hm ih =>
        intro h
        rw [scan_isMark hm] at h
        rcases List.mem_cons.1 h with heq | hmem
        · exact absurd heq (k.token_ne_mark run c)
        · obtain ⟨p, hp⟩ := ih hmem
          exact ⟨_, hp.append (not_joined_mark hm text)⟩
  · rintro ⟨p, front, rest, rfl, -, hlong, hfront⟩
    -- what stands whole is no part of a longer run
    have hj : ¬ Joined front (run ++ rest) := by
      rintro ⟨k', ⟨ch, hch, hk⟩, d, hd, hk'⟩
      rw [List.head?_append_of_ne_nil _ hlong.ne_nil] at hd
      obtain rfl := RunKind.holds_unique hk' (hlong.all d (List.mem_of_mem_head? hd))
      exact nomatch (hfront ch hch).symm.trans hk
    rw [scan_append_of_not_joined front hj, scan_run k hlong]
    exact List.mem_append_right _ List.mem_cons_self

/-- The name stands in the text as a run of lowercase letters, as long as it can be on both
    sides. -/
def IsWordOf (name : String) (text : List Char) : Prop :=
  ∃ p, WholeAt .letters text p name.toList

/-- A token of letters is a word of the text. -/
theorem isWordOf_of_mem_scan {text letters : List Char} (h : word letters ∈ scan text) :
    IsWordOf (String.ofList letters) text := by
  rw [IsWordOf, String.toList_ofList]
  exact (mem_scan_iff_wholeAt .letters text letters).1 h

/-- A word has letters only. -/
theorem IsWordOf.isLetter {name : String} {text : List Char} (h : IsWordOf name text) :
    ∀ ch ∈ name.toList, Scope.isLetter ch = true := by
  obtain ⟨p, front, rest, -, -, hlong, -⟩ := h
  exact hlong.all

end Token

/-! ## The words of a formula -/

/-- **WORDS MEAN SOMETHING.** Every word of a phrase is a variable or a builtin. -/
theorem derives_meaning? {scope : Scope} {phrase : Phrase} {n : Nat} {ts : List Token} {t : Tree}
    (h : Derives scope phrase n ts t) :
    ∀ letters, .word letters ∈ ts → scope.meaning? (String.ofList letters) ≠ none := by
  induction h with
  | expression _ _ ih₁ ih₂ | term _ _ ih₁ ih₂ =>
      intro letters hmem
      exact (List.mem_append.1 hmem).elim (ih₁ letters) (ih₂ letters)
  | lastTerm | lastFactor => exact fun letters hmem => nomatch hmem
  | nextTerm _ _ _ ih₁ ih₂ | nextFactor _ _ _ ih₁ ih₂ =>
      intro letters hmem
      rcases List.mem_append.1 hmem with hmem | hmem
      · exact ih₁ letters ((List.mem_cons.1 hmem).resolve_left nofun)
      · exact ih₂ letters hmem
  | plus _ ih | minus _ ih =>
      intro letters hmem
      exact ih letters ((List.mem_cons.1 hmem).resolve_left nofun)
  | call hf _ ih =>
      intro letters hmem
      rcases List.mem_cons.1 hmem with heq | hmem
      · obtain rfl := Token.word.inj heq
        rw [hf]
        exact Option.some_ne_none _
      · exact ih letters hmem
  | bare _ ih => exact ih
  | power _ _ ih₁ ih₂ =>
      intro letters hmem
      rcases List.mem_append.1 hmem with hmem | hmem
      · exact ih₁ letters hmem
      · exact ih₂ letters ((List.mem_cons.1 hmem).resolve_left nofun)
  | group _ ih =>
      intro letters hmem
      rcases List.mem_append.1 hmem with hmem | hmem
      · exact ih letters ((List.mem_cons.1 hmem).resolve_left nofun)
      · exact nomatch List.mem_singleton.1 hmem
  | number _ => exact fun letters hmem => nomatch List.mem_singleton.1 hmem
  | name hc =>
      intro letters hmem
      obtain rfl := Token.word.inj (List.mem_singleton.1 hmem)
      rw [hc]
      exact Option.some_ne_none _

/-! ## Registrations -/

/-- A name that is bound to a cell, and what the cells held at the moment. -/
structure Registration where
  name : String
  cell : Cell
  store : Store

/-- The cell of the last registration of a name. -/
def lastCell? (rs : List Registration) (name : String) : Option Cell :=
  (rs.filter (·.name == name)).getLast?.map (·.cell)

/-- The registrations are made in order. -/
def Draft.registerEach (d : Draft) (rs : List Registration) : Draft :=
  rs.foldl (fun d r => d.register r.store r.name r.cell) d

section Registrations

variable {rs rs' : List Registration} {name : String}

/-- Later registrations are asked first. -/
theorem lastCell?_append (rs rs' : List Registration) (name : String) :
    lastCell? (rs ++ rs') name = (lastCell? rs' name).or (lastCell? rs name) := by
  rw [lastCell?, List.filter_append, List.getLast?_append, Option.map_or]
  rfl

/-- The first registration of a name counts if no later one has it. -/
theorem lastCell?_cons_self (r : Registration) (rs : List Registration) :
    lastCell? (r :: rs) r.name = (lastCell? rs r.name).or (some r.cell) := by
  rw [← List.singleton_append, lastCell?_append]
  simp [lastCell?]

/-- A registration of another name does not count. -/
theorem lastCell?_cons_of_ne {r : Registration} (h : r.name ≠ name) (rs : List Registration) :
    lastCell? (r :: rs) name = lastCell? rs name := by
  simp [lastCell?, h]

/-- Registrations of different names commute. -/
theorem lastCell?_swap {a b : Registration} (h : a.name ≠ b.name)
    (before after : List Registration) (name : String) :
    lastCell? (before ++ a :: b :: after) name = lastCell? (before ++ b :: a :: after) name := by
  rw [lastCell?_append, lastCell?_append]
  congr 1
  by_cases ha : a.name = name
  · have hb : b.name ≠ name := fun hb => h (ha.trans hb.symm)
    subst ha
    rw [lastCell?_cons_self, lastCell?_cons_of_ne hb, lastCell?_cons_of_ne hb,
      lastCell?_cons_self]
  · rw [lastCell?_cons_of_ne ha]
    by_cases hb : b.name = name
    · subst hb
      rw [lastCell?_cons_self, lastCell?_cons_self, lastCell?_cons_of_ne ha]
    · rw [lastCell?_cons_of_ne hb, lastCell?_cons_of_ne hb, lastCell?_cons_of_ne ha]

/-- A registration has no effect if its name is registered again. -/
theorem lastCell?_again {a b : Registration} (h : a.name = b.name)
    (before between after : List Registration) (name : String) :
    lastCell? (before ++ a :: (between ++ b :: after)) name =
      lastCell? (before ++ (between ++ b :: after)) name := by
  rw [lastCell?_append, lastCell?_append]
  congr 1
  by_cases ha : a.name = name
  · -- the later registration of the name is found first
    subst ha
    rw [lastCell?_cons_self, lastCell?_append, h, lastCell?_cons_self]
    cases lastCell? after b.name <;> rfl
  · rw [lastCell?_cons_of_ne ha]

/-- A registration of another name has no effect. -/
theorem lastCell?_insert_of_ne {a : Registration} (h : a.name ≠ name)
    (before after : List Registration) :
    lastCell? (before ++ a :: after) name = lastCell? (before ++ after) name := by
  rw [lastCell?_append, lastCell?_append, lastCell?_cons_of_ne h]

/-- A name that was not registered has no cell. -/
theorem lastCell?_eq_none (h : ∀ a ∈ rs, a.name ≠ name) : lastCell? rs name = none := by
  rw [lastCell?, Option.map_eq_none_iff, List.getLast?_eq_none_iff, List.filter_eq_nil_iff]
  exact fun a ha hname => h a ha (beq_iff_eq.1 hname)

/-- **THE LAST REGISTRATION** of a name counts. -/
theorem Draft.find?_registerEach (d : Draft) (rs : List Registration) (name : String) :
    (d.registerEach rs).scope.find? name = (lastCell? rs name).or (d.scope.find? name) := by
  induction rs generalizing d with
  | nil => rfl
  | cons r rs ih =>
      have hstep : d.registerEach (r :: rs)
          = (d.register r.store r.name r.cell).registerEach rs := rfl
      have hscope : (d.register r.store r.name r.cell).scope = d.scope.bind r.name r.cell := rfl
      rw [hstep, ih, hscope]
      -- a registration hides what the name was bound to and is hidden by later ones
      by_cases hn : r.name = name
      · subst hn
        rw [Scope.find?_bind_self, lastCell?_cons_self, Option.or_assoc]
        rfl
      · rw [Scope.find?_bind_of_ne _ _ (Ne.symm hn), lastCell?_cons_of_ne hn]

/-- Registering leaves the text as it is. -/
theorem Draft.source_registerEach (d : Draft) (rs : List Registration) :
    (d.registerEach rs).source = d.source := by
  induction rs generalizing d with
  | nil => rfl
  | cons r rs ih => exact ih _

/-- Trees alike whose cells are the same are the same. -/
theorem Tree.Alike.eq {R : Cell → Cell → Prop} (hR : ∀ c d, R c d → c = d) {t u : Tree}
    (h : Alike R t u) : t = u := by
  induction h with
  | constant v => rfl
  | cell hc => rw [hR _ _ hc]
  | negate _ ih => rw [ih]
  | binary op _ _ ihl ihr => rw [ihl, ihr]
  | call f _ ih => rw [ih]

/-- Builds of one text come to the same if each word of it is bound to the same cell. -/
theorem Draft.build_congr {d d' : Draft} (hsource : d.source = d'.source)
    (h : ∀ name, IsWordOf name d.source.toList → d.scope.find? name = d'.scope.find? name)
    (s s' : Store) : (d.build s).outcome = (d'.build s').outcome := by
  have hbound : SameBound (IsWordOf · d.source.toList) d.scope d'.scope :=
    fun name hn => by rw [h name hn]
  have hwords : ∀ letters, .word letters ∈ scan d.source.toList →
      IsWordOf (String.ofList letters) d.source.toList := fun _ => isWordOf_of_mem_scan
  rcases build_alike hsource hwords hbound s s' with ⟨e, he, he'⟩ | ⟨f, f', hf, hf', hs, hroot⟩
  · rw [he, he']
  · -- counterparts have a word in common, which is bound alike
    have hcells : ∀ c c', Counterparts (IsWordOf · d.source.toList) d.scope d'.scope c c' →
        c = c' := by
      rintro c c' ⟨name, hn, hc, hc'⟩
      exact Option.some.inj (hc.symm.trans ((h name hn).trans hc'))
    obtain ⟨source, root⟩ := f
    obtain ⟨source', root'⟩ := f'
    obtain rfl : source = source' := hs
    obtain rfl : root = root' := hroot.eq hcells
    rw [hf, hf']

/-- Where two sequences of registrations end with the same cell for each word, builds come to
    the same. -/
theorem Draft.build_registerEach_congr {source : String}
    (h : ∀ name, IsWordOf name source.toList → lastCell? rs name = lastCell? rs' name)
    (s s' : Store) :
    (((ofSource source).registerEach rs).build s).outcome =
      (((ofSource source).registerEach rs').build s').outcome := by
  refine build_congr ?_ (fun name hn => ?_) s s'
  · rw [source_registerEach, source_registerEach]
  · rw [source_registerEach] at hn
    rw [find?_registerEach, find?_registerEach, h name hn]

/-- A word of a text that builds is registered or the name of a builtin. -/
theorem Draft.lastCell?_or_builtin_of_build {source : String} {s : Store} {f : Formula}
    (h : (((ofSource source).registerEach rs).build s).outcome = .ok f)
    (hn : IsWordOf name source.toList) :
    lastCell? rs name ≠ none ∨ Builtin.ofName? name ≠ none := by
  obtain ⟨-, hd⟩ := (buildWithin_eq_ok_iff s f).1 h
  rw [source_registerEach] at hd
  have hmem : .word name.toList ∈ scan source.toList :=
    (mem_scan_iff_wholeAt .letters _ _).2 hn
  have hm := derives_meaning? hd name.toList hmem
  rw [String.ofList_toList, Scope.meaning?, find?_registerEach] at hm
  cases hlast : lastCell? rs name with
  | some c => exact Or.inl (Option.some_ne_none c)
  | none =>
      refine Or.inr fun hnone => hm ?_
      rw [hlast, hnone]
      rfl

end Registrations

/-! ## Contexts -/

/-- In a context with no name twice each entry is found under its name. -/
theorem lookup_eq_some_iff_mem {context : List (String × Float)}
    (h : (context.map Prod.fst).Nodup) {name : String} {v : Float} :
    context.lookup name = some v ↔ (name, v) ∈ context := by
  induction context with
  | nil => simp
  | cons entry rest ih =>
      obtain ⟨other, w⟩ := entry
      rw [List.map_cons, List.nodup_cons] at h
      by_cases hn : name = other
      · subst hn
        rw [List.lookup_cons_self, List.mem_cons, Option.some.injEq, Prod.mk.injEq]
        constructor
        · exact fun hv => Or.inl ⟨rfl, hv.symm⟩
        · rintro (⟨-, hv⟩ | hmem)
          · exact hv.symm
          · exact absurd (List.mem_map_of_mem hmem) h.1
      · rw [List.lookup_cons, beq_eq_false_iff_ne.2 hn]
        simp [hn, ih h.2]

/-- The order in which a context is written down does not matter if it has no name twice. -/
theorem contextValue?_perm {context context' : List (String × Float)}
    (hperm : context.Perm context') (h : (context.map Prod.fst).Nodup) :
    contextValue? context = contextValue? context' := by
  have hrev : context.reverse.Perm context'.reverse :=
    (context.reverse_perm.trans hperm).trans context'.reverse_perm.symm
  have hnodup : (context.reverse.map Prod.fst).Nodup :=
    (context.reverse_perm.map Prod.fst).nodup_iff.2 h
  have hnodup' : (context'.reverse.map Prod.fst).Nodup := (hrev.map Prod.fst).nodup_iff.1 hnodup
  funext name
  refine Option.ext fun v => ?_
  rw [contextValue?, contextValue?, lookup_eq_some_iff_mem hnodup,
    lookup_eq_some_iff_mem hnodup', hrev.mem_iff]

/-- The order of a context without repeated names makes no difference. -/
theorem evaluate_perm (source : String) {context context' : List (String × Float)}
    (hperm : context.Perm context') (h : (context.map Prod.fst).Nodup) :
    evaluate source context = evaluate source context' := by
  have hreads := Draft.Reads.ofContext source context'
  rw [← contextValue?_perm hperm h] at hreads
  exact Draft.evaluate_eq source hreads (Draft.source_registerAll _ _ _) _

namespace Draft

/-- **ONLY THE WORDS.** Two sequences of registrations that end with the same cell for each word
    of a text, or with none, build it alike.  So registrations of different names commute, the
    last one of a name wins, and those of other names than the words have no effect; nor has the
    order of a context that has no name twice.  A text that builds keeps its tree when more names
    are registered that meant nothing. -/
theorem build_registerEach (source : String) (s s' : Store) :
    let outcome (s : Store) (rs : List Registration) : Except ParseError Formula :=
      (((ofSource source).registerEach rs).build s).outcome
    (∀ rs rs', (∀ name, IsWordOf name source.toList → lastCell? rs name = lastCell? rs' name) →
      outcome s rs = outcome s' rs') ∧
    (∀ before a b after, a.name ≠ b.name →
      outcome s (before ++ a :: b :: after) = outcome s' (before ++ b :: a :: after)) ∧
    (∀ before a between b after, a.name = b.name →
      outcome s (before ++ a :: (between ++ b :: after)) =
        outcome s' (before ++ (between ++ b :: after))) ∧
    (∀ before a after, (∃ ch ∈ a.name.toList, Scope.isLetter ch = false) ∨
        ¬ IsWordOf a.name source.toList →
      outcome s (before ++ a :: after) = outcome s' (before ++ after)) ∧
    (∀ context context', context.Perm context' → (context.map Prod.fst).Nodup →
      evaluate source context = evaluate source context') ∧
    ∀ rs more f, outcome s rs = .ok f →
      (∀ a ∈ more, lastCell? rs a.name = none ∧ Builtin.ofName? a.name = none) →
      outcome s' (rs ++ more) = .ok f := by
  intro outcome
  refine ⟨?_, ?_, ?_, ?_, ?_, ?_⟩
  · intro rs rs' h
    exact build_registerEach_congr h s s'
  · intro before a b after hab
    exact build_registerEach_congr (fun name _ => lastCell?_swap hab before after name) s s'
  · intro before a between b after hab
    exact build_registerEach_congr
      (fun name _ => lastCell?_again hab before between after name) s s'
  · intro before a after ha
    refine build_registerEach_congr (fun name hn => lastCell?_insert_of_ne ?_ before after) s s'
    rintro rfl
    rcases ha with ⟨ch, hch, hletter⟩ | hword
    · exact nomatch (hn.isLetter ch hch).symm.trans hletter
    · exact hword hn
  · exact fun context context' => evaluate_perm source
  · intro rs more f hf hmore
    refine Eq.trans (build_registerEach_congr (fun name hn => ?_) s' s) hf
    -- a word of the formula has a meaning, so it is none of the names that come later
    have hnone : lastCell? more name = none := by
      refine lastCell?_eq_none fun a ha hname => ?_
      obtain ⟨hlast, hbuiltin⟩ := hmore a ha
      rw [hname] at hlast hbuiltin
      exact (lastCell?_or_builtin_of_build hf hn).elim (absurd hlast) (absurd hbuiltin)
    rw [lastCell?_append, hnone, Option.none_or]

/-- A variable, and another one that is named as a function is. -/
def shadowingSine : List Registration :=
  [⟨"x", ⟨0⟩, .empty⟩, ⟨"sin", ⟨1⟩, .empty⟩]

/-- Other orders of the two names, and names that are no words of the product, come to the same. -/
theorem build_registerEach_shadowingSine :
    let outcome (rs : List Registration) : Except ParseError Formula :=
      (((ofSource "x*sin").registerEach rs).build .empty).outcome
    let f : Formula := ⟨"x*sin", .binary (.cell ⟨0⟩) .multiply (.cell ⟨1⟩)⟩
    outcome shadowingSine = .ok f ∧
      outcome (⟨"x", ⟨2⟩, .empty⟩ :: shadowingSine.reverse) = outcome shadowingSine ∧
      outcome ([] ++ ⟨"si", ⟨3⟩, .empty⟩ :: shadowingSine) = outcome ([] ++ shadowingSine) ∧
      evaluate "x*sin" [("sin", 1.0), ("x", 2.0)] = evaluate "x*sin" [("x", 2.0), ("sin", 1.0)] ∧
      outcome (shadowingSine ++ [⟨"xs", ⟨4⟩, .empty⟩]) = .ok f := by
  intro outcome f
  obtain ⟨hwords, -, -, hother, hcontext, hmore⟩ := build_registerEach "x*sin" .empty .empty
  have hf : (((ofSource "x*sin").registerEach shadowingSine).build .empty).outcome = .ok f := by
    rfl
  have hscan : scan "x*sin".toList = [.word ['x'], .mark '*', .word ['s', 'i', 'n']] := by
    decide +kernel
  refine ⟨hf, hwords _ _ fun name hn => ?_, hother _ _ _ (Or.inr fun hn => ?_),
    hcontext _ _ (.swap _ _ _) (by decide), hmore _ _ _ hf fun a ha => ?_⟩
  · have hmem := (mem_scan_iff_wholeAt .letters _ _).2 hn
    have hname : name = "x" ∨ name = "sin" := by
      rw [hscan] at hmem
      simpa [RunKind.token, ← String.toList_inj] using hmem
    rcases hname with rfl | rfl <;> rfl
  · have hmem := (mem_scan_iff_wholeAt .letters _ _).2 hn
    rw [hscan] at hmem
    exact absurd hmem (by decide)
  · obtain rfl := List.mem_singleton.1 ha
    exact ⟨rfl, rfl⟩

end Draft

end LiveArith
