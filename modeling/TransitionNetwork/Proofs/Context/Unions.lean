import TransitionNetwork.Proofs.Context.Traces

/-!
# Unions of contexts

A context is a union of two others if it shows what one of them shows, and is well formed if both
are. The same is said of lists of entries and of rests of a stack. Each step of a merge takes
unions to unions, whatever nodes the result is made of.
-/

namespace TransitionNetwork

namespace Context

/-- A context that shows what one of two contexts shows. -/
structure IsUnion (root : RootReading) (a b c : Context) : Prop where
  shows : ∀ t, Shows root c t ↔ Shows root a t ∨ Shows root b t
  wellFormed : a.WellFormed → b.WellFormed → c.WellFormed

/-- A rest of a stack that shows what one of two rests shows, and is known if one of them is. -/
structure ParentUnion (root : RootReading) (p q r : Option Context) : Prop where
  known : r.isSome = true ↔ p.isSome = true ∨ q.isSome = true
  shows : ∀ t, Shows root (restOf r) t ↔ Shows root (restOf p) t ∨ Shows root (restOf q) t
  wellFormed : (∀ c ∈ p, c.WellFormed) → (∀ c ∈ q, c.WellFormed) → ∀ c ∈ r, c.WellFormed

/-- Entries that show what some of two lists of entries show, and are at least as many. -/
structure EntriesUnion (root : RootReading) (es fs gs : List (Entry Context)) : Prop where
  shows : ∀ t, EntriesShow root gs t ↔ EntriesShow root es t ∨ EntriesShow root fs t
  wellFormed : EntriesWellFormed es → EntriesWellFormed fs → EntriesWellFormed gs
  left : es.length ≤ gs.length
  right : fs.length ≤ gs.length

variable {root : RootReading} {a b c : Context} {p q r : Option Context} {e f : Entry Context}
  {es fs gs gs' : List (Entry Context)}

/-! ## Contexts -/

/-- A union does not depend on the order of the operands. -/
theorem IsUnion.symm (h : IsUnion root a b c) : IsUnion root b a c :=
  ⟨fun t => (h.shows t).trans or_comm, fun hb ha => h.wellFormed ha hb⟩

/-- A wildcard absorbs every context. -/
theorem isUnion_of_isWildcard (h : IsWildcard root a) : IsUnion root a b a :=
  ⟨fun t => ⟨Or.inl, fun _ => shows_of_isWildcard h t⟩, fun ha _ => ha⟩

/-- A context is a union of itself and an equal one. -/
theorem isUnion_of_beq [NodeDigest] {h : History} (ha : h.Holds a) (hb : h.Holds b)
    (heq : (a == b) = true) : IsUnion root a b a :=
  ⟨fun t => by rw [← shows_of_beq ha hb heq, or_self], fun ha _ => ha⟩

/-- Contexts that are no wildcards are united with their entries. -/
theorem EntriesUnion.isUnion (h : EntriesUnion root a.entries b.entries c.entries)
    (ha : ¬ IsWildcard root a) (hb : ¬ IsWildcard root b) (hc : ¬ IsWildcard root c) :
    IsUnion root a b c where
  shows t := by
    rw [shows_iff_of_not_isWildcard ha, shows_iff_of_not_isWildcard hb,
      shows_iff_of_not_isWildcard hc, h.shows]
  wellFormed ha hb := wellFormed_iff.mpr (h.wellFormed (wellFormed_iff.mp ha) (wellFormed_iff.mp hb))

/-! ## Rests of a stack -/

/-- The rest for well-formed parents is well formed. -/
theorem wellFormed_restOf (hp : ∀ c ∈ p, c.WellFormed) : (restOf p).WellFormed := by
  cases p with
  | none => exact wellFormed_empty
  | some c => exact hp c rfl

/-- A rest is united with itself. -/
theorem ParentUnion.self (p : Option Context) : ParentUnion root p p p :=
  ⟨(or_self _).symm.to_iff, fun _ => (or_self _).symm.to_iff, fun hp _ => hp⟩

/-- Two rests of which one is known are united by a union of them. -/
theorem IsUnion.parentUnion (h : IsUnion root (restOf p) (restOf q) c)
    (hknown : p.isSome = true ∨ q.isSome = true) : ParentUnion root p q (some c) where
  known := ⟨fun _ => hknown, fun _ => rfl⟩
  shows := h.shows
  wellFormed hp hq := by
    rintro _ ⟨⟩
    exact h.wellFormed (wellFormed_restOf hp) (wellFormed_restOf hq)

/-- Entries with a common return state are united with their rests. -/
theorem ParentUnion.entryShows (h : ParentUnion root p q r) (n : Int) (t : Trace) :
    EntryShows root t ⟨r, n⟩ ↔ EntryShows root t ⟨p, n⟩ ∨ EntryShows root t ⟨q, n⟩ := by
  cases t with
  | top m => simp
  | known m =>
    simp only [entryShows_known, h.known]
    exact and_or_left
  | under m t =>
    simp only [entryShows_under, h.shows]
    exact and_or_left

/-! ## Lists of entries -/

namespace EntriesUnion

/-- A union of entries does not depend on the order of the lists. -/
theorem symm (h : EntriesUnion root es fs gs) : EntriesUnion root fs es gs :=
  ⟨fun t => (h.shows t).trans or_comm, fun hfs hes => h.wellFormed hes hfs, h.right, h.left⟩

/-- Entries are a union of themselves and none. -/
theorem nil_left (fs : List (Entry Context)) : EntriesUnion root [] fs fs :=
  ⟨fun t => by simp, fun _ hfs => hfs, Nat.zero_le _, Nat.le_refl _⟩

/-- A bound below the return states of two lists is below those of the union. -/
theorem lt_returnState (h : EntriesUnion root es fs gs) {n : Int}
    (hes : ∀ e ∈ es, n < e.returnState) (hfs : ∀ f ∈ fs, n < f.returnState) :
    ∀ g ∈ gs, n < g.returnState := by
  intro g hg
  have hshown : EntriesShow root gs (.top g.returnState) := ⟨g, hg, rfl⟩
  rcases (h.shows _).mp hshown with ⟨e, he, hreturn⟩ | ⟨f, hf, hreturn⟩
  · rw [← entryShows_top.mp hreturn]
    exact hes e he
  · rw [← entryShows_top.mp hreturn]
    exact hfs f hf

/-- The lower one of two first entries stays in front. -/
theorem cons_left (h : EntriesUnion root es (f :: fs) gs) (hlow : e.returnState < f.returnState) :
    EntriesUnion root (e :: es) (f :: fs) (e :: gs) where
  shows t := by rw [entriesShow_cons, entriesShow_cons, h.shows, or_assoc]
  wellFormed hes hfs := by
    refine (h.wellFormed hes.tail hfs).cons (h.lt_returnState hes.head ?_)
      (hes.bottom e List.mem_cons_self) (hes.nonneg e List.mem_cons_self)
      (hes.parents e List.mem_cons_self)
    refine List.forall_mem_cons.mpr ⟨hlow, fun g hg => ?_⟩
    exact Int.lt_trans hlow (hfs.head g hg)
  left := by simpa using h.left
  right := Nat.le_trans h.right (Nat.le_succ _)

/-- First entries with a common return state are united in front. -/
theorem cons_both (h : EntriesUnion root es fs gs)
    (hparent : ParentUnion root e.parent f.parent p) (hreturn : e.returnState = f.returnState) :
    EntriesUnion root (e :: es) (f :: fs) (⟨p, e.returnState⟩ :: gs) where
  shows t := by
    have hhead := hparent.entryShows e.returnState t
    rw [entriesShow_cons, entriesShow_cons, entriesShow_cons, h.shows, hhead]
    nth_rewrite 2 [hreturn]
    exact or_or_or_comm
  wellFormed hes hfs := by
    refine (h.wellFormed hes.tail hfs.tail).cons (h.lt_returnState hes.head ?_) ?_ ?_ ?_
    · rw [hreturn]
      exact hfs.head
    · intro hbottom
      have hp := hes.bottom e List.mem_cons_self hbottom
      have hq := hfs.bottom f List.mem_cons_self (hreturn ▸ hbottom)
      have hknown := hparent.known
      rw [hp, hq] at hknown
      simpa using hknown
    · exact hes.nonneg e List.mem_cons_self
    · exact hparent.wellFormed (hes.parents e List.mem_cons_self) (hfs.parents f List.mem_cons_self)
  left := by simpa using h.left
  right := by simpa using h.right

/-- With an array among two contexts there are several entries. -/
theorem one_lt_length (h : EntriesUnion root a.entries b.entries gs)
    (harray : (a.isArray || b.isArray) = true) : 1 < gs.length := by
  rw [Bool.or_eq_true, isArray_iff, isArray_iff] at harray
  have hleft := h.left
  have hright := h.right
  omega

/-- A union does not depend on identities and digests. -/
theorem of_map_skeleton (h : EntriesUnion root es fs gs)
    (hsame : gs.map entrySkeleton = gs'.map entrySkeleton) : EntriesUnion root es fs gs' := by
  have hlength : gs.length = gs'.length := by
    simpa using congrArg List.length hsame
  refine ⟨fun t => ?_, fun hes hfs => (h.wellFormed hes hfs).of_map_skeleton hsame, ?_, ?_⟩
  · rw [← entriesShow_skeleton gs', ← hsame, entriesShow_skeleton, h.shows]
  · exact hlength ▸ h.left
  · exact hlength ▸ h.right

/-- Two entries with different return states in order. -/
theorem inOrder (hreturn : e.returnState ≠ f.returnState) :
    EntriesUnion root [e] [f] (inOrder e f) := by
  rw [Context.inOrder]
  split
  next hlow => exact ((nil_left [e]).cons_left hlow).symm
  next hlow => exact (nil_left [f]).cons_left (by omega)

end EntriesUnion

/-! ## Empty operands -/

/-- The wildcard is a union, and without one among the operands there is none. -/
theorem isUnion_of_wildcardOf (hc : wildcardOf root a b = some c) :
    (c = a ∨ c = b) ∧ IsUnion root a b c := by
  cases root with
  | exact => cases hc
  | wildcard =>
    rw [wildcardOf] at hc
    split at hc
    next hempty =>
      cases hc
      exact ⟨Or.inl rfl, isUnion_of_isWildcard ⟨rfl, hempty⟩⟩
    · split at hc
      next hempty =>
        cases hc
        exact ⟨Or.inr rfl, (isUnion_of_isWildcard ⟨rfl, hempty⟩).symm⟩
      · cases hc

/-- If no wildcard is found among two contexts, none of them is one. -/
theorem not_isWildcard_of_wildcardOf (hnone : wildcardOf root a b = none) :
    ¬ IsWildcard root a ∧ ¬ IsWildcard root b := by
  cases root with
  | exact => exact ⟨not_isWildcard_exact, not_isWildcard_exact⟩
  | wildcard =>
    simp only [wildcardOf] at hnone
    split at hnone
    · cases hnone
    next ha =>
      split at hnone
      · cases hnone
      next hb =>
        exact ⟨not_isWildcard_of_not_isEmpty ha, not_isWildcard_of_not_isEmpty hb⟩

/-- Without an empty operand there are no root entries. -/
theorem not_isEmpty_of_rootEntries (hnone : rootEntries root a b = none) :
    ¬ a.isEmpty = true ∧ ¬ b.isEmpty = true := by
  rw [rootEntries.eq_def] at hnone
  cases hae : a.isEmpty <;> cases hbe : b.isEmpty <;> cases root <;> rw [hae, hbe] at hnone <;>
    simp at hnone ⊢

/-- Two empty contexts are united by the empty context. -/
theorem isUnion_empty : IsUnion root empty empty empty :=
  ⟨fun _ => (or_self _).symm.to_iff, fun ha _ => ha⟩

/-- With an empty operand there are no root entries and the empty context is the union, or the exact
empty stack is put before the other operand. -/
theorem rootEntries_cases (hes : rootEntries root a b = some es) :
    (es = [] ∧ (a = empty ∨ b = empty) ∧ IsUnion root a b empty) ∨
      (root = .exact ∧
        ((a.isEmpty = true ∧ b.isEmpty = false ∧ es = empty.top :: b.entries) ∨
          (b.isEmpty = true ∧ a.isEmpty = false ∧ es = empty.top :: a.entries))) := by
  have hwild {c d : Context} (hempty : c.isEmpty = true) (hunion : IsUnion root c d c) :
      IsUnion root c d empty := isEmpty_iff.mp hempty ▸ hunion
  rw [rootEntries.eq_def] at hes
  cases hae : a.isEmpty <;> cases hbe : b.isEmpty <;> cases root <;> rw [hae, hbe] at hes <;>
    simp only [Option.some.injEq, reduceCtorEq] at hes <;> subst hes
  case false.true.exact => exact Or.inr ⟨rfl, Or.inr ⟨rfl, rfl, rfl⟩⟩
  case true.false.exact => exact Or.inr ⟨rfl, Or.inl ⟨rfl, rfl, rfl⟩⟩
  case true.true.exact =>
    obtain rfl := isEmpty_iff.mp hae
    obtain rfl := isEmpty_iff.mp hbe
    exact Or.inl ⟨rfl, Or.inl rfl, isUnion_empty⟩
  case false.true.wildcard =>
    exact Or.inl ⟨rfl, Or.inr (isEmpty_iff.mp hbe),
      (hwild hbe (isUnion_of_isWildcard ⟨rfl, hbe⟩)).symm⟩
  case true.false.wildcard | true.true.wildcard =>
    exact Or.inl ⟨rfl, Or.inl (isEmpty_iff.mp hae), hwild hae (isUnion_of_isWildcard ⟨rfl, hae⟩)⟩

/-! ## Single entries -/

variable [NodeDigest]

omit [NodeDigest] in
/-- Different rests are not both unknown. -/
theorem isSome_or_of_ne {p q : Option Context} (hne : p ≠ q) : p.isSome ∨ q.isSome := by
  cases p <;> cases q <;> simp_all

/-- Different nodes of one entry with the same return state have different parents, and if these are
equal in structure as contexts, they are the same context. -/
theorem restOf_top_of_ne {h : History} (ha : h.Holds a) (hb : h.Holds b) (hne : ¬ (a == b) = true)
    (harray : ¬ (a.isArray || b.isArray) = true) (hroot : rootEntries root a b = none)
    (hreturn : a.top.returnState = b.top.returnState) :
    a.top.parent ≠ b.top.parent ∧
      ((restOf a.top.parent == restOf b.top.parent) = true →
        restOf a.top.parent = restOf b.top.parent) := by
  obtain ⟨haempty, hbempty⟩ := not_isEmpty_of_rootEntries hroot
  have htop (hparents : a.top.parent.map skeleton = b.top.parent.map skeleton) : False := by
    refine hne (beq_of_entrySkeleton ha hb harray haempty hbempty ?_)
    rw [entrySkeleton_eq, entrySkeleton_eq, hparents, hreturn]
  refine ⟨fun hparents => htop (congrArg _ hparents), fun hsame => ?_⟩
  have hatop := ha.top
  have hbtop := hb.top
  cases hp : a.top.parent <;> cases hq : b.top.parent <;> rw [hp, hq] at hsame htop <;>
    rw [hp] at hatop <;> rw [hq] at hbtop
  case none.some q =>
    exact (eq_empty_of_skeleton ((beq_iff .empty (hbtop q rfl)).mp hsame).symm).symm
  case some.none p =>
    exact eq_empty_of_skeleton ((beq_iff (hatop p rfl) .empty).mp hsame)
  case some.some p q =>
    exact (htop (congrArg some ((beq_iff (hatop p rfl) (hbtop q rfl)).mp hsame))).elim

/-! ## Two entries -/

omit [NodeDigest] in
/-- The entries of two contexts of one entry each are two. -/
theorem length_twoEntries (e f : Entry Context) : (twoEntries e f).length = 2 := by
  rw [twoEntries, Context.inOrder, Context.inOrder]
  split <;> split <;> rfl

/-- The two entries belong to the history of their parents. -/
theorem holdsEntries_twoEntries {h : History} (he : h.HoldsParent e.parent)
    (hf : h.HoldsParent f.parent) : h.HoldsEntries (twoEntries e f) := by
  intro g hg p hp
  have hparent : g.parent = e.parent ∨ g.parent = f.parent := by
    rw [twoEntries, Context.inOrder, Context.inOrder] at hg
    split at hg <;> split at hg <;> simp only [List.mem_cons, List.not_mem_nil, or_false] at hg <;>
      rcases hg with rfl | rfl <;> simp
  rcases hparent with hparent | hparent
  · exact he p (hparent ▸ hp)
  · exact hf p (hparent ▸ hp)

/-- Two entries with different return states, with equal parents shared. -/
theorem entriesUnion_twoEntries {h : History} (he : h.HoldsParent e.parent)
    (hf : h.HoldsParent f.parent) (hreturn : e.returnState ≠ f.returnState) :
    EntriesUnion root [e] [f] (twoEntries e f) := by
  apply (EntriesUnion.inOrder hreturn).of_map_skeleton
  rw [twoEntries]
  split
  next hshared =>
    have hskeleton : entrySkeleton { f with parent := e.parent } = entrySkeleton f := by
      rcases e with ⟨_ | p, r⟩ <;> rcases f with ⟨_ | q, r'⟩ <;>
        simp only [beqParent, Option.isSome_none, Option.isSome_some, Bool.false_eq_true,
          false_and, and_false, true_and] at hshared
      rw [entrySkeleton_eq, entrySkeleton_eq, Option.map_some, Option.map_some,
        (beq_iff (he p rfl) (hf q rfl)).mp hshared]
    rw [Context.inOrder, Context.inOrder]
    split <;> simp [hskeleton]
  · rfl

end Context

end TransitionNetwork
