import TransitionNetwork.Proofs.Context.Traces

/-!
# A rule for merges

Merging contexts, merging rests of a stack and merging lists of entries call one another. Whatever
is to be shown of a merge is therefore said three times: of the two operands, of the state before
and of the result with the state behind it. The rule lists what has to be shown on each branch, with
what the branch has found out and with the statements about the merges within. If all of that is
shown, the three statements hold of all merges.
-/

namespace TransitionNetwork

namespace Context

variable [NodeDigest]

/-! ## Results of single steps -/

/-- A result with the state in which it is kept for two contexts. -/
def remembered (a b : Context) (result : Context × MergeState) : Context × MergeState :=
  (result.1, result.2.remember a b result.1)

/-- The context for two of one entry each, with the same return state, over their merged parents: an
operand that has this parent already, or a new node. -/
def ofParent (a b : Context) (p : Option Context) (m : MergeState) : Context × MergeState :=
  if sameParent p a.top.parent then (a, m)
  else if sameParent p b.top.parent then (b, m)
  else remembered a b (m.make [⟨p, a.top.returnState⟩])

/-- Parents of which one is known are merged as contexts. -/
theorem mergeParents_eq {root : RootReading} {p q : Option Context} (hknown : p.isSome ∨ q.isSome)
    (m : MergeState) : mergeParents root p q m =
      (some (merge root (restOf p) (restOf q) m).1, (merge root (restOf p) (restOf q) m).2) := by
  cases p <;> cases q
  case none.none => simp at hknown
  all_goals
    rw [mergeParents]
    rfl

omit [NodeDigest] in
/-- Parents of which one is known weigh more than the contexts for which they count. -/
theorem restOf_weight_lt {p q : Option Context} (hknown : p.isSome ∨ q.isSome) :
    (restOf p).weight + (restOf q).weight < parentWeight p + parentWeight q := by
  cases p <;> cases q <;> simp_all [restOf, parentWeight, weight] <;> omega

/-! ## The rule -/

/-- What is to be shown for three statements, about merges of contexts, of rests of a stack and of
lists of entries, that are to hold of all merges under a reading. -/
structure MergeRule (root : RootReading)
    (merges : Context → Context → MergeState → Context × MergeState → Prop)
    (parentsMerge : Option Context → Option Context → MergeState →
      Option Context × MergeState → Prop)
    (entriesMerge : List (Entry Context) → List (Entry Context) → MergeState →
      List (Entry Context) × MergeState → Prop) : Prop where
  /-- Equal contexts are not merged. -/
  same {a b : Context} {m : MergeState} (heq : (a == b) = true) : merges a b m (a, m)
  /-- A wildcard among several entries. -/
  wildcard {a b c : Context} {m : MergeState} (hne : ¬ (a == b) = true)
    (harray : (a.isArray || b.isArray) = true) (hwild : wildcardOf root a b = some c) :
    merges a b m (c, m)
  /-- A result that is known. -/
  known {a b c : Context} {m : MergeState} (hne : ¬ (a == b) = true)
    (hwild : (a.isArray || b.isArray) = true → wildcardOf root a b = none)
    (hknown : m.known? a b = some c) : merges a b m (c, m)
  /-- Two contexts of which one has several entries, once the entries are merged. -/
  arrays {a b : Context} {m : MergeState} (hne : ¬ (a == b) = true)
    (harray : (a.isArray || b.isArray) = true) (hwild : wildcardOf root a b = none)
    (hknown : m.known? a b = none)
    (hentries : entriesMerge a.entries b.entries m (mergeEntries root a.entries b.entries m)) :
    merges a b m (remembered a b (ofMerged a b (mergeEntries root a.entries b.entries m).1
      (mergeEntries root a.entries b.entries m).2))
  /-- Two contexts of at most one entry, of which one is empty. -/
  roots {a b : Context} {es : List (Entry Context)} {m : MergeState} (hne : ¬ (a == b) = true)
    (harray : ¬ (a.isArray || b.isArray) = true) (hknown : m.known? a b = none)
    (hroot : rootEntries root a b = some es) : merges a b m (remembered a b (m.make es))
  /-- Two entries with the same return state, once their parents are merged. -/
  sameTop {a b : Context} {m : MergeState} (hne : ¬ (a == b) = true)
    (harray : ¬ (a.isArray || b.isArray) = true) (hknown : m.known? a b = none)
    (hroot : rootEntries root a b = none) (hreturn : a.top.returnState = b.top.returnState)
    (hparents : parentsMerge a.top.parent b.top.parent m
      (mergeParents root a.top.parent b.top.parent m)) :
    merges a b m (ofParent a b (mergeParents root a.top.parent b.top.parent m).1
      (mergeParents root a.top.parent b.top.parent m).2)
  /-- Two entries with different return states. -/
  twoTops {a b : Context} {m : MergeState} (hne : ¬ (a == b) = true)
    (harray : ¬ (a.isArray || b.isArray) = true) (hknown : m.known? a b = none)
    (hroot : rootEntries root a b = none) (hreturn : a.top.returnState ≠ b.top.returnState) :
    merges a b m (remembered a b (m.make (twoEntries a.top b.top)))
  /-- Two unknown rests. -/
  unknownParents {m : MergeState} : parentsMerge none none m (none, m)
  /-- Two rests of which one is known. -/
  parents {p q : Option Context} {m : MergeState} (hknown : p.isSome ∨ q.isSome)
    (hrests : merges (restOf p) (restOf q) m (merge root (restOf p) (restOf q) m)) :
    parentsMerge p q m (some (merge root (restOf p) (restOf q) m).1,
      (merge root (restOf p) (restOf q) m).2)
  /-- No entries on the left. -/
  nilLeft {fs : List (Entry Context)} {m : MergeState} : entriesMerge [] fs m (fs, m)
  /-- No entries on the right. -/
  nilRight {es : List (Entry Context)} {m : MergeState} : entriesMerge es [] m (es, m)
  /-- The first entry on the left is below that on the right. -/
  left {e f : Entry Context} {es fs : List (Entry Context)} {m : MergeState}
    (hlow : e.returnState < f.returnState)
    (hrest : entriesMerge es (f :: fs) m (mergeEntries root es (f :: fs) m)) :
    entriesMerge (e :: es) (f :: fs) m
      (e :: (mergeEntries root es (f :: fs) m).1, (mergeEntries root es (f :: fs) m).2)
  /-- The first entry on the right is below that on the left. -/
  right {e f : Entry Context} {es fs : List (Entry Context)} {m : MergeState}
    (hlow : f.returnState < e.returnState)
    (hrest : entriesMerge (e :: es) fs m (mergeEntries root (e :: es) fs m)) :
    entriesMerge (e :: es) (f :: fs) m
      (f :: (mergeEntries root (e :: es) fs m).1, (mergeEntries root (e :: es) fs m).2)
  /-- The first entries have the same return state and the same parent. -/
  keptParent {e f : Entry Context} {es fs : List (Entry Context)} {m : MergeState}
    (hreturn : e.returnState = f.returnState) (hsame : sameParent e.parent f.parent = true)
    (hrest : entriesMerge es fs m (mergeEntries root es fs m)) :
    entriesMerge (e :: es) (f :: fs) m
      (e :: (mergeEntries root es fs m).1, (mergeEntries root es fs m).2)
  /-- The first entries have the same return state, and their parents are merged, which leads to the
  state in which the others are merged. -/
  mergedParents {e f : Entry Context} {es fs : List (Entry Context)} {m m' : MergeState}
    (hreturn : e.returnState = f.returnState) (hdifferent : ¬ sameParent e.parent f.parent = true)
    (hm' : m' = (mergeParents root e.parent f.parent m).2)
    (hparents : parentsMerge e.parent f.parent m (mergeParents root e.parent f.parent m))
    (hrest : entriesMerge es fs m' (mergeEntries root es fs m')) :
    entriesMerge (e :: es) (f :: fs) m
      (⟨(mergeParents root e.parent f.parent m).1, e.returnState⟩ :: (mergeEntries root es fs m').1,
        (mergeEntries root es fs m').2)

namespace MergeRule

variable {root : RootReading}
  {merges : Context → Context → MergeState → Context × MergeState → Prop}
  {parentsMerge : Option Context → Option Context → MergeState → Option Context × MergeState → Prop}
  {entriesMerge : List (Entry Context) → List (Entry Context) → MergeState →
    List (Entry Context) × MergeState → Prop}

mutual

/-- The first statement holds of merging two contexts. -/
theorem of_merge (hrule : MergeRule root merges parentsMerge entriesMerge) (a b : Context)
    (m : MergeState) : merges a b m (merge root a b m) := by
  rw [merge]
  split
  -- The cases are those of the tests, in the order in which a merge makes them.
  next heq => exact hrule.same heq
  next hne =>
    split
    next harray =>
      cases hwild : wildcardOf root a b with
      | some c => exact hrule.wildcard hne harray hwild
      | none =>
        cases hknown : m.known? a b with
        | some c => exact hrule.known hne (fun _ => hwild) hknown
        | none => exact hrule.arrays hne harray hwild hknown (hrule.of_mergeEntries _ _ m)
    next harray =>
      cases hknown : m.known? a b with
      | some c => exact hrule.known hne (fun hsome => (harray hsome).elim) hknown
      | none =>
        cases hroot : rootEntries root a b with
        | some es => exact hrule.roots hne harray hknown hroot
        | none =>
          dsimp only
          split
          next hreturn =>
            exact hrule.sameTop hne harray hknown hroot hreturn (hrule.of_mergeParents _ _ m)
          next hreturn => exact hrule.twoTops hne harray hknown hroot hreturn
termination_by a.weight + b.weight
decreasing_by
  · exact parentWeight_top_add_lt a b
  · exact entriesWeight_add_lt a b

/-- The second statement holds of merging two rests of a stack. -/
theorem of_mergeParents (hrule : MergeRule root merges parentsMerge entriesMerge)
    (p q : Option Context) (m : MergeState) : parentsMerge p q m (mergeParents root p q m) := by
  by_cases hknown : p.isSome ∨ q.isSome
  · have hweight := restOf_weight_lt hknown
    rw [mergeParents_eq hknown]
    exact hrule.parents hknown (hrule.of_merge _ _ m)
  · obtain ⟨rfl, rfl⟩ : p = none ∧ q = none := by simpa using hknown
    rw [mergeParents]
    exact hrule.unknownParents
termination_by parentWeight p + parentWeight q
decreasing_by exact hweight

/-- The third statement holds of merging two lists of entries. -/
theorem of_mergeEntries (hrule : MergeRule root merges parentsMerge entriesMerge)
    (es fs : List (Entry Context)) (m : MergeState) :
    entriesMerge es fs m (mergeEntries root es fs m) :=
  match es, fs with
  | [], fs => by
    rw [mergeEntries]
    exact hrule.nilLeft
  | e :: es, [] => by
    rw [mergeEntries]
    · exact hrule.nilRight
    · simp
  | e :: es, f :: fs => by
    rw [mergeEntries]
    split
    next hlow => exact hrule.left hlow (hrule.of_mergeEntries es (f :: fs) m)
    next hhigh =>
      split
      next hlow => exact hrule.right hlow (hrule.of_mergeEntries (e :: es) fs m)
      next hlow =>
        -- Neither is below the other.
        have hreturn : e.returnState = f.returnState := by omega
        split
        next hsame => exact hrule.keptParent hreturn hsame (hrule.of_mergeEntries es fs m)
        next hdifferent =>
          exact hrule.mergedParents hreturn hdifferent rfl (hrule.of_mergeParents _ _ m)
            (hrule.of_mergeEntries es fs _)
termination_by entriesWeight es + entriesWeight fs
decreasing_by all_goals simp only [entriesWeight, entryWeight_eq]; omega

end

end MergeRule

end Context

end TransitionNetwork
