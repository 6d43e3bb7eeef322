import TransitionNetwork.Proofs.Context.Sessions

/-!
# Merges with a cache

A cache saves work and changes nothing else. What a merge gives with a cache is equal to what it
gives without one, since both are unions of the operands.

A cache never has results for two nodes in both orders. A merge finds its pair in neither order
before it begins, and no merge on the way can keep a result for the pair in the other order: the
pairs on the way weigh less.
-/

namespace TransitionNetwork

/-! ## Caches -/

namespace MergeCache

/-- No two nodes have results in both orders. -/
def OneWay (cache : MergeCache) : Prop := ∀ i j, (i, j) ∈ cache.results → (j, i) ∉ cache.results

/-- Nothing is found for a pair exactly if it has a result in neither order. -/
theorem get?_eq_none {cache : MergeCache} {a b : Context} :
    cache.get? a b = none ↔
      (a.identity, b.identity) ∉ cache.results ∧ (b.identity, a.identity) ∉ cache.results := by
  rw [get?, Option.orElse_eq_orElse, Option.orElse_eq_or, Option.or_eq_none_iff,
    Std.HashMap.mem_iff_isSome_getElem?, Std.HashMap.mem_iff_isSome_getElem?,
    Option.not_isSome_iff_eq_none, Option.not_isSome_iff_eq_none]

/-- An insertion adds the pair for which it is made, in that order. -/
theorem mem_insert {cache : MergeCache} {a b c : Context} {i j : NodeId} :
    (i, j) ∈ (cache.insert a b c).results ↔
      (a.identity = i ∧ b.identity = j) ∨ (i, j) ∈ cache.results := by
  rw [insert, Std.HashMap.mem_insertIfNew, beq_iff_eq, Prod.mk.injEq]

end MergeCache

/-! ## States of a merge -/

namespace MergeState

/-- There is a result for two nodes in this order. -/
def Keeps (m : MergeState) (i j : NodeId) : Prop := ∃ cache ∈ m.cache, (i, j) ∈ cache.results

variable {h : History} {m m' m'' : MergeState} {w w' : Nat} {a b c : Context}

/-- A pair without a known result is kept in neither order. -/
theorem not_keeps_of_known? (hknown : m.known? a b = none) :
    ¬ m.Keeps a.identity b.identity ∧ ¬ m.Keeps b.identity a.identity := by
  rw [known?, Option.bind_eq_none_iff] at hknown
  refine ⟨?_, ?_⟩ <;> rintro ⟨cache, hcache, hmem⟩
  · exact (MergeCache.get?_eq_none.mp (hknown cache hcache)).1 hmem
  · exact (MergeCache.get?_eq_none.mp (hknown cache hcache)).2 hmem

/-- What changes in the cache during a merge: results are kept only for pairs of nodes up to a
weight, and a one-way cache stays one. -/
structure FillsUpTo (h : History) (w : Nat) (m m' : MergeState) : Prop where
  isSome : m'.cache.isSome = m.cache.isSome
  weight : ∀ i j, m'.Keeps i j → m.Keeps i j ∨ (h.node i).weight + (h.node j).weight ≤ w
  oneWay : (∀ cache ∈ m.cache, cache.OneWay) → ∀ cache ∈ m'.cache, cache.OneWay

namespace FillsUpTo

/-- Nothing changes in the cache. -/
theorem of_cache_eq (hcache : m'.cache = m.cache) : FillsUpTo h w m m' where
  isSome := by rw [hcache]
  weight i j hkeeps := Or.inl (by rwa [Keeps, hcache] at hkeeps)
  oneWay hm := by rwa [hcache]

/-- A merge that keeps no result changes nothing in the cache. -/
theorem refl (h : History) (w : Nat) (m : MergeState) : FillsUpTo h w m m := of_cache_eq rfl

/-- What weighs no more than a weight weighs no more than a greater one. -/
theorem mono (hfills : FillsUpTo h w m m') (hle : w ≤ w') : FillsUpTo h w' m m' where
  isSome := hfills.isSome
  weight i j hkeeps := (hfills.weight i j hkeeps).imp_right (Nat.le_trans · hle)
  oneWay := hfills.oneWay

/-- The results of two merges together weigh no more than a weight if those of each do. -/
theorem trans (hfirst : FillsUpTo h w m m') (hsecond : FillsUpTo h w m' m'') :
    FillsUpTo h w m m'' where
  isSome := hsecond.isSome.trans hfirst.isSome
  weight i j hkeeps := (hsecond.weight i j hkeeps).elim (hfirst.weight i j) Or.inr
  oneWay hm := hsecond.oneWay (hfirst.oneWay hm)

/-- Steps behind a merge that leave the cache alone change nothing in it. -/
theorem trans_cache_eq (hfirst : FillsUpTo h w m m') (hcache : m''.cache = m'.cache) :
    FillsUpTo h w m m'' := hfirst.trans (of_cache_eq hcache)

/-- A result may be kept for two different nodes that had none before, after merges of pairs that
weigh less. -/
theorem remember [NodeDigest] (hfills : FillsUpTo h w m m') (hw : w < a.weight + b.weight)
    (ha : h.Holds a) (hb : h.Holds b) (hne : ¬ (a == b) = true) (hknown : m.known? a b = none)
    (c : Context) : FillsUpTo h (a.weight + b.weight) m (m'.remember a b c) where
  isSome := by rw [MergeState.remember, Option.isSome_map, hfills.isSome]
  weight := by
    rintro i j ⟨_, hfilled, hmem⟩
    obtain ⟨cache, hcache, rfl⟩ := Option.map_eq_some_iff.mp hfilled
    rcases MergeCache.mem_insert.mp hmem with ⟨rfl, rfl⟩ | hmem
    · rw [ha.node_identity, hb.node_identity]
      exact Or.inr (Nat.le_refl _)
    · exact (hfills.mono (Nat.le_of_lt hw)).weight i j ⟨cache, hcache, hmem⟩
  oneWay hm := by
    have hidentity : ¬ a.identity = b.identity := fun hsame => hne <| by
      rw [ha.eq_of_sameNode hb (by simpa [Context.sameNode] using hsame)]
      exact (Context.beq_iff hb hb).mpr rfl
    have hswap : ¬ m'.Keeps b.identity a.identity := fun hkeeps => by
      rcases hfills.weight _ _ hkeeps with hkeeps | hweight
      · exact (not_keeps_of_known? hknown).2 hkeeps
      · rw [ha.node_identity, hb.node_identity] at hweight
        omega
    intro _ hfilled i j hmem hmem'
    obtain ⟨cache, hcache, rfl⟩ := Option.map_eq_some_iff.mp hfilled
    rw [MergeCache.mem_insert] at hmem hmem'
    rcases hmem with ⟨rfl, rfl⟩ | hmem <;> rcases hmem' with ⟨hi, hj⟩ | hmem'
    · exact hidentity hi
    · exact hswap ⟨cache, hcache, hmem'⟩
    · subst hi hj
      exact hswap ⟨cache, hcache, hmem⟩
    · exact hfills.oneWay hm cache hcache i j hmem hmem'

end FillsUpTo

end MergeState

/-! ## Merges -/

namespace Context

variable [NodeDigest] (root : RootReading) {h : History}

open MergeState (FillsUpTo)

/-- Making a node leaves the cache alone. -/
theorem cache_make (es : List (Entry Context)) (m : MergeState) :
    (m.make es).2.cache = m.cache := rfl

/-- Finding or making the context for merged entries leaves the cache alone. -/
theorem cache_ofMerged (a b : Context) (entries : List (Entry Context)) (m : MergeState) :
    (ofMerged a b entries m).2.cache = m.cache := by
  rw [ofMerged]
  split
  · rfl
  · split <;> rfl

/-- Making a node and keeping it for a pair without a result. -/
theorem fillsUpTo_remembered_make {a b : Context} {m : MergeState} (ha : h.Holds a) (hb : h.Holds b)
    (hne : ¬ (a == b) = true) (hknown : m.known? a b = none) (es : List (Entry Context)) :
    FillsUpTo h (a.weight + b.weight) m (remembered a b (m.make es)).2 := by
  have hpos : a.weight + b.weight - 1 < a.weight + b.weight := by
    have haweight := entriesWeight_entries_lt a
    omega
  exact ((FillsUpTo.refl h _ m).trans_cache_eq (cache_make es m)).remember hpos ha hb hne hknown _

/-- The context for merged parents is kept, unless it is an operand. -/
theorem fillsUpTo_ofParent {a b : Context} {m m' : MergeState} {w : Nat} (ha : h.Holds a)
    (hb : h.Holds b) (hne : ¬ (a == b) = true) (hknown : m.known? a b = none)
    (hw : w < a.weight + b.weight) (hfills : FillsUpTo h w m m') {p : Option Context} :
    FillsUpTo h (a.weight + b.weight) m (ofParent a b p m').2 := by
  rw [ofParent]
  split
  · exact hfills.mono (Nat.le_of_lt hw)
  · split
    · exact hfills.mono (Nat.le_of_lt hw)
    · exact (hfills.trans_cache_eq (cache_make _ m')).remember hw ha hb hne hknown _

/-- Every branch of a merge keeps results for pairs that weigh no more than the operands, if the
merges within do. -/
theorem mergeRule_fillsUpTo : MergeRule root
    (fun a b m result => h.Holds a → h.Holds b →
      FillsUpTo h (a.weight + b.weight) m result.2)
    (fun p q m result => h.HoldsParent p → h.HoldsParent q →
      FillsUpTo h (parentWeight p + parentWeight q) m result.2)
    (fun es fs m result => h.HoldsEntries es → h.HoldsEntries fs →
      FillsUpTo h (entriesWeight es + entriesWeight fs) m result.2) where
  same _ _ _ := .refl h _ _
  wildcard _ _ _ _ _ := .refl h _ _
  known _ _ _ _ _ := .refl h _ _
  arrays hne _ _ hknown hentries ha hb :=
    ((hentries ha.entries hb.entries).trans_cache_eq (cache_ofMerged ..)).remember
      (entriesWeight_add_lt _ _) ha hb hne hknown _
  roots hne _ hknown _ ha hb := fillsUpTo_remembered_make ha hb hne hknown _
  sameTop hne _ hknown _ _ hparents ha hb :=
    fillsUpTo_ofParent ha hb hne hknown (parentWeight_top_add_lt _ _) (hparents ha.top hb.top)
  twoTops hne _ hknown _ _ ha hb := fillsUpTo_remembered_make ha hb hne hknown _
  unknownParents _ _ := .refl h _ _
  parents hknown hrests hp hq :=
    (hrests (holds_restOf hp) (holds_restOf hq)).mono (Nat.le_of_lt (restOf_weight_lt hknown))
  nilLeft _ _ := .refl h _ _
  nilRight _ _ := .refl h _ _
  left _ hrest hes hfs := by
    refine (hrest (List.forall_mem_cons.mp hes).2 hfs).mono ?_
    simp only [entriesWeight]
    omega
  right _ hrest hes hfs := by
    refine (hrest hes (List.forall_mem_cons.mp hfs).2).mono ?_
    simp only [entriesWeight]
    omega
  keptParent _ _ hrest hes hfs := by
    refine (hrest (List.forall_mem_cons.mp hes).2 (List.forall_mem_cons.mp hfs).2).mono ?_
    simp only [entriesWeight]
    omega
  mergedParents _ _ hm' hparents hrest hes hfs := by
    subst hm'
    obtain ⟨he, hes'⟩ := List.forall_mem_cons.mp hes
    obtain ⟨hf, hfs'⟩ := List.forall_mem_cons.mp hfs
    refine .trans ((hparents he hf).mono ?_) ((hrest hes' hfs').mono ?_) <;>
      simp only [entriesWeight, entryWeight_eq] <;> omega

/-- A merge keeps results for pairs that weigh no more than the operands. -/
theorem fillsUpTo_merge {a b : Context} (ha : h.Holds a) (hb : h.Holds b) (m : MergeState) :
    FillsUpTo h (a.weight + b.weight) m (merge root a b m).2 :=
  (mergeRule_fillsUpTo root).of_merge a b m ha hb

/-- The same for two rests of a stack. -/
theorem fillsUpTo_mergeParents {p q : Option Context} (hp : h.HoldsParent p) (hq : h.HoldsParent q)
    (m : MergeState) :
    FillsUpTo h (parentWeight p + parentWeight q) m (mergeParents root p q m).2 :=
  (mergeRule_fillsUpTo root).of_mergeParents p q m hp hq

/-- The same for two lists of entries. -/
theorem fillsUpTo_mergeEntries {es fs : List (Entry Context)} (hes : h.HoldsEntries es)
    (hfs : h.HoldsEntries fs) (m : MergeState) :
    FillsUpTo h (entriesWeight es + entriesWeight fs) m (mergeEntries root es fs m).2 :=
  (mergeRule_fillsUpTo root).of_mergeEntries es fs m hes hfs

end Context

/-! ## Sessions -/

namespace Session

variable [NodeDigest] {s : Session}

/-- The caches of a reached session are one-way. -/
theorem Reached.oneWay (hs : s.Reached) : ∀ cache ∈ s.caches, cache.2.OneWay := by
  induction hs with
  | start => simp [Session.start]
  | @step s s' hs hstep ih =>
    obtain ⟨h, hsound⟩ := hs.sound
    cases hstep with
    | make | parent | merge | lookUp => exact ih
    | openCache root =>
      refine List.forall_mem_cons.mpr ⟨fun i j hmem => ?_, ih⟩
      change (i, j) ∈ (∅ : Std.HashMap (NodeId × NodeId) Context) at hmem
      simp at hmem
    | @mergeCached root cache cache' a b hcache ha hb hcache' =>
      have hfills := Context.fillsUpTo_merge root (hsound.contexts a ha)
        (hsound.contexts b hb) ⟨s.next, some cache⟩
      exact List.forall_mem_cons.mpr
        ⟨hfills.oneWay (by rintro _ ⟨⟩; exact ih _ hcache) cache' hcache', ih⟩

end Session

namespace Context

/-- Merging well-formed contexts with a cache gives what merging them without one gives, whatever
merges under the same reading have filled the cache before; and neither before nor after the merge
does the cache have results for two nodes in both orders. -/
theorem merge_cached_transparent [NodeDigest] {s : Session} (hs : s.Reached) {root : RootReading}
    {cache : MergeCache} (hcache : (root, cache) ∈ s.caches) {a b : Context}
    (ha : a ∈ s.contexts) (hb : b ∈ s.contexts) (hawell : a.WellFormed) (hbwell : b.WellFormed) :
    let cached := merge root a b ⟨s.next, some cache⟩
    let plain := merge root a b ⟨cached.2.next, none⟩
    (cached.1 == plain.1) = true ∧ cache.OneWay ∧
      ∃ after, cached.2.cache = some after ∧ after.OneWay := by
  obtain ⟨h, hsound⟩ := hs.sound
  have hkept : ∀ kept ∈ some cache, (root, kept) ∈ s.caches := by
    rintro _ ⟨⟩
    exact hcache
  have honeWay : cache.OneWay := hs.oneWay _ hcache
  refine ⟨?_, honeWay, ?_⟩
  · obtain ⟨h₁, hext₁, hm₁, hcached, hunion₁⟩ := hsound.merged ha hb root (some cache) hkept
    obtain ⟨h₂, hext₂, -, hplain, hunion₂⟩ := merged_merge ((hsound.contexts a ha).mono hext₁)
      ((hsound.contexts b hb).mono hext₁) (m := ⟨_, none⟩) ⟨hm₁.next, by simp⟩
    exact beq_of_shows (hcached.mono hext₂) hplain (hunion₁.wellFormed hawell hbwell)
      (hunion₂.wellFormed hawell hbwell) fun t => (hunion₁.shows t).trans (hunion₂.shows t).symm
  · have hfills := fillsUpTo_merge root (hsound.contexts a ha) (hsound.contexts b hb)
      ⟨s.next, some cache⟩
    obtain ⟨after, hafter⟩ := Option.isSome_iff_exists.mp hfills.isSome
    exact ⟨after, hafter, hfills.oneWay (by rintro _ ⟨⟩; exact honeWay) after hafter⟩

/-- The two callers are merged alike with a new cache and without one. -/
theorem merge_cached_transparent_callers :
    let cached := merge .exact soleCaller unsureCaller ⟨3, some ∅⟩
    let plain := merge .exact soleCaller unsureCaller ⟨cached.2.next, none⟩
    (cached.1 == plain.1) = true ∧ MergeCache.OneWay ∅ ∧
      ∃ after, cached.2.cache = some after ∧ after.OneWay :=
  merge_cached_transparent Session.reached_callers (by simp [Session.callers])
    (by simp [Session.callers]) (by simp [Session.callers]) wellFormed_soleCaller
    wellFormed_unsureCaller

end Context

end TransitionNetwork
