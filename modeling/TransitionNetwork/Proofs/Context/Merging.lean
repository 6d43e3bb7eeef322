import Std.Data.HashMap.Lemmas
import TransitionNetwork.Proofs.Context.MergeRule
import TransitionNetwork.Proofs.Context.Unions

/-!
# What merges give

A cache is sound if each of its results is a union of the two nodes for which it is kept. A merge
of contexts of a history, in a state with a sound cache, gives a union of them that belongs to a
later history, and leaves the cache sound. Every step of the merge is shown to do so, and then the
recursion through parents.
-/

namespace TransitionNetwork

variable [NodeDigest]

/-! ## Caches -/

/-- Results are kept for nodes of the history, which stand in a relation with them. -/
def MergeCache.Relates (R : Context → Context → Context → Prop) (h : History) (cache : MergeCache) :
    Prop :=
  ∀ i j c, cache.results[(i, j)]? = some c →
    i < h.next ∧ j < h.next ∧ R (h.node i) (h.node j) c

/-- The same for the cache of a state, if there is one. -/
def MergeState.Relates (R : Context → Context → Context → Prop) (h : History) (m : MergeState) :
    Prop := ∀ cache ∈ m.cache, cache.Relates R h

/-- Each result is a union of the nodes for which it is kept. -/
def MergeCache.Sound (root : RootReading) (h : History) (cache : MergeCache) : Prop :=
  ∀ i j c, cache.results[(i, j)]? = some c →
    i < h.next ∧ j < h.next ∧ h.Holds c ∧ Context.IsUnion root (h.node i) (h.node j) c

/-- The identity that is free is that of the history, and the cache, if there is one, is sound. -/
structure MergeState.Sound (root : RootReading) (h : History) (m : MergeState) : Prop where
  next : m.next = h.next
  cache : ∀ cache ∈ m.cache, cache.Sound root h

variable {root : RootReading} {h h' : History} {m : MergeState}

namespace MergeCache

variable {R : Context → Context → Context → Prop} {cache : MergeCache} {a b c : Context}

omit [NodeDigest] in
/-- The cache that is new has no result for any pair. -/
theorem getElem?_results_empty (i j : NodeId) : (∅ : MergeCache).results[(i, j)]? = none := by
  change (∅ : Std.HashMap (NodeId × NodeId) Context)[(i, j)]? = none
  simp

omit [NodeDigest] in
/-- In a new cache there is no result that would have to stand in a relation. -/
theorem relates_empty : (∅ : MergeCache).Relates R h := fun i j c hc => by
  rw [getElem?_results_empty] at hc
  cases hc

omit [NodeDigest] in
/-- A result that is found after one has been kept is that one, or it was found before. -/
theorem eq_or_of_getElem?_insert {i j : NodeId} {d : Context}
    (hd : (cache.insert a b c).results[(i, j)]? = some d) :
    (i = a.identity ∧ j = b.identity ∧ d = c) ∨ cache.results[(i, j)]? = some d := by
  rw [insert, Std.HashMap.getElem?_insertIfNew] at hd
  split at hd
  next hkey =>
    cases hd
    have hpair := hkey.1
    rw [beq_iff_eq, Prod.mk.injEq] at hpair
    exact Or.inl ⟨hpair.1.symm, hpair.2.symm, rfl⟩
  · exact Or.inr hd

/-- What is found for two contexts of the history stands in a relation with them that holds in both
orders. -/
theorem Relates.get? (hcache : cache.Relates R h) (hsymm : ∀ {a b c}, R a b c → R b a c)
    (ha : h.Holds a) (hb : h.Holds b) (hc : cache.get? a b = some c) : R a b c := by
  rw [MergeCache.get?, Option.orElse_eq_orElse, Option.orElse_eq_or, Option.or_eq_some_iff] at hc
  rcases hc with hc | ⟨-, hc⟩
  · obtain ⟨-, -, hrelated⟩ := hcache _ _ c hc
    rwa [ha.node_identity, hb.node_identity] at hrelated
  · obtain ⟨-, -, hrelated⟩ := hcache _ _ c hc
    rw [ha.node_identity, hb.node_identity] at hrelated
    exact hsymm hrelated

/-- A result in the relation may be kept. -/
theorem Relates.insert (hcache : cache.Relates R h) (ha : h.Holds a) (hb : h.Holds b)
    (hc : R a b c) : (cache.insert a b c).Relates R h := by
  intro i j d hd
  rcases eq_or_of_getElem?_insert hd with ⟨rfl, rfl, rfl⟩ | hd
  · rw [ha.node_identity, hb.node_identity]
    exact ⟨ha.identity_lt, hb.identity_lt, hc⟩
  · exact hcache i j d hd

omit [NodeDigest] in
/-- A relation of results with nodes of a history is one with the same nodes of a later history. -/
theorem Relates.mono (hcache : cache.Relates R h) (hext : h.Extends h') : cache.Relates R h' := by
  intro i j c hc
  obtain ⟨hi, hj, hrelated⟩ := hcache i j c hc
  rw [hext.node i hi, hext.node j hj]
  exact ⟨Nat.lt_of_lt_of_le hi hext.next, Nat.lt_of_lt_of_le hj hext.next, hrelated⟩

/-- A cache is sound if its results are unions that belong to the history. -/
theorem sound_iff_relates :
    cache.Sound root h ↔ cache.Relates (fun a b c => h.Holds c ∧ Context.IsUnion root a b c) h :=
  Iff.rfl

/-- A new cache is sound. -/
theorem Sound.empty : (∅ : MergeCache).Sound root h := sound_iff_relates.mpr relates_empty

/-- A sound cache stays sound as the history goes on. -/
theorem Sound.mono (hcache : cache.Sound root h) (hext : h.Extends h') : cache.Sound root h' := by
  intro i j c hc
  obtain ⟨-, -, hheld, -⟩ := hcache i j c hc
  obtain ⟨hi, hj, -, hunion⟩ := (sound_iff_relates.mp hcache).mono hext i j c hc
  exact ⟨hi, hj, hheld.mono hext, hunion⟩

/-- A result that is kept for two contexts of the history is a union of them. -/
theorem Sound.get? (hcache : cache.Sound root h) (ha : h.Holds a) (hb : h.Holds b)
    (hc : cache.get? a b = some c) : h.Holds c ∧ Context.IsUnion root a b c :=
  (sound_iff_relates.mp hcache).get? (fun ⟨hheld, hunion⟩ => ⟨hheld, hunion.symm⟩) ha hb hc

/-- A cache in which a union is kept is sound. -/
theorem Sound.insert (hcache : cache.Sound root h) (ha : h.Holds a) (hb : h.Holds b)
    (hc : h.Holds c) (hunion : Context.IsUnion root a b c) : (cache.insert a b c).Sound root h :=
  (sound_iff_relates.mp hcache).insert ha hb ⟨hc, hunion⟩

end MergeCache

namespace MergeState

variable {R : Context → Context → Context → Prop} {a b c : Context}

/-- A result that is known for two contexts stands in the relation with them. -/
theorem Relates.known? (hm : m.Relates R h) (hsymm : ∀ {a b c}, R a b c → R b a c)
    (ha : h.Holds a) (hb : h.Holds b) (hc : m.known? a b = some c) : R a b c := by
  rw [MergeState.known?, Option.bind_eq_some_iff] at hc
  obtain ⟨cache, hcache, hc⟩ := hc
  exact (hm cache hcache).get? hsymm ha hb hc

/-- A state in which a result of the relation is kept has such results only. -/
theorem Relates.remember (hm : m.Relates R h) (ha : h.Holds a) (hb : h.Holds b) (hc : R a b c) :
    (m.remember a b c).Relates R h := by
  intro _ hfilled
  obtain ⟨cache, hcache, rfl⟩ := Option.map_eq_some_iff.mp hfilled
  exact (hm cache hcache).insert ha hb hc

end MergeState

/-- A result that is known in a sound state is a union of the two contexts. -/
theorem MergeState.Sound.known? (hm : m.Sound root h) {a b c : Context} (ha : h.Holds a)
    (hb : h.Holds b) (hc : m.known? a b = some c) : h.Holds c ∧ Context.IsUnion root a b c := by
  rw [MergeState.known?, Option.bind_eq_some_iff] at hc
  obtain ⟨cache, hcache, hc⟩ := hc
  exact (hm.cache cache hcache).get? ha hb hc

/-- A state in which a union is kept is sound. -/
theorem MergeState.Sound.remember (hm : m.Sound root h) {a b c : Context} (ha : h.Holds a)
    (hb : h.Holds b) (hc : h.Holds c) (hunion : Context.IsUnion root a b c) :
    (m.remember a b c).Sound root h where
  next := hm.next
  cache cache hcache := by
    obtain ⟨cache', hcache', rfl⟩ := Option.map_eq_some_iff.mp hcache
    exact (hm.cache cache' hcache').insert ha hb hc hunion

/-- A new node over parents of the history belongs to a later history, up to which the state is
sound again. -/
theorem MergeState.Sound.make (hm : m.Sound root h) {es : List (Entry Context)}
    (hes : h.HoldsEntries es) :
    ∃ h' : History, h.Extends h' ∧ (m.make es).2.Sound root h' ∧ h'.Holds (m.make es).1 := by
  obtain ⟨h', hext, hnext, hheld⟩ := Context.exists_holds_ofEntries hes
  rw [← hm.next] at hnext hheld
  exact ⟨h', hext, ⟨hnext.symm, fun cache hcache => (hm.cache cache hcache).mono hext⟩, hheld⟩

/-! ## Sharing parents -/

/-- Every member of the table belongs to the history. -/
def ContextTable.HeldBy (h : History) (table : ContextTable) : Prop :=
  ∀ digest c, c ∈ table.buckets.getD digest [] → h.Holds c

/-- A new table has no members that would have to belong to the history. -/
theorem ContextTable.heldBy_empty : (∅ : ContextTable).HeldBy h := fun digest c hc => by
  change c ∈ (∅ : Std.HashMap UInt64 (List Context)).getD digest [] at hc
  simp at hc

/-- Interning gives an equal context of the history. -/
theorem ContextTable.HeldBy.intern {table : ContextTable} (htable : table.HeldBy h) {c : Context}
    (hc : h.Holds c) :
    h.Holds (table.intern c).1 ∧ (table.intern c).1.skeleton = c.skeleton ∧
      (table.intern c).2.HeldBy h := by
  rw [ContextTable.intern]
  cases hfind : table.find? c with
  | some member =>
    have hmember := htable _ member (List.mem_of_find?_eq_some hfind)
    have heq : (member == c) = true := by simpa using List.find?_some hfind
    exact ⟨hmember, (Context.beq_iff hmember hc).mp heq, htable⟩
  | none =>
    refine ⟨hc, rfl, fun digest d hd => ?_⟩
    simp only [Std.HashMap.getD_insert] at hd
    split at hd
    · rcases List.mem_cons.mp hd with rfl | hd
      · exact hc
      · exact htable _ d hd
    · exact htable _ d hd

namespace Context

/-- Sharing parents keeps the skeletons of the entries. -/
theorem shareParents_spec {es : List (Entry Context)} (hes : h.HoldsEntries es)
    {table : ContextTable} (htable : table.HeldBy h) :
    h.HoldsEntries (shareParents es table) ∧
      (shareParents es table).map entrySkeleton = es.map entrySkeleton := by
  induction es generalizing table with
  | nil => exact ⟨hes, rfl⟩
  | cons e rest ih =>
    have hrest : h.HoldsEntries rest := fun f hf => hes f (List.mem_cons_of_mem _ hf)
    rcases e with ⟨_ | p, r⟩
    · obtain ⟨hheld, hsame⟩ := ih hrest htable
      refine ⟨List.forall_mem_cons.mpr ⟨fun _ hp => (by cases hp), hheld⟩, ?_⟩
      rw [shareParents, List.map_cons, List.map_cons, hsame]
    · obtain ⟨hp, hskeleton, htable'⟩ := htable.intern (hes _ List.mem_cons_self p rfl)
      obtain ⟨hheld, hsame⟩ := ih hrest htable'
      refine ⟨List.forall_mem_cons.mpr ⟨?_, hheld⟩, ?_⟩
      · rintro _ ⟨⟩
        exact hp
      · rw [shareParents, List.map_cons, List.map_cons, hsame, entrySkeleton, entrySkeleton,
          hskeleton]

/-! ## Results -/

/-- The result is a union that belongs to a later history, up to which the state is sound. -/
def Merged (root : RootReading) (h : History) (a b : Context) (result : Context × MergeState) :
    Prop :=
  ∃ h' : History, h.Extends h' ∧ result.2.Sound root h' ∧ h'.Holds result.1 ∧
    IsUnion root a b result.1

/-- The same for two rests of a stack. -/
def MergedParents (root : RootReading) (h : History) (p q : Option Context)
    (result : Option Context × MergeState) : Prop :=
  ∃ h' : History, h.Extends h' ∧ result.2.Sound root h' ∧ h'.HoldsParent result.1 ∧
    ParentUnion root p q result.1

/-- The same for two lists of entries. -/
def MergedEntries (root : RootReading) (h : History) (es fs : List (Entry Context))
    (result : List (Entry Context) × MergeState) : Prop :=
  ∃ h' : History, h.Extends h' ∧ result.2.Sound root h' ∧ h'.HoldsEntries result.1 ∧
    EntriesUnion root es fs result.1

variable {a b c : Context}

/-- A merge from a later history is one from the history before. -/
theorem Merged.of_extends {result : Context × MergeState} (hext : h.Extends h')
    (hmerged : Merged root h' a b result) : Merged root h a b result := by
  obtain ⟨h'', hext', hrest⟩ := hmerged
  exact ⟨h'', hext.trans hext', hrest⟩

/-- A union that is there already is a result that changes nothing. -/
theorem Merged.of_isUnion (hm : m.Sound root h) (hc : h.Holds c) (hunion : IsUnion root a b c) :
    Merged root h a b (c, m) := ⟨h, .refl h, hm, hc, hunion⟩

/-- Keeping the result leaves the cache sound. -/
theorem Merged.remember (ha : h.Holds a) (hb : h.Holds b) {result : Context × MergeState}
    (hmerged : Merged root h a b result) :
    Merged root h a b (remembered a b result) := by
  obtain ⟨h', hext, hm, hc, hunion⟩ := hmerged
  exact ⟨h', hext, hm.remember (ha.mono hext) (hb.mono hext) hc hunion, hc, hunion⟩

/-! ## Steps without recursion -/

/-- A new node for a union of the entries of contexts that are no wildcards. -/
theorem merged_make (hm : m.Sound root h) {gs : List (Entry Context)} (hgs : h.HoldsEntries gs)
    (hunion : EntriesUnion root a.entries b.entries gs)
    (ha : ¬ IsWildcard root a) (hb : ¬ IsWildcard root b)
    (hproper : gs ≠ [⟨none, emptyReturn⟩]) : Merged root h a b (m.make gs) := by
  obtain ⟨h', hext, hm', hheld⟩ := hm.make hgs
  have hne : gs ≠ [] := by
    rintro rfl
    exact a.entries_ne_nil (List.length_eq_zero_iff.mp (Nat.le_zero.mp hunion.left))
  have hentries : (m.make gs).1.entries = gs := entries_ofEntries hne m.next
  have hnonempty : ¬ (m.make gs).1.isEmpty = true := fun hempty =>
    (isEmpty_ofEntries hempty).elim hne hproper
  refine ⟨h', hext, hm', hheld, ?_⟩
  rw [← hentries] at hunion
  exact hunion.isUnion ha hb (not_isWildcard_of_not_isEmpty hnonempty)

/-- An operand that has the merged entries is the union. -/
theorem isUnion_of_hasEntries (hc : h.Holds c) {gs : List (Entry Context)}
    (hgs : h.HoldsEntries gs) (hunion : EntriesUnion root a.entries b.entries gs)
    (ha : ¬ IsWildcard root a) (hb : ¬ IsWildcard root b) (hhas : c.hasEntries gs = true) :
    IsUnion root a b c := by
  rw [hasEntries, Bool.and_eq_true] at hhas
  have hnonempty : ¬ c.isEmpty = true := fun hempty => by
    rw [isEmpty_iff.mp hempty] at hhas
    simp [isArray, shape] at hhas
  have hskeleton : c.entries.map entrySkeleton = gs.map entrySkeleton :=
    (beqEntries_iff fun e he p hp f hf q hq =>
      beq_iff (hc.entries e he p hp) (hgs f hf q hq)).mp hhas.2
  exact (hunion.of_map_skeleton hskeleton.symm).isUnion ha hb
    (not_isWildcard_of_not_isEmpty hnonempty)

/-- The context for merged entries of which there are at least two. -/
theorem merged_ofMerged (ha : h.Holds a) (hb : h.Holds b) (hm : m.Sound root h)
    {gs : List (Entry Context)} (hgs : h.HoldsEntries gs)
    (hunion : EntriesUnion root a.entries b.entries gs) (hmany : 1 < gs.length)
    (hawild : ¬ IsWildcard root a) (hbwild : ¬ IsWildcard root b) :
    Merged root h a b (ofMerged a b gs m) := by
  rw [ofMerged]
  split
  next hhas =>
    exact .of_isUnion hm ha (isUnion_of_hasEntries ha hgs hunion hawild hbwild hhas)
  · split
    next hhas =>
      exact .of_isUnion hm hb (isUnion_of_hasEntries hb hgs hunion hawild hbwild hhas)
    · obtain ⟨hheld, hsame⟩ := shareParents_spec hgs ContextTable.heldBy_empty
      apply merged_make hm hheld (hunion.of_map_skeleton hsame.symm) hawild hbwild
      intro hbottom
      have hlength : (shareParents gs ∅).length = gs.length := by
        simpa using congrArg List.length hsame
      rw [← hlength, hbottom] at hmany
      exact Nat.lt_irrefl 1 hmany

/-- The entry of a context that is neither empty nor an array lies above that of the empty
stack. -/
theorem emptyReturn_lt_top (hb : h.Holds b) (harray : ¬ b.isArray = true)
    (hempty : ¬ b.isEmpty = true) (hwell : EntriesWellFormed b.entries) :
    ∀ e ∈ b.entries, emptyReturn < e.returnState := by
  intro e he
  by_cases hreturn : e.returnState = emptyReturn
  · refine (hb.entries_ne_bottom hempty ?_).elim
    have hbottom := hwell.bottom e he hreturn
    rw [entries_of_not_isArray harray, List.mem_singleton] at he
    rw [entries_of_not_isArray harray, ← he]
    rcases e with ⟨p, r⟩
    cases hbottom
    cases hreturn
    rfl
  · have hnonneg := hwell.nonneg e he hreturn
    have hvalue : emptyReturn = -1 := rfl
    omega

/-- The exact empty stack is put before the only entry of another context. -/
theorem entriesUnion_empty_cons (ha : a.isEmpty = true) (hb : h.Holds b)
    (harray : ¬ b.isArray = true) (hempty : b.isEmpty = false) :
    EntriesUnion root a.entries b.entries (empty.top :: b.entries) where
  shows t := by simp [isEmpty_iff.mp ha, entries, top]
  wellFormed hes hfs := hfs.cons (emptyReturn_lt_top hb harray (by simp [hempty]) hfs) (fun _ => rfl)
    (fun hne => (hne rfl).elim) fun _ hp => (by cases hp)
  left := by simp [isEmpty_iff.mp ha, entries]
  right := by simp

/-- Merging two contexts of at most one entry of which one is empty. -/
theorem merged_rootEntries (ha : h.Holds a) (hb : h.Holds b) (hm : m.Sound root h)
    (haarray : ¬ a.isArray = true) (hbarray : ¬ b.isArray = true) {gs : List (Entry Context)}
    (hgs : rootEntries root a b = some gs) : Merged root h a b (m.make gs) := by
  have hproper (c : Context) : empty.top :: c.entries ≠ [⟨none, emptyReturn⟩] := fun heq =>
    c.entries_ne_nil (List.cons.inj heq).2
  obtain ⟨rfl, -, hunion⟩ | ⟨rfl, ⟨hae, hbe, rfl⟩ | ⟨hbe, hae, rfl⟩⟩ := rootEntries_cases hgs
  · exact .of_isUnion hm .empty hunion
  · exact merged_make hm hb.bottom_cons (entriesUnion_empty_cons hae hb hbarray hbe)
      not_isWildcard_exact not_isWildcard_exact (hproper b)
  · exact merged_make hm ha.bottom_cons (entriesUnion_empty_cons hbe ha haarray hae).symm
      not_isWildcard_exact not_isWildcard_exact (hproper a)

/-- Merging two contexts of at most one entry, of which none is empty, with the same return state,
once their parents are merged. -/
theorem merged_sameTop {p : Option Context} (ha : h.Holds a) (hb : h.Holds b)
    (hm : m.Sound root h) (hp : h.HoldsParent p)
    (hunion : ParentUnion root a.top.parent b.top.parent p)
    (haarray : ¬ a.isArray = true) (hbarray : ¬ b.isArray = true)
    (haempty : ¬ a.isEmpty = true) (hbempty : ¬ b.isEmpty = true)
    (hreturn : a.top.returnState = b.top.returnState) :
    Merged root h a b (ofParent a b p m) := by
  have hawild : ¬ IsWildcard root a := not_isWildcard_of_not_isEmpty haempty
  have hbwild : ¬ IsWildcard root b := not_isWildcard_of_not_isEmpty hbempty
  have hentries : EntriesUnion root a.entries b.entries [⟨p, a.top.returnState⟩] := by
    rw [entries_of_not_isArray haarray, entries_of_not_isArray hbarray]
    exact (EntriesUnion.nil_left []).cons_both hunion hreturn
  rw [ofParent]
  split
  next hsame =>
    obtain rfl := hp.eq_of_sameParent ha.top hsame
    rw [← entries_of_not_isArray haarray] at hentries
    exact .of_isUnion hm ha (hentries.isUnion hawild hbwild hawild)
  · split
    next hsame =>
      obtain rfl := hp.eq_of_sameParent hb.top hsame
      rw [hreturn, ← entries_of_not_isArray hbarray] at hentries
      exact .of_isUnion hm hb (hentries.isUnion hawild hbwild hbwild)
    · have hgs : h.HoldsEntries [⟨p, a.top.returnState⟩] := History.holdsEntries_singleton.mpr hp
      refine (merged_make hm hgs hentries hawild hbwild fun hbottom => ?_).remember ha hb
      -- The empty stack alone could only come from an operand that is the empty context.
      obtain ⟨rfl, hstate⟩ : p = none ∧ a.top.returnState = emptyReturn := by simpa using hbottom
      have hnone : a.top.parent = none := by
        have hknown := hunion.known
        cases hparent : a.top.parent <;> simp [hparent] at hknown ⊢
      apply ha.entries_ne_bottom haempty
      rw [entries_of_not_isArray haarray, ← hstate, ← hnone]

/-- Merging two contexts of at most one entry, of which none is empty, with different return
states. -/
theorem merged_twoEntries (ha : h.Holds a) (hb : h.Holds b) (hm : m.Sound root h)
    (haarray : ¬ a.isArray = true) (hbarray : ¬ b.isArray = true)
    (haempty : ¬ a.isEmpty = true) (hbempty : ¬ b.isEmpty = true)
    (hreturn : a.top.returnState ≠ b.top.returnState) :
    Merged root h a b (m.make (twoEntries a.top b.top)) := by
  have hunion : EntriesUnion root a.entries b.entries (twoEntries a.top b.top) := by
    rw [entries_of_not_isArray haarray, entries_of_not_isArray hbarray]
    exact entriesUnion_twoEntries ha.top hb.top hreturn
  refine merged_make hm (holdsEntries_twoEntries ha.top hb.top) hunion
    (not_isWildcard_of_not_isEmpty haempty) (not_isWildcard_of_not_isEmpty hbempty) fun hbottom => ?_
  have hlength := length_twoEntries a.top b.top
  rw [hbottom] at hlength
  cases hlength

/-! ## Merges -/

/-- Every branch of a merge gives a union that belongs to a later history, if the merges within
do. -/
theorem mergeRule_merged : MergeRule root
    (fun a b m result => ∀ h : History, h.Holds a → h.Holds b → m.Sound root h →
      Merged root h a b result)
    (fun p q m result => ∀ h : History, h.HoldsParent p → h.HoldsParent q → m.Sound root h →
      MergedParents root h p q result)
    (fun es fs m result => ∀ h : History, h.HoldsEntries es → h.HoldsEntries fs → m.Sound root h →
      MergedEntries root h es fs result) where
  same heq h ha hb hm := .of_isUnion hm ha (isUnion_of_beq ha hb heq)
  wildcard _ _ hwild h ha hb hm := by
    obtain ⟨hc, hunion⟩ := isUnion_of_wildcardOf hwild
    refine .of_isUnion hm ?_ hunion
    rcases hc with rfl | rfl
    · exact ha
    · exact hb
  known _ _ hknown h ha hb hm := by
    obtain ⟨hc, hunion⟩ := hm.known? ha hb hknown
    exact .of_isUnion hm hc hunion
  arrays _ harray hwild _ hentries h ha hb hm := by
    obtain ⟨h', hext, hm', hgs, hunion⟩ := hentries h ha.entries hb.entries hm
    obtain ⟨hawild, hbwild⟩ := not_isWildcard_of_wildcardOf hwild
    exact ((merged_ofMerged (ha.mono hext) (hb.mono hext) hm' hgs hunion
      (hunion.one_lt_length harray) hawild hbwild).of_extends hext).remember ha hb
  roots _ harray _ hroot h ha hb hm := by
    obtain ⟨haarray, hbarray⟩ := not_isArray_of_or harray
    exact (merged_rootEntries ha hb hm haarray hbarray hroot).remember ha hb
  sameTop _ harray _ hroot hreturn hparents h ha hb hm := by
    obtain ⟨haarray, hbarray⟩ := not_isArray_of_or harray
    obtain ⟨haempty, hbempty⟩ := not_isEmpty_of_rootEntries hroot
    obtain ⟨h', hext, hm', hp, hunion⟩ := hparents h ha.top hb.top hm
    exact (merged_sameTop (ha.mono hext) (hb.mono hext) hm' hp hunion haarray hbarray haempty
      hbempty hreturn).of_extends hext
  twoTops _ harray _ hroot hreturn h ha hb hm := by
    obtain ⟨haarray, hbarray⟩ := not_isArray_of_or harray
    obtain ⟨haempty, hbempty⟩ := not_isEmpty_of_rootEntries hroot
    exact (merged_twoEntries ha hb hm haarray hbarray haempty hbempty hreturn).remember ha hb
  unknownParents h hp _ hm := ⟨h, .refl h, hm, hp, .self none⟩
  parents hknown hrests h hp hq hm := by
    obtain ⟨h', hext, hm', hc, hunion⟩ := hrests h (holds_restOf hp) (holds_restOf hq) hm
    exact ⟨h', hext, hm', by rintro _ ⟨⟩; exact hc, hunion.parentUnion hknown⟩
  nilLeft h _ hfs hm := ⟨h, .refl h, hm, hfs, .nil_left _⟩
  nilRight h hes _ hm := ⟨h, .refl h, hm, hes, (EntriesUnion.nil_left _).symm⟩
  left hlow hrest h hes hfs hm := by
    obtain ⟨he, hes'⟩ := List.forall_mem_cons.mp hes
    obtain ⟨h', hext, hm', hgs, hunion⟩ := hrest h hes' hfs hm
    exact ⟨h', hext, hm', List.forall_mem_cons.mpr ⟨History.HoldsParent.mono he hext, hgs⟩,
      hunion.cons_left hlow⟩
  -- The lists change places for this step, and back again.
  right hlow hrest h hes hfs hm := by
    obtain ⟨hf, hfs'⟩ := List.forall_mem_cons.mp hfs
    obtain ⟨h', hext, hm', hgs, hunion⟩ := hrest h hes hfs' hm
    exact ⟨h', hext, hm', List.forall_mem_cons.mpr ⟨History.HoldsParent.mono hf hext, hgs⟩,
      (hunion.symm.cons_left hlow).symm⟩
  keptParent hreturn hsame hrest h hes hfs hm := by
    obtain ⟨he, hes'⟩ := List.forall_mem_cons.mp hes
    obtain ⟨hf, hfs'⟩ := List.forall_mem_cons.mp hfs
    have hparent := History.HoldsParent.eq_of_sameParent he hf hsame
    obtain ⟨h', hext, hm', hgs, hunion⟩ := hrest h hes' hfs' hm
    refine ⟨h', hext, hm', List.forall_mem_cons.mpr ⟨History.HoldsParent.mono he hext, hgs⟩,
      hunion.cons_both ?_ hreturn⟩
    rw [← hparent]
    exact .self _
  mergedParents hreturn _ hm' hparents hrest h hes hfs hm := by
    subst hm'
    obtain ⟨he, hes'⟩ := List.forall_mem_cons.mp hes
    obtain ⟨hf, hfs'⟩ := List.forall_mem_cons.mp hfs
    obtain ⟨h', hext, hm', hp, hparent⟩ := hparents h he hf hm
    -- The entries behind are merged in the history to which merging the parents has led.
    obtain ⟨h'', hext', hm'', hgs, hunion⟩ := hrest h' (History.HoldsEntries.mono hes' hext)
      (History.HoldsEntries.mono hfs' hext) hm'
    exact ⟨h'', hext.trans hext', hm'', List.forall_mem_cons.mpr ⟨hp.mono hext', hgs⟩,
      hunion.cons_both hparent hreturn⟩

/-- A merge gives a union of the operands. -/
theorem merged_merge {h : History} {m : MergeState} {a b : Context} (ha : h.Holds a)
    (hb : h.Holds b) (hm : m.Sound root h) : Merged root h a b (merge root a b m) :=
  mergeRule_merged.of_merge a b m h ha hb hm

/-- Merging two rests of a stack gives a union of them. -/
theorem mergedParents_mergeParents {h : History} {m : MergeState} {p q : Option Context}
    (hp : h.HoldsParent p) (hq : h.HoldsParent q) (hm : m.Sound root h) :
    MergedParents root h p q (mergeParents root p q m) :=
  mergeRule_merged.of_mergeParents p q m h hp hq hm

/-- Merging two lists of entries gives a union of them. -/
theorem mergedEntries_mergeEntries {h : History} {m : MergeState} {es fs : List (Entry Context)}
    (hes : h.HoldsEntries es) (hfs : h.HoldsEntries fs) (hm : m.Sound root h) :
    MergedEntries root h es fs (mergeEntries root es fs m) :=
  mergeRule_merged.of_mergeEntries es fs m h hes hfs hm

end Context

end TransitionNetwork
