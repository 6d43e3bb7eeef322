import TransitionNetwork.Proofs.Context.CacheTransparency
import TransitionNetwork.Proofs.Context.StackSets

/-!
# Operands as results

A merge never makes a node that has the structure of an operand: a result that is equal to one of
the operands is that very node. For several entries the operands are compared with the merged
entries before a node is made. For one entry over merged parents only the node of the parent is
compared, which is enough because the merge of the parents has reused its operands as well, and so
have the merges that filled the cache.
-/

namespace TransitionNetwork

namespace Context

variable [NodeDigest] {root : RootReading} {h : History} {m : MergeState} {a b c : Context}
  {es : List (Entry Context)}

/-- A context that is equal to one of two others is that very node. -/
structure Reuses (a b c : Context) : Prop where
  left : (c == a) = true → c = a
  right : (c == b) = true → c = b

omit [NodeDigest] in
/-- Which operand is reused does not depend on their order. -/
theorem Reuses.symm (hc : Reuses a b c) : Reuses b a c := ⟨hc.right, hc.left⟩

omit [NodeDigest] in
/-- The first of two contexts reuses both if the second is the same node whenever it is equal. -/
theorem Reuses.self (hsame : (a == b) = true → a = b) : Reuses a b a := ⟨fun _ => rfl, hsame⟩

/-- One of two contexts that are not equal. -/
theorem reuses_of_operand (ha : h.Holds a) (hb : h.Holds b) (hne : ¬ (a == b) = true)
    (hc : c = a ∨ c = b) : Reuses a b c := by
  rcases hc with rfl | rfl
  · exact .self fun hsame => (hne hsame).elim
  · exact (Reuses.self fun hsame => (hne (beq_comm hb ha hsame)).elim).symm

/-! ## New nodes -/

/-- A new node that is equal to a context has the entries of the context. -/
theorem map_entrySkeleton_of_make_beq (hm : m.Sound root h) (hes : h.HoldsEntries es) (hne : es ≠ [])
    (hc : h.Holds c) (hsame : ((m.make es).1 == c) = true) :
    es.map entrySkeleton = c.entries.map entrySkeleton := by
  obtain ⟨h', hext, -, hmade⟩ := hm.make hes
  have hentries : (m.make es).1.entries = es := entries_ofEntries hne m.next
  rw [← entries_skeleton, ← (beq_iff hmade (hc.mono hext)).mp hsame, entries_skeleton, hentries]

/-- A new node of several entries is equal to no context of one entry. -/
theorem reuses_make_of_not_isArray (hm : m.Sound root h) (hes : h.HoldsEntries es)
    (hmany : 1 < es.length) (ha : h.Holds a) (hb : h.Holds b) (haarray : ¬ a.isArray = true)
    (hbarray : ¬ b.isArray = true) : Reuses a b (m.make es).1 := by
  have hdifferent {c : Context} (hc : h.Holds c) (harray : ¬ c.isArray = true) :
      ¬ ((m.make es).1 == c) = true := fun hsame => by
    have hne : es ≠ [] := by
      rintro rfl
      cases hmany
    have hlength := congrArg List.length (map_entrySkeleton_of_make_beq hm hes hne hc hsame)
    rw [List.length_map, List.length_map, entries_of_not_isArray harray, List.length_singleton]
      at hlength
    omega
  exact ⟨fun hsame => (hdifferent ha haarray hsame).elim,
    fun hsame => (hdifferent hb hbarray hsame).elim⟩

/-- A new node for an empty operand is the operand, or has more entries than both. -/
theorem reuses_rootEntries (hm : m.Sound root h) (ha : h.Holds a) (hb : h.Holds b)
    (hne : ¬ (a == b) = true) (haarray : ¬ a.isArray = true) (hbarray : ¬ b.isArray = true)
    (hes : rootEntries root a b = some es) : Reuses a b (m.make es).1 := by
  have hmany (c : Context) : 1 < (empty.top :: c.entries).length :=
    Nat.succ_lt_succ (List.length_pos_iff_ne_nil.mpr c.entries_ne_nil)
  obtain ⟨rfl, hempty, -⟩ | ⟨-, ⟨-, -, rfl⟩ | ⟨-, -, rfl⟩⟩ := rootEntries_cases hes
  · exact reuses_of_operand ha hb hne (hempty.imp Eq.symm Eq.symm)
  · exact reuses_make_of_not_isArray hm hb.bottom_cons (hmany b) ha hb haarray hbarray
  · exact reuses_make_of_not_isArray hm ha.bottom_cons (hmany a) ha hb haarray hbarray

/-- A new node for several merged entries is made only if no operand has them. -/
theorem reuses_ofMerged (hm : m.Sound root h) (hes : h.HoldsEntries es) (hmany : 1 < es.length)
    (ha : h.Holds a) (hb : h.Holds b) (hne : ¬ (a == b) = true) :
    Reuses a b (ofMerged a b es m).1 := by
  rw [ofMerged]
  split
  · exact reuses_of_operand ha hb hne (Or.inl rfl)
  next haentries =>
    split
    · exact reuses_of_operand ha hb hne (Or.inr rfl)
    next hbentries =>
      obtain ⟨hshared, hskeleton⟩ := shareParents_spec hes ContextTable.heldBy_empty
      have hlength : (shareParents es ∅).length = es.length := by
        simpa using congrArg List.length hskeleton
      have hnil : shareParents es ∅ ≠ [] := by
        rw [← List.length_pos_iff_ne_nil, hlength]
        omega
      have hentries {c : Context} (hc : h.Holds c)
          (hsame : ((m.make (shareParents es ∅)).1 == c) = true) : c.hasEntries es = true := by
        have hmap := map_entrySkeleton_of_make_beq hm hshared hnil hc hsame
        rw [hskeleton] at hmap
        have hcount : es.length = c.entries.length := by simpa using congrArg List.length hmap
        rw [hasEntries, Bool.and_eq_true, isArray_iff, ← hcount]
        refine ⟨hmany, (beqEntries_iff ?_).mpr hmap.symm⟩
        exact fun e he p hp f hf q hq => beq_iff (hc.entries e he p hp) (hes f hf q hq)
      exact ⟨fun hsame => (haentries (hentries ha hsame)).elim,
        fun hsame => (hbentries (hentries hb hsame)).elim⟩

/-- The parent of a new node of one entry is the parent of an equal context, if it is that very node
whenever it is equal to it. -/
theorem sameParent_of_make_beq {r : Int} (hm : m.Sound root h) (hp : h.Holds c) (ha : h.Holds a)
    (haarray : ¬ a.isArray = true)
    (hreuse : (c == restOf a.top.parent) = true → c = restOf a.top.parent)
    (hsame : ((m.make [⟨some c, r⟩]).1 == a) = true) :
    sameParent (some c) a.top.parent = true := by
  have hes : h.HoldsEntries [⟨some c, r⟩] :=
    History.holdsEntries_singleton.mpr (by rintro _ ⟨⟩; exact hp)
  have hmap := map_entrySkeleton_of_make_beq hm hes (by simp) ha hsame
  rw [entries_of_not_isArray haarray, List.map_singleton, List.map_singleton, List.cons.injEq,
    entrySkeleton_eq, entrySkeleton_eq] at hmap
  have hparent : (some c).map skeleton = a.top.parent.map skeleton := congrArg Entry.parent hmap.1
  have htop := ha.top
  cases hq : a.top.parent with
  | none => simp [hq] at hparent
  | some q =>
    rw [hq] at hparent hreuse htop
    have hequal : (c == q) = true :=
      (beq_iff hp (htop q rfl)).mpr (Option.some.inj hparent)
    obtain rfl : c = q := hreuse hequal
    exact sameParent_self _

/-! ## Merges -/

/-- The result is the operand to which it is equal, unless the operands are different nodes of one
structure, and results in the cache are the nodes to which they are equal as well. -/
structure ReusesOperands (h : History) (a b : Context) (result : Context × MergeState) : Prop where
  reuses : ((a == b) = true → a = b) → Reuses a b result.1
  cache : result.2.Relates Reuses h

/-- The same for two rests of a stack, of which one is known. -/
structure ReusesParents (h : History) (p q : Option Context) (result : Option Context × MergeState) :
    Prop where
  reuses : p.isSome ∨ q.isSome → ((restOf p == restOf q) = true → restOf p = restOf q) →
    ∃ c, result.1 = some c ∧ Reuses (restOf p) (restOf q) c
  cache : result.2.Relates Reuses h

/-- A result that is the operand to which it is equal may be kept. -/
theorem ReusesOperands.remember (ha : h.Holds a) (hb : h.Holds b) (hm : m.Relates Reuses h)
    (hc : Reuses a b c) : ReusesOperands h a b (c, m.remember a b c) :=
  ⟨fun _ => hc, hm.remember ha hb hc⟩

/-- Finding or making the context for merged entries keeps what is said of the cache. -/
theorem relates_ofMerged (hm : m.Relates Reuses h) : (ofMerged a b es m).2.Relates Reuses h := by
  rwa [MergeState.Relates, cache_ofMerged]

/-- A merge of two contexts of one entry each with the same return state, once their parents are
merged. The contexts and the merged parents belong to a history up to which the state is sound. -/
theorem reusesOperands_sameTop {h₁ : History} {p : Option Context} (ha : h.Holds a) (hb : h.Holds b)
    (hext : h.Extends h₁) (hm : m.Sound root h₁) (hp : h₁.HoldsParent p) (hne : ¬ (a == b) = true)
    (harray : ¬ (a.isArray || b.isArray) = true) (hroot : rootEntries root a b = none)
    (hreturn : a.top.returnState = b.top.returnState)
    (hparents : ReusesParents h a.top.parent b.top.parent (p, m)) :
    ReusesOperands h a b (ofParent a b p m) := by
  obtain ⟨hdifferent, hsame⟩ := restOf_top_of_ne ha hb hne harray hroot hreturn
  obtain ⟨haarray, hbarray⟩ := not_isArray_of_or harray
  obtain ⟨c, hc, hreuses⟩ := hparents.reuses (isSome_or_of_ne hdifferent) hsame
  obtain rfl : p = some c := hc
  rw [ofParent]
  split
  · exact ⟨fun _ => reuses_of_operand ha hb hne (Or.inl rfl), hparents.cache⟩
  next hleft =>
    split
    · exact ⟨fun _ => reuses_of_operand ha hb hne (Or.inr rfl), hparents.cache⟩
    next hright =>
      -- A new node that were equal to an operand would have the same parent node.
      refine .remember ha hb hparents.cache ⟨fun hequal => (hleft ?_).elim, fun hequal =>
        (hright ?_).elim⟩
      · exact sameParent_of_make_beq hm (hp c rfl) (ha.mono hext) haarray hreuses.left hequal
      · exact sameParent_of_make_beq hm (hp c rfl) (hb.mono hext) hbarray hreuses.right hequal

/-- Every branch of a merge gives the operand to which its result is equal, if the merges within do.
The operands belong to one history, the state to a later one, since merges of other parents may have
gone before. -/
theorem mergeRule_reuses : MergeRule root
    (fun a b m result => ∀ h₁ : History, h.Holds a → h.Holds b → h.Extends h₁ → m.Sound root h₁ →
      m.Relates Reuses h → ReusesOperands h a b result)
    (fun p q m result => ∀ h₁ : History, h.HoldsParent p → h.HoldsParent q → h.Extends h₁ →
      m.Sound root h₁ → m.Relates Reuses h → ReusesParents h p q result)
    (fun es fs m result => ∀ h₁ : History, h.HoldsEntries es → h.HoldsEntries fs → h.Extends h₁ →
      m.Sound root h₁ → m.Relates Reuses h → result.2.Relates Reuses h) where
  same _ _ _ _ _ _ hcache := ⟨.self, hcache⟩
  wildcard hne _ hwild _ ha hb _ _ hcache :=
    ⟨fun _ => reuses_of_operand ha hb hne (isUnion_of_wildcardOf hwild).1, hcache⟩
  known _ _ hknown _ ha hb _ _ hcache := ⟨fun _ => hcache.known? .symm ha hb hknown, hcache⟩
  arrays hne harray _ _ hentries h₁ ha hb hext hm hcache := by
    have haheld := ha.mono hext
    have hbheld := hb.mono hext
    -- The merged entries belong to a later history, and there are several of them.
    obtain ⟨h₂, hext₂, hm₂, hes, hunion⟩ :=
      mergedEntries_mergeEntries haheld.entries hbheld.entries hm
    have hcache' := hentries h₁ ha.entries hb.entries hext hm hcache
    exact .remember ha hb (relates_ofMerged hcache') (reuses_ofMerged hm₂ hes
      (hunion.one_lt_length harray) (haheld.mono hext₂) (hbheld.mono hext₂) hne)
  roots hne harray _ hroot h₁ ha hb hext hm hcache := by
    obtain ⟨haarray, hbarray⟩ := not_isArray_of_or harray
    exact .remember ha hb hcache
      (reuses_rootEntries hm (ha.mono hext) (hb.mono hext) hne haarray hbarray hroot)
  sameTop hne harray _ hroot hreturn hparents h₁ ha hb hext hm hcache := by
    obtain ⟨h₂, hext₂, hm₂, hp, -⟩ :=
      mergedParents_mergeParents (ha.mono hext).top (hb.mono hext).top hm
    exact reusesOperands_sameTop ha hb (hext.trans hext₂) hm₂ hp hne harray hroot hreturn
      (hparents h₁ ha.top hb.top hext hm hcache)
  twoTops {a b m} _ harray _ _ _ h₁ ha hb hext hm hcache := by
    obtain ⟨haarray, hbarray⟩ := not_isArray_of_or harray
    have haheld := ha.mono hext
    have hbheld := hb.mono hext
    have hmany : 1 < (twoEntries a.top b.top).length := by
      rw [length_twoEntries]
      exact Nat.one_lt_two
    exact .remember ha hb hcache (reuses_make_of_not_isArray hm
      (holdsEntries_twoEntries haheld.top hbheld.top) hmany haheld hbheld haarray hbarray)
  unknownParents _ _ _ _ _ hcache := ⟨fun hsome => by simp at hsome, hcache⟩
  parents _ hrests h₁ hp hq hext hm hcache := by
    have hresult := hrests h₁ (holds_restOf hp) (holds_restOf hq) hext hm hcache
    exact ⟨fun _ hsame => ⟨_, rfl, hresult.reuses hsame⟩, hresult.cache⟩
  nilLeft _ _ _ _ _ hcache := hcache
  nilRight _ _ _ _ _ hcache := hcache
  left _ hrest h₁ hes hfs := hrest h₁ (List.forall_mem_cons.mp hes).2 hfs
  right _ hrest h₁ hes hfs := hrest h₁ hes (List.forall_mem_cons.mp hfs).2
  keptParent _ _ hrest h₁ hes hfs :=
    hrest h₁ (List.forall_mem_cons.mp hes).2 (List.forall_mem_cons.mp hfs).2
  mergedParents _ _ hm' hparents hrest h₁ hes hfs hext hm hcache := by
    subst hm'
    obtain ⟨he, hes'⟩ := List.forall_mem_cons.mp hes
    obtain ⟨hf, hfs'⟩ := List.forall_mem_cons.mp hfs
    -- Merging the parents leads to a later history, in which the operands are still those of `h`.
    obtain ⟨h₂, hext₂, hm₂, -, -⟩ := mergedParents_mergeParents
      (History.HoldsParent.mono he hext) (History.HoldsParent.mono hf hext) hm
    exact hrest h₂ hes' hfs' (hext.trans hext₂) hm₂ (hparents h₁ he hf hext hm hcache).cache

/-- A merge gives the operand to which its result is equal. -/
theorem reusesOperands_merge (ha : h.Holds a) (hb : h.Holds b) (hm : m.Sound root h)
    (hcache : m.Relates Reuses h) : ReusesOperands h a b (merge root a b m) :=
  mergeRule_reuses.of_merge a b m h ha hb (.refl h) hm hcache

end Context

/-! ## Sessions -/

namespace Session

variable [NodeDigest] {root : RootReading} {h : History} {s s' : Session}

/-- The results in all caches are the operands to which they are equal. -/
def ReusesOperands (h : History) (s : Session) : Prop :=
  ∀ cache ∈ s.caches, cache.2.Relates Context.Reuses h

/-- Merging contexts of a sound session. -/
theorem ReusesOperands.merge (hs : s.ReusesOperands h) (hsound : s.Sound h) {a b : Context}
    (ha : a ∈ s.contexts) (hb : b ∈ s.contexts) (cache : Option MergeCache)
    (hcache : ∀ kept ∈ cache, (root, kept) ∈ s.caches) :
    Context.ReusesOperands h a b (Context.merge root a b ⟨s.next, cache⟩) :=
  Context.reusesOperands_merge (hsound.contexts a ha) (hsound.contexts b hb)
    (hsound.mergeState hcache) fun kept hkept => hs _ (hcache kept hkept)

/-- One step leads to a session that is sound for a later history and whose caches again hold such
results only. -/
theorem ReusesOperands.step (hs : s.ReusesOperands h) (hsound : s.Sound h) (hstep : s.Step s') :
    ∃ h', s'.Sound h' ∧ s'.ReusesOperands h' := by
  obtain ⟨h', hext, hsound'⟩ := hsound.step hstep
  have hkept : s.ReusesOperands h' := fun cache hcache => (hs cache hcache).mono hext
  refine ⟨h', hsound', ?_⟩
  cases hstep with
  | make | parent | merge | lookUp => exact hkept
  | openCache root => exact List.forall_mem_cons.mpr ⟨MergeCache.relates_empty, hkept⟩
  | @mergeCached root cache cache' a b hcache ha hb hcache' =>
    have hmerged := hs.merge hsound ha hb (some cache) (by rintro _ ⟨⟩; exact hcache)
    exact List.forall_mem_cons.mpr ⟨(hmerged.cache cache' hcache').mono hext, hkept⟩

/-- Every reached session is sound for some history, and its caches hold such results only. -/
theorem Reached.reusesOperands (hs : s.Reached) : ∃ h, s.Sound h ∧ s.ReusesOperands h := by
  induction hs with
  | start =>
    obtain ⟨h, hsound⟩ := Reached.start.sound
    exact ⟨h, hsound, by simp [ReusesOperands, Session.start]⟩
  | step _ hstep ih =>
    obtain ⟨h, hsound, hreuses⟩ := ih
    exact hreuses.step hsound hstep

end Session

namespace Context

/-- What merging two contexts gives is the first of them if it is equal to it, and else the second
one if it is equal to that. This holds without a cache, and with one that has been filled by merges
under the same reading. -/
theorem merge_eq_operand [NodeDigest] {s : Session} (hs : s.Reached) {root : RootReading}
    {cache : Option MergeCache} (hcache : ∀ kept ∈ cache, (root, kept) ∈ s.caches) {a b : Context}
    (ha : a ∈ s.contexts) (hb : b ∈ s.contexts) :
    let result := (merge root a b ⟨s.next, cache⟩).1
    ((result == a) = true → result = a) ∧
      (¬ (result == a) = true → (result == b) = true → result = b) := by
  obtain ⟨h, hsound, hreuses⟩ := hs.reusesOperands
  have hmerged := hreuses.merge hsound ha hb cache hcache
  by_cases hsame : (a == b) = true
  · -- Equal operands are not merged: the first one is the result.
    have hfirst : (merge root a b ⟨s.next, cache⟩).1 = a := by rw [merge, if_pos hsame]
    exact ⟨fun _ => hfirst, fun hne => (hne (by rw [hfirst, beq_self])).elim⟩
  · have hresult := hmerged.reuses fun h => (hsame h).elim
    exact ⟨hresult.left, fun _ => hresult.right⟩

/-- The optional caller has all entries that merging it with the sole one gives. -/
theorem merge_soleCaller_optionalCaller :
    ((merge .exact soleCaller (optionalCaller 3) ⟨5, some ∅⟩).1 == optionalCaller 3) = true := by
  have hne : ¬ (soleCaller == optionalCaller 3) = true := by
    change ¬ beq soleCaller (optionalCaller 3) = true
    simp [soleCaller, optionalCaller, ofEntries, singleton, beq, beqEntry]
  have harray : (soleCaller.isArray || (optionalCaller 3).isArray) = true := rfl
  have hknown : MergeState.known? ⟨5, some ∅⟩ soleCaller (optionalCaller 3) = none := by
    simp [MergeState.known?, MergeCache.get?, MergeCache.getElem?_results_empty]
  have hentries (m : MergeState) :
      (mergeEntries .exact soleCaller.entries (optionalCaller 3).entries m).1 =
        (optionalCaller 3).entries := by
    simp [soleCaller, optionalCaller, ofEntries, singleton, entries, mergeEntries, emptyReturn,
      sameParent_self]
  have hleft (es : List (Entry Context)) : soleCaller.hasEntries es = false := rfl
  have hright : (optionalCaller 3).hasEntries (optionalCaller 3).entries = true := by
    simp [optionalCaller, ofEntries, entries, hasEntries, isArray, shape, beqEntries, beqEntry, beq]
  rw [merge, if_neg hne, if_pos harray, wildcardOf, hknown]
  simp [hentries, ofMerged, hleft, hright, beq_self]

/-- The optional caller absorbs the sole one. -/
theorem merge_eq_operand_optionalCaller :
    let result := (merge .exact soleCaller (optionalCaller 3) ⟨5, some ∅⟩).1
    (result == optionalCaller 3) = true ∧ ((result == soleCaller) = true → result = soleCaller) ∧
      (¬ (result == soleCaller) = true → (result == optionalCaller 3) = true →
        result = optionalCaller 3) :=
  ⟨merge_soleCaller_optionalCaller,
    merge_eq_operand reached_optionalCallers (by simp [optionalCallers])
      (by simp [optionalCallers, Session.callers]) (by simp [optionalCallers])⟩

end Context

end TransitionNetwork
