import TransitionNetwork.Proofs.Context.Merging

/-!
# Sessions

A session is what a program holds that makes and merges contexts: the contexts it has come by, its
caches with the reading under which each is used, and the next identity that is free. Every
reached session has a history to which its contexts belong and for which its caches are sound.
-/

namespace TransitionNetwork

/-- Contexts, caches with the reading under which each is used, and the next free identity. -/
structure Session where
  contexts : List Context
  caches : List (RootReading × MergeCache)
  next : NodeId

namespace Session

/-- The session with the empty context alone. -/
def start : Session := ⟨[Context.empty], [], 1⟩

variable [NodeDigest]

/-- What a program may do next. A cache is only changed by merges under its reading; its earlier
states are kept as well. -/
inductive Step (s : Session) : Session → Prop
  /-- Make a context from entries over contexts. -/
  | make (es : List (Entry Context)) (hes : ∀ e ∈ es, ∀ p ∈ e.parent, p ∈ s.contexts) :
      Step s { s with
        contexts := (Context.ofEntries es s.next).1 :: s.contexts
        next := (Context.ofEntries es s.next).2 }
  /-- Take a parent of a context. -/
  | parent {c p : Context} (hc : c ∈ s.contexts) (hp : p ∈ c.parents) :
      Step s { s with contexts := p :: s.contexts }
  /-- Merge two contexts without a cache. -/
  | merge (root : RootReading) {a b : Context} (ha : a ∈ s.contexts) (hb : b ∈ s.contexts) :
      Step s { s with
        contexts := (Context.merge root a b ⟨s.next, none⟩).1 :: s.contexts
        next := (Context.merge root a b ⟨s.next, none⟩).2.next }
  /-- Begin a cache for merges under a reading. -/
  | openCache (root : RootReading) : Step s { s with caches := (root, ∅) :: s.caches }
  /-- Merge two contexts with a cache. -/
  | mergeCached {root : RootReading} {cache cache' : MergeCache} {a b : Context}
      (hcache : (root, cache) ∈ s.caches) (ha : a ∈ s.contexts) (hb : b ∈ s.contexts)
      (hcache' : (Context.merge root a b ⟨s.next, some cache⟩).2.cache = some cache') :
      Step s {
        contexts := (Context.merge root a b ⟨s.next, some cache⟩).1 :: s.contexts
        caches := (root, cache') :: s.caches
        next := (Context.merge root a b ⟨s.next, some cache⟩).2.next }
  /-- Look a result up in a cache. -/
  | lookUp {root : RootReading} {cache : MergeCache} {a b c : Context}
      (hcache : (root, cache) ∈ s.caches) (ha : a ∈ s.contexts) (hb : b ∈ s.contexts)
      (hc : cache.get? a b = some c) : Step s { s with contexts := c :: s.contexts }

/-- The sessions to which a program may come. -/
inductive Reached : Session → Prop
  | start : Reached start
  | step {s s' : Session} : Reached s → Step s s' → Reached s'

/-- A step takes nothing away. -/
theorem Step.subset {s s' : Session} (hstep : s.Step s') :
    s.contexts ⊆ s'.contexts ∧ s.caches ⊆ s'.caches := by
  cases hstep with
  | make | parent | merge | lookUp => exact ⟨List.subset_cons_self _ _, List.Subset.refl _⟩
  | openCache => exact ⟨List.Subset.refl _, List.subset_cons_self _ _⟩
  | mergeCached => exact ⟨List.subset_cons_self _ _, List.subset_cons_self _ _⟩

/-- The contexts belong to the history, at whose end the free identity is, and the caches are
sound for it. -/
structure Sound (h : History) (s : Session) : Prop where
  next : s.next = h.next
  contexts : ∀ c ∈ s.contexts, h.Holds c
  caches : ∀ cache ∈ s.caches, cache.2.Sound cache.1 h

variable {h : History} {s s' : Session}

/-- Contexts and caches of a sound session, and new ones of a later history, make up a sound
session. -/
theorem Sound.extend (hs : s.Sound h) {h' : History} (hext : h.Extends h') {new : Context}
    (hnew : h'.Holds new) (caches : List (RootReading × MergeCache))
    (hcaches : ∀ cache ∈ caches, cache.2.Sound cache.1 h') :
    Sound h' ⟨new :: s.contexts, caches ++ s.caches, h'.next⟩ where
  next := rfl
  contexts := List.forall_mem_cons.mpr ⟨hnew, fun c hc => (hs.contexts c hc).mono hext⟩
  caches := List.forall_mem_append.mpr
    ⟨hcaches, fun cache hcache => (hs.caches cache hcache).mono hext⟩

/-- The state of a merge with one of the caches, or without a cache. -/
theorem Sound.mergeState (hs : s.Sound h) {root : RootReading} {cache : Option MergeCache}
    (hcache : ∀ kept ∈ cache, (root, kept) ∈ s.caches) :
    MergeState.Sound root h ⟨s.next, cache⟩ :=
  ⟨hs.next, fun kept hkept => hs.caches _ (hcache kept hkept)⟩

/-- Merging contexts of a sound session gives a union that belongs to a later history. -/
theorem Sound.merged (hs : s.Sound h) {a b : Context} (ha : a ∈ s.contexts) (hb : b ∈ s.contexts)
    (root : RootReading) (cache : Option MergeCache)
    (hcache : ∀ kept ∈ cache, (root, kept) ∈ s.caches) :
    Context.Merged root h a b (Context.merge root a b ⟨s.next, cache⟩) :=
  Context.merged_merge (hs.contexts a ha) (hs.contexts b hb) (hs.mergeState hcache)

/-- One step leads to a session that is sound for a later history. -/
theorem Sound.step (hs : s.Sound h) (hstep : s.Step s') : ∃ h', h.Extends h' ∧ s'.Sound h' := by
  cases hstep with
  | make es hes =>
    obtain ⟨h', hext, hnext, hnew⟩ := Context.exists_holds_ofEntries fun e he p hp =>
      hs.contexts p (hes e he p hp)
    rw [hs.next]
    rw [← hnext]
    exact ⟨h', hext, hs.extend hext hnew [] (by simp)⟩
  | @parent c p hc hp =>
    obtain ⟨e, he, hparent⟩ := Context.mem_parents.mp hp
    have hnew := (hs.contexts c hc).entries e he p hparent
    exact ⟨h, .refl h, hs.next, List.forall_mem_cons.mpr ⟨hnew, hs.contexts⟩, hs.caches⟩
  | merge root ha hb =>
    obtain ⟨h', hext, hm, hnew, -⟩ := hs.merged ha hb root none (by simp)
    rw [hm.next]
    exact ⟨h', hext, hs.extend hext hnew [] (by simp)⟩
  | openCache root =>
    exact ⟨h, .refl h, hs.next, hs.contexts, List.forall_mem_cons.mpr ⟨.empty, hs.caches⟩⟩
  | @mergeCached root cache cache' a b hcache ha hb hcache' =>
    obtain ⟨h', hext, hm, hnew, -⟩ := hs.merged ha hb root (some cache)
      (by rintro _ ⟨⟩; exact hcache)
    rw [hm.next]
    exact ⟨h', hext, hs.extend hext hnew [(root, cache')]
      (by simpa using hm.cache cache' hcache')⟩
  | lookUp hcache ha hb hc =>
    have hnew := ((hs.caches _ hcache).get? (hs.contexts _ ha) (hs.contexts _ hb) hc).1
    exact ⟨h, .refl h, hs.next, List.forall_mem_cons.mpr ⟨hnew, hs.contexts⟩, hs.caches⟩

/-- Every reached session is sound for some history. -/
theorem Reached.sound (hs : s.Reached) : ∃ h, s.Sound h := by
  induction hs with
  | start => exact ⟨.start, rfl, by simpa [Session.start] using .empty, by simp [Session.start]⟩
  | step _ hstep ih =>
    obtain ⟨h, hsound⟩ := ih
    obtain ⟨h', -, hsound'⟩ := hsound.step hstep
    exact ⟨h', hsound'⟩

end Session

/-! ## Two callers -/

namespace Context

/-- Either no caller, or one that returns to state 7 over an unknown rest. -/
def unsureCaller : Context := (ofEntries [⟨none, emptyReturn⟩, ⟨none, 7⟩] 1).1

/-- A caller that returns to state 7, and has no caller itself. -/
def soleCaller : Context := (ofEntries [⟨some empty, 7⟩] 2).1

/-- The unsure caller is well formed. -/
theorem wellFormed_unsureCaller : unsureCaller.WellFormed := by
  have hlast : EntriesWellFormed [⟨none, 7⟩] :=
    EntriesWellFormed.nil.cons (by simp) (by simp) (by simp) (by simp)
  exact wellFormed_iff.mpr (hlast.cons (by simp [emptyReturn]) (by simp) (by simp) (by simp))

/-- The sole caller is well formed. -/
theorem wellFormed_soleCaller : soleCaller.WellFormed := by
  refine wellFormed_iff.mpr (EntriesWellFormed.nil.cons (by simp) (by simp [emptyReturn]) (by simp)
    ?_)
  rintro _ ⟨⟩
  exact wellFormed_empty

end Context

namespace Session

/-- The session in which both have been made, with a cache for exact merges. -/
def callers : Session := ⟨[Context.soleCaller, Context.unsureCaller, Context.empty], [(.exact, ∅)], 3⟩

/-- The session of the two callers is reached by making them and opening a cache. -/
theorem reached_callers : callers.Reached := by
  have hunsure : Session.Reached ⟨[Context.unsureCaller, Context.empty], [], 2⟩ :=
    .step .start (.make [⟨none, Context.emptyReturn⟩, ⟨none, 7⟩] (by simp))
  have hsole : Session.Reached ⟨[Context.soleCaller, Context.unsureCaller, Context.empty], [], 3⟩ :=
    .step hunsure (.make [⟨some Context.empty, 7⟩] (by simp))
  exact .step hsole (.openCache .exact)

end Session

end TransitionNetwork
