import Mathlib.Logic.Relation
import TransitionNetwork.Proofs.Context.SettledPairs

/-!
# Repeated merges

Merges under one reading that share a cache give one node for a pair of contexts that differ in
structure: after the first merge of the pair every later one gives the node again, in either order,
whatever has been made and merged since. For a merge settles its pair, and every later step of the
session leaves it settled.
-/

namespace TransitionNetwork

/-- A session in which merges share a cache. -/
structure Sharing where
  session : Session
  cache : MergeCache

namespace Sharing

/-- The state in which the next merge with the shared cache begins. -/
def state (t : Sharing) : MergeState := ⟨t.session.next, some t.cache⟩

section

variable [NodeDigest]

/-- Merge two contexts with the shared cache. -/
def merge (t : Sharing) (root : RootReading) (a b : Context) : Context × Sharing :=
  let (c, m) := Context.merge root a b t.state
  let cache := m.cache.getD t.cache
  (c, { session := ⟨c :: t.session.contexts, (root, cache) :: t.session.caches, m.next⟩, cache })

/-- What may happen next: a merge with the shared cache, or anything else that a program does with
contexts and other caches. -/
inductive Step (root : RootReading) (t : Sharing) : Sharing → Prop
  | merge {a b : Context} (ha : a ∈ t.session.contexts) (hb : b ∈ t.session.contexts) :
      Step root t (t.merge root a b).2
  | other {s' : Session} (hstep : t.session.Step s') : Step root t ⟨s', t.cache⟩

/-- A program may come to the session, and the shared cache comes from an empty one by merges under
the reading. -/
structure Reached (root : RootReading) (t : Sharing) : Prop where
  session : t.session.Reached
  cache : (root, t.cache) ∈ t.session.caches

variable {root : RootReading} {t t' : Sharing} {a b c : Context}

/-- Merges begin in a sound state with a one-way cache. -/
theorem Reached.caching (ht : t.Reached root) {h : History} (hsound : t.session.Sound h) :
    Context.Caching root h t.state where
  toSound := hsound.mergeState (by rintro _ ⟨⟩; exact ht.cache)
  oneWay := by
    rintro _ ⟨⟩
    exact ht.session.oneWay _ ht.cache
  isSome := rfl

/-- The next merge begins where the last one ended. -/
theorem state_merge (ht : t.Reached root) (ha : a ∈ t.session.contexts)
    (hb : b ∈ t.session.contexts) :
    (t.merge root a b).2.state = (Context.merge root a b t.state).2 := by
  obtain ⟨h, hsound⟩ := ht.session.sound
  have hfills := Context.fillsUpTo_merge root (hsound.contexts a ha) (hsound.contexts b hb) t.state
  obtain ⟨cache, hcache⟩ := Option.isSome_iff_exists.mp hfills.isSome
  change MergeState.mk (Context.merge root a b t.state).2.next
    (some ((Context.merge root a b t.state).2.cache.getD t.cache)) = _
  rw [hcache, Option.getD_some, ← hcache]

/-- A merge with the shared cache is a step of the session. -/
theorem Reached.step_merge (ht : t.Reached root) (ha : a ∈ t.session.contexts)
    (hb : b ∈ t.session.contexts) : t.session.Step (t.merge root a b).2.session := by
  have hcache := congrArg MergeState.cache (state_merge ht ha hb)
  exact .mergeCached ht.cache ha hb hcache.symm

/-- One step leads from a reached state to a reached one and loses no context. -/
theorem Reached.step (ht : t.Reached root) (hstep : Step root t t') :
    t'.Reached root ∧ t.session.contexts ⊆ t'.session.contexts := by
  cases hstep with
  | merge ha hb =>
    have hstep := ht.step_merge ha hb
    exact ⟨⟨.step ht.session hstep, List.mem_cons_self⟩, hstep.subset.1⟩
  | other hstep => exact ⟨⟨.step ht.session hstep, hstep.subset.2 ht.cache⟩, hstep.subset.1⟩

/-- Both contexts are there, and their merge with the shared cache is settled. -/
structure Settles (root : RootReading) (a b c : Context) (t : Sharing) : Prop where
  reached : t.Reached root
  left : a ∈ t.session.contexts
  right : b ∈ t.session.contexts
  settled : Context.Settled root t.state.known? a b c

/-- A step leaves a settled pair settled. -/
theorem Settles.step (ht : Settles root a b c t) (hstep : Step root t t') :
    Settles root a b c t' := by
  obtain ⟨hreached, hsubset⟩ := ht.reached.step hstep
  refine ⟨hreached, hsubset ht.left, hsubset ht.right, ?_⟩
  cases hstep with
  | merge hx hy =>
    obtain ⟨h, hsound⟩ := ht.reached.session.sound
    have hsettles := Context.settles_merge (hsound.contexts _ hx) (hsound.contexts _ hy)
      (ht.reached.caching hsound)
    rw [state_merge ht.reached hx hy]
    exact hsettles.keeps a b c (hsound.contexts a ht.left) (hsound.contexts b ht.right) ht.settled
  | other => exact ht.settled

/-- A merge of contexts that differ in structure settles them. -/
theorem settles_merge (ht : t.Reached root) (ha : a ∈ t.session.contexts)
    (hb : b ∈ t.session.contexts) (hne : (a == b) = false) :
    Settles root a b (t.merge root a b).1 (t.merge root a b).2 := by
  obtain ⟨hreached, hsubset⟩ := ht.step (.merge ha hb)
  obtain ⟨h, hsound⟩ := ht.session.sound
  have hsettles := Context.settles_merge (hsound.contexts a ha) (hsound.contexts b hb)
    (ht.caching hsound)
  refine ⟨hreached, hsubset ha, hsubset hb, ?_⟩
  rw [state_merge ht ha hb]
  exact hsettles.settled fun hsame => by rw [hne] at hsame; cases hsame

/-- Merging a settled pair in either order gives its result. -/
theorem Settles.merge_eq (ht : Settles root a b c t) :
    (t.merge root a b).1 = c ∧ (t.merge root b a).1 = c := by
  obtain ⟨h, hsound⟩ := ht.reached.session.sound
  have ha := hsound.contexts a ht.left
  have hb := hsound.contexts b ht.right
  have hcaching := ht.reached.caching hsound
  have hswap := ht.settled.symm (MergeState.known?_comm hcaching.oneWay) ha hb
  exact ⟨congrArg Prod.fst (ht.settled.merge_eq ha hb), congrArg Prod.fst (hswap.merge_eq hb ha)⟩

/-- Once two contexts of different structure have been merged with a cache, every later merge of
them under the same reading with that cache gives the very same node, in either order, whatever has
been made and merged in between. -/
theorem merge_repeated (ht : t.Reached root) (ha : a ∈ t.session.contexts)
    (hb : b ∈ t.session.contexts) (hne : (a == b) = false)
    (hlater : Relation.ReflTransGen (Step root) (t.merge root a b).2 t') :
    (t'.merge root a b).1 = (t.merge root a b).1 ∧
      (t'.merge root b a).1 = (t.merge root a b).1 := by
  have hsettled : Settles root a b (t.merge root a b).1 t' := by
    induction hlater with
    | refl => exact settles_merge ht ha hb hne
    | tail _ hstep ih => exact ih.step hstep
  exact hsettled.merge_eq

end

/-! ## Three callers -/

/-- A caller that returns to state 7 over an unknown rest. -/
def unknownCaller : Context := (Context.ofEntries [⟨none, 7⟩] 3).1

/-- The session of two callers with a third one, and the cache for exact merges. -/
def callers : Sharing where
  session := ⟨unknownCaller :: Session.callers.contexts, [(.exact, ∅)], 4⟩
  cache := ∅

/-- The callers are those of a session that is reached, which has opened the cache. -/
theorem reached_callers : callers.Reached .exact where
  session := by
    have hstep : Session.callers.Step callers.session := .make [⟨none, 7⟩] (by simp)
    exact .step Session.reached_callers hstep
  cache := List.mem_singleton_self _

/-- The merge of the callers that return to one state gives one of them and keeps nothing; a merge
with another caller in between changes nothing in that. -/
theorem merge_repeated_callers :
    let first := callers.merge .exact Context.soleCaller unknownCaller
    let later := first.2.merge .exact Context.unsureCaller Context.soleCaller
    (later.2.merge .exact Context.soleCaller unknownCaller).1 = first.1 ∧
      (later.2.merge .exact unknownCaller Context.soleCaller).1 = first.1 := by
  have hsole : Context.soleCaller ∈ callers.session.contexts := by simp [callers, Session.callers]
  have hunknown : unknownCaller ∈ callers.session.contexts := List.mem_cons_self
  have hunsure : Context.unsureCaller ∈ callers.session.contexts := by
    simp [callers, Session.callers]
  have hne : (Context.soleCaller == unknownCaller) = false := by
    change Context.beq Context.soleCaller unknownCaller = false
    simp [Context.soleCaller, unknownCaller, Context.ofEntries, Context.singleton, Context.beq,
      Context.beqEntry, Context.emptyReturn]
  exact merge_repeated reached_callers hsole hunknown hne
    (.single (.merge (List.mem_cons_of_mem _ hunsure) (List.mem_cons_of_mem _ hsole)))

end Sharing

end TransitionNetwork
