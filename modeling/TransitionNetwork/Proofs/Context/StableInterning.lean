import Mathlib.Logic.Relation
import TransitionNetwork.Proofs.Context.Interning

/-!
# Interned forms are stable

However contexts come to be added alone and interned, and whichever maps of visited nodes are used
for it, the context that is given has the structure of the one that was passed, and the table finds
it for that structure from then on. So equal contexts are always given the same node. A map of
visited nodes saves work but changes no result, since what is noted for a node is what the table
finds for it.
-/

namespace TransitionNetwork

/-- The states differ at most in what is noted for visited nodes. -/
structure InternState.Alike (s t : InternState) : Prop where
  table : s.table = t.table
  next : s.next = t.next

namespace InternState.Alike

variable {s t u : InternState}

/-- States are alike in either order. -/
theorem symm (hst : s.Alike t) : t.Alike s := ⟨hst.table.symm, hst.next.symm⟩

/-- States that are like a third one are alike. -/
theorem trans (hst : s.Alike t) (htu : t.Alike u) : s.Alike u :=
  ⟨hst.table.trans htu.table, hst.next.trans htu.next⟩

end InternState.Alike

section

variable [NodeDigest]

/-! ## Visited nodes change nothing -/

variable {h h' : History} {s s' t : InternState} {table : ContextTable} {c d : Context}

/-- What stands for a context is found for it. -/
theorem Interned.find? (hd : Interned h table c d) (htable : table.HeldBy h) (hc : h.Holds c)
    (hempty : c.isEmpty = false) : table.find? c = some d := by
  have hdempty : d.isEmpty = false := by
    rw [← Context.isEmpty_skeleton, hd.skeleton, Context.isEmpty_skeleton, hempty]
  rw [htable.find?_congr hc hd.holds hd.skeleton.symm]
  exact hd.stores.resolve_left (by simp [hdempty])

/-- What is found stands for a context. -/
theorem ContextTable.HeldBy.interned (htable : table.HeldBy h) (hc : h.Holds c)
    (hfind : table.find? c = some d) : Interned h table c d := by
  obtain ⟨hheld, hskeleton⟩ := htable.of_find? hc hfind
  exact ⟨hheld, hskeleton, Or.inr (htable.find?_self hc hfind)⟩

/-- What is found is found in later states. -/
theorem InternState.Leads.find? (hleads : Leads h h' s s') (hs : s.Sound h) (hc : h.Holds c)
    (hempty : c.isEmpty = false) (hfind : s.table.find? c = some d) :
    s'.table.find? c = some d :=
  ((hs.table.interned hc hfind).mono hleads.later hleads.stores).find? hleads.sound.table
    (hc.mono hleads.later) hempty

/-- What is noted for a visited node is found for it. -/
theorem InternState.Sound.find?_of_visited (hs : s.Sound h) (hc : h.Holds c)
    (hempty : c.isEmpty = false) (hvisited : s.visited[c.identity]? = some d) :
    s.table.find? c = some d := by
  have hd := (hs.visited _ _ hvisited).2
  rw [hc.node_identity] at hd
  exact hd.find? hs.table hc hempty

namespace Context

/-- Interning gives what is found, and changes nothing but what is noted for visited nodes. -/
theorem intern_found (hs : s.Sound h) (hc : h.Holds c) (hempty : c.isEmpty = false)
    (hfind : s.table.find? c = some d) : (c.intern s).1 = d ∧ (c.intern s).2.Alike s := by
  cases hvisited : s.visited[c.identity]? with
  | none =>
    rw [intern_of_find? hempty hvisited hfind]
    exact ⟨rfl, rfl, rfl⟩
  | some e =>
    have heq : e = d :=
      Option.some.inj ((hs.find?_of_visited hc hempty hvisited).symm.trans hfind)
    cases c with
    | empty => cases hempty
    | node =>
      rw [intern]
      simp only [hvisited]
      exact ⟨heq, rfl, rfl⟩

/-- A node for which nothing is found is interned by way of its entries. -/
theorem intern_of_find?_eq_none (hs : s.Sound h) (hc : h.Holds c) (hempty : c.isEmpty = false)
    (hfind : s.table.find? c = none) :
    c.intern s = internNode c (internEntries c.entries s).1 (internEntries c.entries s).2.1
      (internEntries c.entries s).2.2 := by
  have hvisited : s.visited[c.identity]? = none :=
    Option.eq_none_iff_forall_ne_some.mpr fun e hvisited => by
      rw [hs.find?_of_visited hc hempty hvisited] at hfind
      cases hfind
  cases c with
  | empty => cases hempty
  | node =>
    rw [intern]
    simp only [hvisited, hfind, entries, internEntries]

/-- Interning gives the same in states that differ at most in what is noted. Each state has a
history of its own, since both runs make their nodes. -/
def InternsAlike (c : Context) : Prop :=
  ∀ {h h' : History} {s t : InternState}, s.Sound h → t.Sound h' → h.Holds c → h'.Holds c →
    s.Alike t → (c.intern s).1 = (c.intern t).1 ∧ (c.intern s).2.Alike (c.intern t).2

/-- From like states a node over interned entries is made alike. -/
theorem internNode_alike (hst : s.Alike t) (c : Context) (es : List (Entry Context))
    (changed : Bool) : (internNode c es changed s).1 = (internNode c es changed t).1 ∧
      (internNode c es changed s).2.Alike (internNode c es changed t).2 := by
  obtain ⟨htable, hnext⟩ := hst
  cases changed <;> simp only [internNode, htable, hnext] <;> exact ⟨rfl, rfl, rfl⟩

/-- From like states an entry is interned alike if its parent is. -/
theorem internEntry_alike {e : Entry Context} (hparent : ∀ p ∈ e.parent, InternsAlike p)
    (hs : s.Sound h) (ht : t.Sound h') (he : h.HoldsParent e.parent)
    (he' : h'.HoldsParent e.parent) (hst : s.Alike t) :
    (internEntry e s).1 = (internEntry e t).1 ∧ (internEntry e s).2.1 = (internEntry e t).2.1 ∧
      (internEntry e s).2.2.Alike (internEntry e t).2.2 := by
  rcases e with ⟨_ | p, r⟩
  · rw [internEntry, internEntry]
    exact ⟨rfl, rfl, hst⟩
  · obtain ⟨hsame, halike⟩ := hparent p rfl hs ht (he p rfl) (he' p rfl) hst
    rw [internEntry, internEntry]
    simp only [hsame, true_and]
    exact halike

/-- From like states entries are interned alike if their parents are. -/
theorem internEntries_alike {es : List (Entry Context)}
    (hparents : ∀ e ∈ es, ∀ p ∈ e.parent, InternsAlike p) (hs : s.Sound h) (ht : t.Sound h')
    (hes : h.HoldsEntries es) (hes' : h'.HoldsEntries es) (hst : s.Alike t) :
    (internEntries es s).1 = (internEntries es t).1 ∧
      (internEntries es s).2.1 = (internEntries es t).2.1 ∧
      (internEntries es s).2.2.Alike (internEntries es t).2.2 := by
  induction es generalizing h h' s t with
  | nil =>
    rw [internEntries, internEntries]
    exact ⟨rfl, rfl, hst⟩
  | cons e rest ih =>
    obtain ⟨he, hrest⟩ := List.forall_mem_cons.mp hes
    obtain ⟨he', hrest'⟩ := List.forall_mem_cons.mp hes'
    obtain ⟨hparent, hparents⟩ := List.forall_mem_cons.mp hparents
    obtain ⟨hsame, hchanged, halike⟩ := internEntry_alike hparent hs ht he he' hst
    obtain ⟨g, hleads, -⟩ := internedEntries_internEntry (fun p _ => interns p) hs he
    obtain ⟨g', hleads', -⟩ := internedEntries_internEntry (fun p _ => interns p) ht he'
    obtain ⟨hsame', hchanged', halike'⟩ := ih hparents hleads.sound hleads'.sound
      (History.HoldsEntries.mono hrest hleads.later)
      (History.HoldsEntries.mono hrest' hleads'.later) halike
    rw [internEntries, internEntries]
    simp only [hsame, hsame', hchanged, hchanged', true_and]
    exact halike'

/-- What has been noted for visited nodes changes neither the interned form of a context nor what
becomes of the table. -/
theorem internsAlike (c : Context) : c.InternsAlike := by
  induction c using induct with
  | empty =>
    intro h h' s t _ _ _ _ hst
    rw [intern, intern]
    exact ⟨rfl, hst⟩
  | node id digest first rest ih =>
    intro h h' s t hs ht hc hc' hst
    have hempty : (node id digest first rest).isEmpty = false := isEmpty_node ..
    cases hfind : s.table.find? (node id digest first rest) with
    | some d =>
      obtain ⟨hsame, halike⟩ := intern_found hs hc hempty hfind
      obtain ⟨hsame', halike'⟩ := intern_found ht hc' hempty (hst.table ▸ hfind)
      exact ⟨hsame.trans hsame'.symm, (halike.trans hst).trans halike'.symm⟩
    | none =>
      have hfind' : t.table.find? (node id digest first rest) = none := hst.table ▸ hfind
      obtain ⟨hsame, hchanged, halike⟩ := internEntries_alike ih hs ht hc.entries hc'.entries hst
      rw [intern_of_find?_eq_none hs hc hempty hfind, intern_of_find?_eq_none ht hc' hempty hfind',
        entries, hsame, hchanged]
      exact internNode_alike halike _ _ _

end Context

/-! ## Sessions -/

namespace InterningSession

variable {mayAdd : ContextTable → Context → Prop} {s s' s'' : InterningSession} {c d result : Context}

/-- A context is added alone or interned: what is given for it, and the session after that. -/
inductive Call (s : InterningSession) (c : Context) : Context → InterningSession → Prop
  | add : s.Call c (c.addTo s.table).1
      { s.receive (c.addTo s.table).1 with table := (c.addTo s.table).2 }
  | intern {visited : VisitedNodes} (hvisited : visited ∈ s.visited) :
      s.Call c (c.intern (s.internState visited)).1 {
        session := { s.session with
          contexts := (c.intern (s.internState visited)).1 :: s.session.contexts
          next := (c.intern (s.internState visited)).2.next }
        table := (c.intern (s.internState visited)).2.table
        visited := (c.intern (s.internState visited)).2.visited :: s.visited }

/-- Sessions to which a program may come from another one if it may add any context alone. -/
def Later : InterningSession → InterningSession → Prop :=
  Relation.ReflTransGen (Step fun _ _ => True)

/-- A call for a context at hand is a step of a program. -/
theorem Call.step (hcall : s.Call c result s') (hc : c ∈ s.session.contexts) :
    Step (fun _ _ => True) s s' := by
  cases hcall with
  | add => exact .add hc trivial
  | intern hvisited => exact .intern hc hvisited

/-- What is given for a context stands for it in the table after the call. -/
theorem Call.interned (hcall : s.Call c result s') (hs : s.Sound h) (hc : h.Holds c) :
    ∃ h', h.Extends h' ∧ s'.table.HeldBy h' ∧ Interned h' s'.table c result := by
  cases hcall with
  | add =>
    obtain ⟨hheld, hskeleton, htable⟩ := hs.table.addTo hc
    exact ⟨h, .refl h, htable, hheld, hskeleton, hs.table.stores_addTo hc⟩
  | intern hvisited =>
    obtain ⟨h', hleads, hinterned⟩ := c.interns (hs.internState hvisited) hc
    exact ⟨h', hleads.later, hleads.sound.table, hinterned⟩

/-- If something is found for a context, then this is given. -/
theorem Call.eq_of_find? (hcall : s.Call c result s') (hs : s.Sound h) (hc : h.Holds c)
    (hempty : c.isEmpty = false) (hfind : s.table.find? c = some d) : result = d := by
  cases hcall with
  | add => simp [Context.addTo, hempty, ContextTable.intern, hfind]
  | intern hvisited => exact (Context.intern_found (hs.internState hvisited) hc hempty hfind).1

/-- No context is lost, what is found is found again, and the table stays well kept. -/
structure Keeps (s s' : InterningSession) : Prop where
  contexts : s.session.contexts ⊆ s'.session.contexts
  finds : ∀ c ∈ s.session.contexts, c.isEmpty = false → ∀ d, s.table.find? c = some d →
    s'.table.find? c = some d
  wellKept : s.table.WellKept → s'.table.WellKept

/-- A session keeps what it has. -/
theorem Keeps.refl (s : InterningSession) : s.Keeps s :=
  ⟨List.Subset.refl _, fun _ _ _ _ hfind => hfind, id⟩

/-- What is kept from one session to the next is kept to the one behind it. -/
theorem Keeps.trans (hfirst : s.Keeps s') (hsecond : s'.Keeps s'') : s.Keeps s'' where
  contexts := List.Subset.trans hfirst.contexts hsecond.contexts
  finds c hc hempty d hfind :=
    hsecond.finds c (hfirst.contexts hc) hempty d (hfirst.finds c hc hempty d hfind)
  wellKept hkept := hsecond.wellKept (hfirst.wellKept hkept)

/-- Every step of a program keeps what it has. -/
theorem Step.keeps (hstep : Step mayAdd s s') (hs : s.Sound h) : s.Keeps s' := by
  cases hstep with
  | work hstep => exact ⟨hstep.subset.1, fun _ _ _ _ hfind => hfind, id⟩
  | openVisited => exact ⟨List.Subset.refl _, fun _ _ _ _ hfind => hfind, id⟩
  | lookUp => exact ⟨List.subset_cons_self _ _, fun _ _ _ _ hfind => hfind, id⟩
  | @add c hc =>
    have hc' := hs.session.contexts c hc
    refine ⟨List.subset_cons_self _ _, fun d hd hempty e hfind => ?_, fun hkept =>
      hkept.addTo hs.table hc'⟩
    have hd' := hs.session.contexts d hd
    have hinterned := hs.table.interned hd' hfind
    obtain ⟨-, -, htable⟩ := hs.table.addTo hc'
    exact (hinterned.mono (.refl h) fun _ hstores =>
      hs.table.stores_of_stores hc' hstores).find? htable hd' hempty
  | @intern c visited hc hvisited =>
    have hsound := hs.internState hvisited
    obtain ⟨h', hleads, -⟩ := c.interns hsound (hs.session.contexts c hc)
    exact ⟨List.subset_cons_self _ _, fun d hd hempty e hfind =>
      hleads.find? hsound (hs.session.contexts d hd) hempty hfind, hleads.wellKept⟩

/-- Later sessions are reached too and keep what was there. -/
theorem Reached.later (hs : s.Reached fun _ _ => True) (hlater : s.Later s') :
    s'.Reached (fun _ _ => True) ∧ s.Keeps s' := by
  induction hlater with
  | refl => exact ⟨hs, .refl s⟩
  | tail _ hstep ih =>
    obtain ⟨h, hsound, -⟩ := ih.1.sound
    exact ⟨.step ih.1 hstep, ih.2.trans (hstep.keeps hsound)⟩

/-- The table of a reached session is well kept. -/
theorem Reached.wellKept (hs : s.Reached mayAdd) : s.table.WellKept := by
  induction hs with
  | start => exact ContextTable.wellKept_empty
  | step hs hstep ih =>
    obtain ⟨h, hsound, -⟩ := hs.sound
    exact (hstep.keeps hsound).wellKept ih

/-! ## What is given -/

variable {later last : InterningSession} {again : Context}

/-- For the empty context the empty context is given. -/
theorem Call.eq_empty (hcall : s.Call Context.empty result s') : result = Context.empty := by
  cases hcall with
  | add => rfl
  | intern => rw [Context.intern]

/-- After a call the context is still there, and so it is later. -/
theorem Call.mem_later (hcall : s.Call c result s') (hs : s.Reached fun _ _ => True)
    (hc : c ∈ s.session.contexts) (hlater : s'.Later later) :
    later.Reached (fun _ _ => True) ∧ c ∈ later.session.contexts := by
  obtain ⟨h, hsound, -⟩ := hs.sound
  have hstep := hcall.step hc
  obtain ⟨hreached, hkeeps⟩ := Reached.later (.step hs hstep) hlater
  exact ⟨hreached, hkeeps.contexts ((hstep.keeps hsound).contexts hc)⟩

/-- What is given for a context is found for it from then on. -/
theorem Call.find?_later (hcall : s.Call c result s') (hs : s.Reached fun _ _ => True)
    (hc : c ∈ s.session.contexts) (hempty : c.isEmpty = false) (hlater : s'.Later later) :
    later.table.find? c = some result := by
  obtain ⟨h, hsound, -⟩ := hs.sound
  have hc' := hsound.session.contexts c hc
  obtain ⟨h', hext, htable, hinterned⟩ := hcall.interned hsound hc'
  have hfind := hinterned.find? htable (hc'.mono hext) hempty
  obtain ⟨hreached, hmem⟩ := hcall.mem_later hs hc .refl
  exact (hreached.later hlater).2.finds c hmem hempty result hfind

/-- What is given for an equal context later is what was given first. -/
theorem Call.eq_of_later (hcall : s.Call c result s') (hs : s.Reached fun _ _ => True)
    (hc : c ∈ s.session.contexts) (hlater : s'.Later later) (hd : d ∈ later.session.contexts)
    (hequal : (d == c) = true) (hcall' : later.Call d again last) : again = result := by
  obtain ⟨hreached, hc'⟩ := hcall.mem_later hs hc hlater
  obtain ⟨h, hsound, -⟩ := hreached.sound
  have hheld := hsound.session.contexts d hd
  have hheld' := hsound.session.contexts c hc'
  have hsame : d.skeleton = c.skeleton := (Context.beq_iff hheld hheld').mp hequal
  have hempties : d.isEmpty = c.isEmpty := by
    rw [← Context.isEmpty_skeleton, hsame, Context.isEmpty_skeleton]
  cases hempty : c.isEmpty with
  | true =>
    obtain rfl := Context.isEmpty_iff.mp hempty
    obtain rfl := Context.isEmpty_iff.mp (hempties.trans hempty)
    rw [hcall.eq_empty, hcall'.eq_empty]
  | false =>
    have hfind := hcall.find?_later hs hc hempty hlater
    rw [← hsound.table.find?_congr hheld hheld' hsame] at hfind
    exact hcall'.eq_of_find? hsound hheld (hempties.trans hempty) hfind

/-- What a program can rely on that adds contexts alone and interns them. -/
structure Stable (s : InterningSession) : Prop where
  /-- The context that is given for another one is equal to it. -/
  equal : ∀ c ∈ s.session.contexts, ∀ result s', s.Call c result s' → (result == c) = true
  /-- It is found for that one from then on. -/
  found : ∀ c ∈ s.session.contexts, c.isEmpty = false → ∀ result s' later, s.Call c result s' →
    s'.Later later → later.table.find? c = some result
  /-- It is given for every equal context later. -/
  same : ∀ c ∈ s.session.contexts, ∀ result s' later, s.Call c result s' → s'.Later later →
    ∀ d ∈ later.session.contexts, (d == c) = true → ∀ again last, later.Call d again last →
      again = result
  /-- Interning gives what it would give if no node had been visited. -/
  visited : ∀ c ∈ s.session.contexts, ∀ visited ∈ s.visited,
    (c.intern (s.internState visited)).1 = (c.intern (s.internState ∅)).1
  /-- The empty context is not stored. -/
  empty : (∀ c ∈ s.table.members, c.isEmpty = false) ∧ s.table.find? Context.empty = none
  /-- The members are what is found for themselves. -/
  members : ∀ c, c ∈ s.table.members ↔ s.table.find? c = some c
  /-- No two members are equal. -/
  distinct : s.table.members.Pairwise fun c d => (c == d) = false
  /-- The members are counted. -/
  size : s.table.size = s.table.members.length

/-- However contexts have been added alone and interned, with whichever maps of visited nodes that
serve this table only, the table and what is given for contexts are stable. -/
theorem stable_of_reached (hs : s.Reached fun _ _ => True) : s.Stable := by
  obtain ⟨h, hsound, -⟩ := hs.sound
  have hkept := hs.wellKept
  have hmembers : ∀ c ∈ s.table.members, h.Holds c := fun c hc => by
    obtain ⟨digest, hbucket⟩ := ContextTable.mem_members.mp hc
    exact hsound.table digest c hbucket
  exact {
    equal := fun c hc result s' hcall => by
      have hc' := hsound.session.contexts c hc
      obtain ⟨h', hext, -, hinterned⟩ := hcall.interned hsound hc'
      exact (Context.beq_iff hinterned.holds (hc'.mono hext)).mpr hinterned.skeleton
    found := fun c hc hempty result s' later hcall hlater => hcall.find?_later hs hc hempty hlater
    same := fun c hc result s' later hcall hlater d hd hequal again last hcall' =>
      hcall.eq_of_later hs hc hlater hd hequal hcall'
    visited := fun c hc visited hvisited => by
      have hunvisited : (s.internState ∅).Sound h :=
        ⟨hsound.session.next, hsound.table, VisitedNodes.sound_empty⟩
      have hc' := hsound.session.contexts c hc
      exact (c.internsAlike (hsound.internState hvisited) hunvisited hc' hc' ⟨rfl, rfl⟩).1
    empty := ⟨hkept.nonempty, hkept.find?_empty hsound.table⟩
    members := fun c => ⟨fun hc => hkept.find? hsound.table (hmembers c hc) hc rfl,
      ContextTable.mem_members_of_find?⟩
    distinct := (List.pairwise_map.mp hkept.distinct).imp_of_mem fun {c d} hc hd hne => by
      rw [Bool.eq_false_iff, ne_eq, Context.beq_iff (hmembers c hc) (hmembers d hd)]
      exact hne
    size := hkept.size }

end InterningSession

end

/-! ## Two nodes of one structure -/

/-- Another caller that returns to state 6 and is called by the one that returns to state 7. -/
def Context.innerCallerAgain : Context := (ofEntries [⟨some soleCaller, 6⟩] 4).1

namespace InterningSession

/-- The session in which the chain of callers has been made twice over the outer one. -/
def chainedTwice : InterningSession :=
  { chained with session := ⟨Context.innerCallerAgain :: chained.session.contexts,
      chained.session.caches, 5⟩ }

/-- The session of the second chain is reached by making the inner caller again. -/
theorem reached_chainedTwice (mayAdd : ContextTable → Context → Prop) :
    chainedTwice.Reached mayAdd :=
  .step (reached_chained mayAdd)
    (.work (.make [⟨some Context.soleCaller, 6⟩] (by simp [chained, Session.callers])))

/-- Once one of the two nodes has been interned, adding the other one gives what it gave. -/
theorem stable_chainedTwice :
    let first := Context.innerCaller.intern (chainedTwice.internState ∅)
    (first.1 == Context.innerCaller) = true ∧
      first.2.table.find? Context.innerCaller = some first.1 ∧
      (Context.innerCallerAgain.addTo first.2.table).1 = first.1 := by
  have hstable := stable_of_reached (reached_chainedTwice fun _ _ => True)
  have hinner : Context.innerCaller ∈ chainedTwice.session.contexts := by
    simp [chainedTwice, chained]
  have hcall : chainedTwice.Call Context.innerCaller
      (Context.innerCaller.intern (chainedTwice.internState ∅)).1 _ :=
    .intern (List.mem_singleton_self ∅)
  have hequal : (Context.innerCallerAgain == Context.innerCaller) = true := by
    change Context.beq Context.innerCallerAgain Context.innerCaller = true
    simp [Context.innerCallerAgain, Context.innerCaller, Context.soleCaller, Context.ofEntries,
      Context.singleton, Context.beq, Context.beqEntry, Context.beqEntries]
  have hagain : Context.innerCallerAgain ∈ chainedTwice.session.contexts := List.mem_cons_self
  exact ⟨hstable.equal _ hinner _ _ hcall, hstable.found _ hinner rfl _ _ _ hcall .refl,
    hstable.same _ hinner _ _ _ hcall .refl _ (List.mem_cons_of_mem _ hagain) hequal _ _ .add⟩

end InterningSession

end TransitionNetwork
