import TransitionNetwork.Proofs.Context.Members
import TransitionNetwork.Proofs.Context.Sessions

/-!
# What interning gives

Interning a context gives one of the same structure that is stored in the table. A context becomes
a member only after its parents have been interned, so if the parents of stored contexts are
stored before, they are so afterwards, and every node that can be reached from the result is
stored.

Adding a context alone is different. Its parents need not be stored, and interning stops at a
context that has an equal member, so it never comes to them.
-/

namespace TransitionNetwork

section

variable [NodeDigest]

/-! ## States of interning -/

/-- A context of the history that stands for another one in the table. -/
structure Interned (h : History) (table : ContextTable) (c interned : Context) : Prop where
  holds : h.Holds interned
  skeleton : interned.skeleton = c.skeleton
  stores : table.Stores interned

/-- What is noted for a visited node stands for it in the table. -/
def VisitedNodes.Sound (h : History) (table : ContextTable) (visited : VisitedNodes) : Prop :=
  ∀ i c, visited[i]? = some c → i < h.next ∧ Interned h table (h.node i) c

/-- The free identity, the table and the visited nodes fit the history. -/
structure InternState.Sound (h : History) (s : InternState) : Prop where
  next : s.next = h.next
  table : s.table.HeldBy h
  visited : VisitedNodes.Sound h s.table s.visited

/-- From one state of interning to a later one. What was stored is stored, the parents of stored
contexts are so if they were before, and the table is as well kept as it was. -/
structure InternState.Leads (h h' : History) (s s' : InternState) : Prop where
  later : h.Extends h'
  sound : s'.Sound h'
  stores : ∀ c, s.table.Stores c → s'.table.Stores c
  closed : s.table.Closed → s'.table.Closed
  wellKept : s.table.WellKept → s'.table.WellKept

variable {h h' h'' : History} {s s' s'' : InternState} {table table' : ContextTable}
  {c d : Context}

/-- What stands for a context stands for it as the history goes on and the table grows. -/
theorem Interned.mono (hd : Interned h table c d) (hext : h.Extends h')
    (hstores : ∀ c, table.Stores c → table'.Stores c) : Interned h' table' c d :=
  ⟨hd.holds.mono hext, hd.skeleton, hstores d hd.stores⟩

/-- What is noted for visited nodes goes on to stand for them. -/
theorem VisitedNodes.Sound.mono {visited : VisitedNodes}
    (hvisited : VisitedNodes.Sound h table visited) (hext : h.Extends h')
    (hstores : ∀ c, table.Stores c → table'.Stores c) : VisitedNodes.Sound h' table' visited := by
  intro i c hc
  obtain ⟨hi, hinterned⟩ := hvisited i c hc
  rw [hext.node i hi]
  exact ⟨Nat.lt_of_lt_of_le hi hext.next, hinterned.mono hext hstores⟩

/-- A new map notes nothing that would have to stand for a node. -/
theorem VisitedNodes.sound_empty : VisitedNodes.Sound h table ∅ := fun i c hc => by
  simp at hc

/-- The members of a table belong to every later history. -/
theorem ContextTable.HeldBy.mono (htable : table.HeldBy h) (hext : h.Extends h') :
    table.HeldBy h' := fun digest c hc => (htable digest c hc).mono hext

namespace InternState

/-- A sound state leads to itself. -/
theorem Leads.refl (hs : s.Sound h) : Leads h h s s := ⟨.refl h, hs, fun _ hc => hc, id, id⟩

/-- A state leads to what is led to from where it leads. -/
theorem Leads.trans (hfirst : Leads h h' s s') (hsecond : Leads h' h'' s' s'') :
    Leads h h'' s s'' where
  later := hfirst.later.trans hsecond.later
  sound := hsecond.sound
  stores c hc := hsecond.stores c (hfirst.stores c hc)
  closed hclosed := hsecond.closed (hfirst.closed hclosed)
  wellKept hkept := hsecond.wellKept (hfirst.wellKept hkept)

/-- Noting a stored context of the same structure for a node. -/
theorem Sound.leads_visit (hs : s.Sound h) (hc : h.Holds c) (hd : Interned h s.table c d) :
    Leads h h s (s.visit c d) where
  later := .refl h
  sound := by
    refine ⟨hs.next, hs.table, fun i e he => ?_⟩
    rw [InternState.visit, Std.HashMap.getElem?_insert] at he
    split at he
    next hi =>
      cases he
      obtain rfl := beq_iff_eq.mp hi
      rw [hc.node_identity]
      exact ⟨hc.identity_lt, hd⟩
    · exact hs.visited i e he
  stores _ hc := hc
  closed := id
  wellKept := id

/-- Making a node over contexts of the history. -/
theorem Sound.leads_ofEntries (hs : s.Sound h) {es : List (Entry Context)}
    (hes : h.HoldsEntries es) :
    ∃ h', Leads h h' s { s with next := (Context.ofEntries es s.next).2 } ∧
      h'.Holds (Context.ofEntries es s.next).1 := by
  obtain ⟨h', hext, hnext, hheld⟩ := Context.exists_holds_ofEntries hes
  rw [hs.next]
  exact ⟨h', ⟨hext, ⟨hnext.symm, hs.table.mono hext, hs.visited.mono hext fun _ hc => hc⟩,
    fun _ hc => hc, id, id⟩, hheld⟩

/-- Adding a context whose parents are stored. -/
theorem Sound.leads_addTo (hs : s.Sound h) (hc : h.Holds c) (hparents : s.table.StoresParents c) :
    Leads h h s { s with table := (c.addTo s.table).2 } ∧
      Interned h (c.addTo s.table).2 c (c.addTo s.table).1 := by
  obtain ⟨hheld, hskeleton, htable⟩ := hs.table.addTo hc
  have hstores : ∀ d, s.table.Stores d → (c.addTo s.table).2.Stores d :=
    fun d hd => hs.table.stores_of_stores hc hd
  exact ⟨⟨.refl h, ⟨hs.next, htable, hs.visited.mono (.refl h) hstores⟩, hstores,
    fun hclosed => hclosed.addTo hs.table hc (Or.inr hparents),
    fun hkept => hkept.addTo hs.table hc⟩, ⟨hheld, hskeleton, hs.table.stores_addTo hc⟩⟩

end InternState

/-! ## Interning -/

namespace Context

open InternState (Leads)

/-- The result stands for a context in a table that was led to. -/
def InternsTo (h : History) (s : InternState) (c : Context) (result : Context × InternState) :
    Prop :=
  ∃ h', Leads h h' s result.2 ∧ Interned h' result.2.table c result.1

/-- Entries over contexts that stand for the parents of others, and are the others themselves if
nothing changed. -/
structure InternedEntries (h : History) (table : ContextTable) (es interned : List (Entry Context))
    (changed : Bool) : Prop where
  holds : h.HoldsEntries interned
  skeleton : interned.map entrySkeleton = es.map entrySkeleton
  stores : ∀ e ∈ interned, ∀ p ∈ e.parent, table.Stores p
  same : changed = false → interned = es

/-- Interning may begin in a state that was led to. -/
theorem InternsTo.of_leads {result : Context × InternState} (hleads : Leads h h' s s')
    (hinterns : InternsTo h' s' c result) : InternsTo h s c result := by
  obtain ⟨h'', hleads', hinterned⟩ := hinterns
  exact ⟨h'', hleads.trans hleads', hinterned⟩

omit [NodeDigest] in
/-- Entries with the skeletons of the entry of the empty stack are that entry. -/
theorem eq_bottom_of_skeleton {es : List (Entry Context)}
    (hsame : es.map entrySkeleton = [⟨none, emptyReturn⟩].map entrySkeleton) :
    es = [⟨none, emptyReturn⟩] := by
  obtain ⟨⟨_ | p, r⟩, rfl, he⟩ := List.map_eq_singleton_iff.mp hsame
  · simpa [entrySkeleton] using he
  · simp [entrySkeleton] at he

omit [NodeDigest] in
/-- Contexts that are not empty are determined by their entries, apart from identities and
digests. -/
theorem skeleton_eq_of_entries (hc : c.isEmpty = false) (hd : d.isEmpty = false)
    (hsame : c.entries.map entrySkeleton = d.entries.map entrySkeleton) :
    c.skeleton = d.skeleton := by
  cases c with
  | empty => cases hc
  | node =>
    cases d with
    | empty => cases hd
    | node => simpa [skeleton, entries, entriesSkeleton_eq] using hsame

/-- The last step for a node: it is added, or a node over its interned parents is. -/
theorem internsTo_internNode (hs : s.Sound h) (hc : h.Holds c) (hempty : c.isEmpty = false)
    {es : List (Entry Context)} {changed : Bool}
    (hes : InternedEntries h s.table c.entries es changed) :
    InternsTo h s c (internNode c es changed s) := by
  cases changed with
  | false =>
    obtain rfl := hes.same rfl
    have hparents : s.table.StoresParents c := fun p hp => by
      obtain ⟨e, he, hparent⟩ := mem_parents.mp hp
      exact hes.stores e he p hparent
    obtain ⟨hleads, hinterned⟩ := hs.leads_addTo hc hparents
    exact ⟨h, hleads.trans (hleads.sound.leads_visit hc hinterned), hinterned⟩
  | true =>
    obtain ⟨h', hleads, hheld⟩ := hs.leads_ofEntries hes.holds
    have hne : es ≠ [] := by
      rintro rfl
      exact c.entries_ne_nil (List.map_eq_nil_iff.mp hes.skeleton.symm)
    have hentries : (ofEntries es s.next).1.entries = es := entries_ofEntries hne s.next
    have hrebuilt : (ofEntries es s.next).1.isEmpty = false := by
      refine Bool.eq_false_iff.mpr fun hbottom => ?_
      rw [(isEmpty_ofEntries hbottom).resolve_left hne] at hes
      exact hc.entries_ne_bottom (by simp [hempty]) (eq_bottom_of_skeleton hes.skeleton.symm)
    have hskeleton : (ofEntries es s.next).1.skeleton = c.skeleton :=
      skeleton_eq_of_entries hrebuilt hempty (by rw [hentries, hes.skeleton])
    have hparents : s.table.StoresParents (ofEntries es s.next).1 := fun p hp => by
      obtain ⟨e, he, hparent⟩ := mem_parents.mp hp
      exact hes.stores e (hentries ▸ he) p hparent
    obtain ⟨hleads', hinterned⟩ := hleads.sound.leads_addTo hheld hparents
    have hself : Interned h' _ _ _ := ⟨hinterned.holds, rfl, hinterned.stores⟩
    have hinterned' : Interned h' _ c _ :=
      ⟨hinterned.holds, hinterned.skeleton.trans hskeleton, hinterned.stores⟩
    -- Two contexts are visited: the rebuilt node and the one that it was rebuilt from.
    have hvisit := hleads'.sound.leads_visit hinterned.holds hself
    exact ⟨h', (hleads.trans (hleads'.trans hvisit)).trans
      (hvisit.sound.leads_visit (hc.mono hleads.later) hinterned'), hinterned'⟩

/-- Interning gives what stands for a context, whatever has been interned before. -/
def Interns (c : Context) : Prop :=
  ∀ {h : History} {s : InternState}, s.Sound h → h.Holds c → InternsTo h s c (c.intern s)

/-- Interned entries stay so in every state that is led to. -/
theorem InternedEntries.mono {es fs : List (Entry Context)} {changed : Bool}
    (hfs : InternedEntries h s.table es fs changed) (hleads : Leads h h' s s') :
    InternedEntries h' s'.table es fs changed :=
  ⟨hfs.holds.mono hleads.later, hfs.skeleton,
    fun e he p hp => hleads.stores p (hfs.stores e he p hp), hfs.same⟩

/-- Entries are interned if the first one and the others are. -/
theorem InternedEntries.cons {e f : Entry Context} {es fs : List (Entry Context)}
    {changed changed' : Bool} (hfirst : InternedEntries h table [e] [f] changed)
    (hrest : InternedEntries h table es fs changed') :
    InternedEntries h table (e :: es) (f :: fs) (changed || changed') where
  holds := List.forall_mem_cons.mpr ⟨hfirst.holds f List.mem_cons_self, hrest.holds⟩
  skeleton := by
    have hskeleton := hfirst.skeleton
    simp only [List.map_cons, List.map_nil, List.cons.injEq, and_true] at hskeleton
    rw [List.map_cons, List.map_cons, hrest.skeleton, hskeleton]
  stores := List.forall_mem_cons.mpr ⟨hfirst.stores f List.mem_cons_self, hrest.stores⟩
  same hsame := by
    obtain ⟨hsame, hsame'⟩ := Bool.or_eq_false_iff.mp hsame
    rw [hrest.same hsame', List.singleton_inj.mp (hfirst.same hsame)]

/-- An entry is interned if its parent is. -/
theorem internedEntries_internEntry {e : Entry Context} (hparent : ∀ p ∈ e.parent, Interns p)
    (hs : s.Sound h) (he : h.HoldsParent e.parent) :
    ∃ h', Leads h h' s (internEntry e s).2.2 ∧
      InternedEntries h' (internEntry e s).2.2.table [e] [(internEntry e s).1]
        (internEntry e s).2.1 := by
  rcases e with ⟨_ | p, r⟩
  · rw [internEntry]
    exact ⟨h, .refl hs, ⟨by simp [History.HoldsEntries], rfl, by simp, fun _ => rfl⟩⟩
  · obtain ⟨h', hleads, hinterned⟩ := hparent p rfl hs (he p rfl)
    rw [internEntry]
    refine ⟨h', hleads, ?_, ?_, ?_, fun hsame => ?_⟩
    · exact History.holdsEntries_singleton.mpr (by rintro _ ⟨⟩; exact hinterned.holds)
    · simp [entrySkeleton, hinterned.skeleton]
    · simpa using hinterned.stores
    · have heq : (p.intern s).1 = p := hinterned.holds.eq_of_sameNode
        ((he p rfl).mono hleads.later) (by simpa using hsame)
      simpa using heq

/-- Entries are interned one after the other if their parents are. -/
theorem internedEntries_internEntries {es : List (Entry Context)}
    (hparents : ∀ e ∈ es, ∀ p ∈ e.parent, Interns p) (hs : s.Sound h) (hes : h.HoldsEntries es) :
    ∃ h', Leads h h' s (internEntries es s).2.2 ∧
      InternedEntries h' (internEntries es s).2.2.table es (internEntries es s).1
        (internEntries es s).2.1 := by
  induction es generalizing h s with
  | nil =>
    rw [internEntries]
    exact ⟨h, .refl hs, hes, rfl, by simp, fun _ => rfl⟩
  | cons e rest ih =>
    obtain ⟨he, hrest⟩ := List.forall_mem_cons.mp hes
    obtain ⟨hparent, hparents⟩ := List.forall_mem_cons.mp hparents
    obtain ⟨h', hleads, hfirst⟩ := internedEntries_internEntry hparent hs he
    obtain ⟨h'', hleads', hothers⟩ := ih hparents hleads.sound
      (History.HoldsEntries.mono hrest hleads.later)
    rw [internEntries]
    exact ⟨h'', hleads.trans hleads', (hfirst.mono hleads').cons hothers⟩

/-- Interning a context of the history gives one that stands for it in the table. -/
theorem interns (c : Context) : c.Interns := by
  induction c using induct with
  | empty =>
    intro h s hs _
    rw [intern]
    exact ⟨h, .refl hs, .empty, rfl, Or.inl rfl⟩
  | node id digest first rest ih =>
    intro h s hs hc
    rw [intern]
    dsimp only
    cases hvisited : s.visited[(node id digest first rest).identity]? with
    | some interned =>
      have hinterned := (hs.visited _ _ hvisited).2
      rw [hc.node_identity] at hinterned
      exact ⟨h, .refl hs, hinterned⟩
    | none =>
      cases hfind : s.table.find? (node id digest first rest) with
      | some interned =>
        obtain ⟨hheld, hskeleton⟩ := hs.table.of_find? hc hfind
        have hinterned : Interned h s.table (node id digest first rest) interned :=
          ⟨hheld, hskeleton, Or.inr (hs.table.find?_self hc hfind)⟩
        exact ⟨h, hs.leads_visit hc hinterned, hinterned⟩
      | none =>
        obtain ⟨h', hleads, hentries⟩ := internedEntries_internEntries ih hs hc.entries
        rw [internEntries] at hleads hentries
        exact (internsTo_internNode hleads.sound (hc.mono hleads.later) (isEmpty_node ..)
          hentries).of_leads hleads

end Context

/-! ## Sessions -/

/-- A context can be added alone and the parents of stored contexts stay stored: it has an equal
member already, or its parents are stored. -/
def ContextTable.Expects (table : ContextTable) (c : Context) : Prop :=
  (table.find? c).isSome = true ∨ table.StoresParents c

/-- A session of a program that interns contexts, with its table and its maps of visited nodes. -/
structure InterningSession where
  session : Session
  table : ContextTable
  visited : List VisitedNodes

namespace InterningSession

omit [NodeDigest] in
/-- The session with an empty table. -/
def start : InterningSession := ⟨Session.start, ∅, []⟩

/-- The session with another context. -/
def receive (s : InterningSession) (c : Context) : InterningSession :=
  { s with session := { s.session with contexts := c :: s.session.contexts } }

/-- The state in which a session interns a context. -/
def internState (s : InterningSession) (visited : VisitedNodes) : InternState :=
  ⟨s.table, visited, s.session.next⟩

/-- What a program may do next. It adds contexts alone as far as it is permitted, and its maps of
visited nodes serve this table only; their earlier states are kept as well. -/
inductive Step (mayAdd : ContextTable → Context → Prop) (s : InterningSession) :
    InterningSession → Prop
  /-- Make and merge contexts. -/
  | work {session : Session} (hstep : s.session.Step session) : Step mayAdd s { s with session }
  /-- Begin a map of visited nodes. -/
  | openVisited : Step mayAdd s { s with visited := ∅ :: s.visited }
  /-- Look a context up. -/
  | lookUp {c member : Context} (hc : c ∈ s.session.contexts)
      (hmember : s.table.find? c = some member) : Step mayAdd s (s.receive member)
  /-- Add a context alone. -/
  | add {c : Context} (hc : c ∈ s.session.contexts) (hadd : mayAdd s.table c) :
      Step mayAdd s { s.receive (c.addTo s.table).1 with table := (c.addTo s.table).2 }
  /-- Intern a context. -/
  | intern {c : Context} {visited : VisitedNodes} (hc : c ∈ s.session.contexts)
      (hvisited : visited ∈ s.visited) :
      Step mayAdd s {
        session := { s.session with
          contexts := (c.intern (s.internState visited)).1 :: s.session.contexts
          next := (c.intern (s.internState visited)).2.next }
        table := (c.intern (s.internState visited)).2.table
        visited := (c.intern (s.internState visited)).2.visited :: s.visited }

/-- The sessions to which a program may come. -/
inductive Reached (mayAdd : ContextTable → Context → Prop) : InterningSession → Prop
  | start : Reached mayAdd start
  | step {s s' : InterningSession} : Reached mayAdd s → Step mayAdd s s' → Reached mayAdd s'

/-- The contexts, the table and the visited nodes belong to the history. -/
structure Sound (h : History) (s : InterningSession) : Prop where
  session : s.session.Sound h
  table : s.table.HeldBy h
  visited : ∀ visited ∈ s.visited, VisitedNodes.Sound h s.table visited

variable {mayAdd : ContextTable → Context → Prop} {s s' : InterningSession}

/-- A sound session interns in a sound state. -/
theorem Sound.internState (hs : s.Sound h) {visited : VisitedNodes}
    (hvisited : visited ∈ s.visited) : (s.internState visited).Sound h :=
  ⟨hs.session.next, hs.table, hs.visited visited hvisited⟩

/-- A session stays sound with another context of the history. -/
theorem Sound.receive (hs : s.Sound h) (hc : h.Holds c) : (s.receive c).Sound h :=
  ⟨⟨hs.session.next, List.forall_mem_cons.mpr ⟨hc, hs.session.contexts⟩, hs.session.caches⟩,
    hs.table, hs.visited⟩

/-- One step leads to a session that is sound for a later history. The parents of stored contexts
stay stored if this is expected of all contexts that may be added. -/
theorem Sound.step (hs : s.Sound h) (hstep : Step mayAdd s s') :
    ∃ h', s'.Sound h' ∧ ((∀ table c, mayAdd table c → table.Expects c) →
      s.table.Closed → s'.table.Closed) := by
  cases hstep with
  | work hstep =>
    obtain ⟨h', hext, hsession⟩ := hs.session.step hstep
    exact ⟨h', ⟨hsession, hs.table.mono hext,
      fun visited hvisited => (hs.visited visited hvisited).mono hext fun _ hc => hc⟩,
      fun _ hclosed => hclosed⟩
  | openVisited =>
    exact ⟨h, ⟨hs.session, hs.table,
      List.forall_mem_cons.mpr ⟨VisitedNodes.sound_empty, hs.visited⟩⟩, fun _ hclosed => hclosed⟩
  | lookUp hc hmember =>
    have hheld := (hs.table.of_find? (hs.session.contexts _ hc) hmember).1
    exact ⟨h, hs.receive hheld, fun _ hclosed => hclosed⟩
  -- Only here may a context be stored whose parents are not.
  | @add c hc hadd =>
    have hc' := hs.session.contexts c hc
    obtain ⟨hheld, -, htable⟩ := hs.table.addTo hc'
    have hstores : ∀ d, s.table.Stores d → (c.addTo s.table).2.Stores d :=
      fun d hd => hs.table.stores_of_stores hc' hd
    exact ⟨h, ⟨(hs.receive hheld).session, htable,
      fun visited hvisited => (hs.visited visited hvisited).mono (.refl h) hstores⟩,
      fun hexpects hclosed => hclosed.addTo hs.table hc' (hexpects _ _ hadd)⟩
  | @intern c visited hc hvisited =>
    obtain ⟨h', hleads, hinterned⟩ := c.interns (hs.internState hvisited)
      (hs.session.contexts c hc)
    have hsession : Session.Sound h' _ := hs.session.extend hleads.later hinterned.holds [] (by simp)
    rw [← hleads.sound.next] at hsession
    exact ⟨h', ⟨hsession, hleads.sound.table, List.forall_mem_cons.mpr ⟨hleads.sound.visited,
      fun visited hvisited => (hs.visited visited hvisited).mono hleads.later hleads.stores⟩⟩,
      fun _ hclosed => hleads.closed hclosed⟩

/-- Every reached session is sound for some history, and the parents of stored contexts are stored
if this is expected of all contexts that may be added. -/
theorem Reached.sound (hs : s.Reached mayAdd) :
    ∃ h, s.Sound h ∧ ((∀ table c, mayAdd table c → table.Expects c) → s.table.Closed) := by
  induction hs with
  | start =>
    obtain ⟨h, hsession⟩ := Session.Reached.start.sound
    exact ⟨h, ⟨hsession, ContextTable.heldBy_empty, fun _ hvisited => (List.not_mem_nil hvisited).elim⟩,
      fun _ => ContextTable.closed_empty⟩
  | step _ hstep ih =>
    obtain ⟨h, hsound, hclosed⟩ := ih
    obtain ⟨h', hsound', hkeeps⟩ := hsound.step hstep
    exact ⟨h', hsound', fun hexpects => hkeeps hexpects (hclosed hexpects)⟩

/-- A program can come by what it makes and merges before it interns anything. -/
theorem reached_of_session {session : Session} (hs : session.Reached) :
    Reached mayAdd { start with session } := by
  induction hs with
  | start => exact .start
  | step _ hstep ih => exact .step ih (.work hstep)

end InterningSession

namespace Context

/-- Interning gives an equal context that is stored in the table. Every node that can be reached
from it is the one that the table finds for its structure, if only such contexts have been added
alone as have an equal member or stored parents. -/
theorem intern_canonical {mayAdd : ContextTable → Context → Prop} {s : InterningSession}
    (hs : s.Reached mayAdd) {c : Context} (hc : c ∈ s.session.contexts) {visited : VisitedNodes}
    (hvisited : visited ∈ s.visited) :
    let result := c.intern (s.internState visited)
    (result.1 == c) = true ∧ result.2.table.Stores result.1 ∧
      ((∀ table d, mayAdd table d → table.Expects d) →
        ∀ d, result.1.Reaches d → d.isEmpty = false → result.2.table.find? d = some d) := by
  obtain ⟨h, hsound, hclosed⟩ := hs.sound
  have hc' := hsound.session.contexts c hc
  obtain ⟨h', hleads, hinterned⟩ := c.interns (hsound.internState hvisited) hc'
  refine ⟨?_, hinterned.stores, fun hexpects d hreaches hempty => ?_⟩
  · exact (beq_iff hinterned.holds (hc'.mono hleads.later)).mpr hinterned.skeleton
  · have hstores := (hleads.closed (hclosed hexpects)).stores_of_reaches hinterned.stores hreaches
    exact hstores.resolve_left (by simp [hempty])

/-- A node that was not visited and has an equal member is that member. -/
theorem intern_of_find? {s : InternState} {c member : Context} (hempty : c.isEmpty = false)
    (hvisited : s.visited[c.identity]? = none) (hmember : s.table.find? c = some member) :
    c.intern s = (member, s.visit c member) := by
  cases c with
  | empty => cases hempty
  | node =>
    rw [intern]
    simp only [hvisited, hmember]

end Context

end

/-! ## A chain of callers -/

/-- A caller that returns to state 6 and is called by the one that returns to state 7. -/
def Context.innerCaller : Context := (ofEntries [⟨some soleCaller, 6⟩] 3).1

namespace InterningSession

/-- The session in which the chain of callers has been made, with a map of visited nodes. -/
def chained : InterningSession :=
  ⟨⟨Context.innerCaller :: Session.callers.contexts, Session.callers.caches, 4⟩, ∅, [∅]⟩

/-- The session of the chain is reached by making its contexts and opening a map. -/
theorem reached_chained (mayAdd : ContextTable → Context → Prop) : chained.Reached mayAdd := by
  have hmade : Session.Reached
      ⟨Context.innerCaller :: Session.callers.contexts, Session.callers.caches, 4⟩ :=
    .step Session.reached_callers (.make [⟨some Context.soleCaller, 6⟩] (by simp [Session.callers]))
  exact .step (reached_of_session hmade) .openVisited

/-- The session in which the inner caller has been added alone. -/
def addedAlone : InterningSession :=
  { chained.receive (Context.innerCaller.addTo ∅).1 with
    table := (Context.innerCaller.addTo ∅).2 }

end InterningSession

namespace Context

/-- The inner caller is interned under a table that has stored nothing yet. -/
theorem intern_canonical_innerCaller :
    let result := innerCaller.intern (InterningSession.chained.internState ∅)
    (result.1 == innerCaller) = true ∧ result.2.table.Stores result.1 ∧
      ∀ d, result.1.Reaches d → d.isEmpty = false → result.2.table.find? d = some d := by
  have hvisited : ∅ ∈ InterningSession.chained.visited := List.mem_singleton_self ∅
  obtain ⟨hequal, hstores, hreached⟩ := intern_canonical
    (InterningSession.reached_chained fun table d => table.Expects d) List.mem_cons_self hvisited
  exact ⟨hequal, hstores, hreached fun _ _ h => h⟩

/-- If any context may be added alone, then interning may give a context of which a parent is not
stored. -/
theorem not_intern_canonical_of_addedAlone :
    ¬ ∀ (s : InterningSession), s.Reached (fun _ _ => True) → ∀ c ∈ s.session.contexts,
      ∀ visited ∈ s.visited, ∀ d, (c.intern (s.internState visited)).1.Reaches d →
        d.isEmpty = false →
          (c.intern (s.internState visited)).2.table.find? d = some d := by
  intro hcanonical
  have hchained := InterningSession.reached_chained fun _ _ => True
  obtain ⟨h, hsound, -⟩ := hchained.sound
  have hinner : h.Holds innerCaller :=
    hsound.session.contexts _ (by simp [InterningSession.chained])
  have hsole : h.Holds soleCaller :=
    hsound.session.contexts _ (by simp [InterningSession.chained, Session.callers])
  have hadded : innerCaller.addTo ∅ = (∅ : ContextTable).intern innerCaller := rfl
  have hfind : InterningSession.addedAlone.table.find? innerCaller = some innerCaller := by
    change (innerCaller.addTo ∅).2.find? innerCaller = _
    rw [hadded, ContextTable.find?_intern_self hinner, ContextTable.intern,
      ContextTable.find?_empty]
  have hintern := intern_of_find? (s := InterningSession.addedAlone.internState ∅) (by rfl)
    (by simp [InterningSession.internState]) hfind
  have hreached : InterningSession.addedAlone.Reached (fun _ _ => True) :=
    .step hchained (.add (by simp [InterningSession.chained]) trivial)
  have hstored := hcanonical _ hreached innerCaller (List.mem_cons_of_mem _ List.mem_cons_self) ∅
    (List.mem_singleton_self ∅) soleCaller
  rw [hintern] at hstored
  have hparent : soleCaller ∈ innerCaller.parents := List.mem_singleton_self soleCaller
  have hfound := hstored (.parent .refl hparent) rfl
  change (innerCaller.addTo ∅).2.find? soleCaller = _ at hfound
  rw [hadded, ContextTable.find?_intern_of_ne hinner hsole, ContextTable.find?_empty] at hfound
  · cases hfound
  · simp [innerCaller, soleCaller, ofEntries, singleton, skeleton, entrySkeleton]

end Context

end TransitionNetwork
