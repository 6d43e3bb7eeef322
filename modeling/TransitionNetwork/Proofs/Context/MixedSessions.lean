import TransitionNetwork.Proofs.Context.Enumeration
import TransitionNetwork.Proofs.Context.Interning
import TransitionNetwork.Proofs.Context.SharedParents

/-!
# Mixed sessions

A program may merge under both readings with one cache, put results into caches itself, add contexts
to several tables and intern with one map of visited nodes in all of them. What it finds in a cache
or notes for a node then need not stand for anything. It still belongs to the history, as all that
the program holds does, and that is enough for what does not depend on the meaning of results: in
particular, a merge makes no node with equal parents that are different nodes.
-/

namespace TransitionNetwork

section

variable [NodeDigest] {h h' : History}

/-! ## Interning with any table and any map -/

/-- All that is noted for visited nodes belongs to the history. -/
def VisitedNodes.HeldBy (h : History) (visited : VisitedNodes) : Prop :=
  ∀ (i : NodeId) (c : Context), visited[i]? = some c → h.Holds c

/-- A new map notes nothing that would have to belong to the history. -/
theorem VisitedNodes.heldBy_empty : VisitedNodes.HeldBy h ∅ := fun i c hc => by
  simp at hc

/-- What is noted for visited nodes belongs to every later history. -/
theorem VisitedNodes.HeldBy.mono {visited : VisitedNodes} (hvisited : visited.HeldBy h)
    (hext : h.Extends h') : VisitedNodes.HeldBy h' visited :=
  fun i c hc => (hvisited i c hc).mono hext

/-- The free identity is that at the end of the history, to which the members of the table and what
is noted for visited nodes belong. -/
structure InternState.HeldBy (h : History) (s : InternState) : Prop where
  next : s.next = h.next
  table : s.table.HeldBy h
  visited : VisitedNodes.HeldBy h s.visited

/-- A result that belongs to a later history, up to which the state of interning has come. -/
def InternsHeld {α : Type} (held : History → α → Prop) (h : History) (x : α) (s : InternState) :
    Prop :=
  ∃ h', h.Extends h' ∧ s.HeldBy h' ∧ held h' x

namespace InternsHeld

variable {α : Type} {held : History → α → Prop} {x : α} {s : InternState} {c d : Context}

/-- What belongs to the history already is a result that makes nothing. -/
theorem of_held (hs : s.HeldBy h) (hx : held h x) : InternsHeld held h x s :=
  ⟨h, .refl h, hs, hx⟩

/-- A result from a later history is one from the history before. -/
theorem of_extends (hext : h.Extends h') (hx : InternsHeld held h' x s) :
    InternsHeld held h x s := by
  obtain ⟨h'', hext', hrest⟩ := hx
  exact ⟨h'', hext.trans hext', hrest⟩

end InternsHeld

namespace InternState.HeldBy

variable {s : InternState} {c d : Context}

/-- A state may note a context of the history for a visited node. -/
theorem visit (hs : s.HeldBy h) (hd : h.Holds d) : (s.visit c d).HeldBy h := by
  refine ⟨hs.next, hs.table, fun i e he => ?_⟩
  rw [InternState.visit, Std.HashMap.getElem?_insert] at he
  split at he
  · cases he
    exact hd
  · exact hs.visited i e he

/-- Adding a context to the table. -/
theorem addTo (hs : s.HeldBy h) (hc : h.Holds c) :
    { s with table := (c.addTo s.table).2 }.HeldBy h ∧ h.Holds (c.addTo s.table).1 := by
  obtain ⟨hheld, -, htable⟩ := hs.table.addTo hc
  exact ⟨⟨hs.next, htable, hs.visited⟩, hheld⟩

/-- Making a node over contexts of the history. -/
theorem ofEntries (hs : s.HeldBy h) {es : List (Entry Context)} (hes : h.HoldsEntries es) :
    ∃ h', h.Extends h' ∧ { s with next := (Context.ofEntries es s.next).2 }.HeldBy h' ∧
      h'.Holds (Context.ofEntries es s.next).1 := by
  obtain ⟨h', hext, hnext, hheld⟩ := Context.exists_holds_ofEntries hes
  rw [hs.next]
  exact ⟨h', hext, ⟨hnext.symm, hs.table.mono hext, hs.visited.mono hext⟩, hheld⟩

end InternState.HeldBy

namespace Context

variable {s : InternState} {c : Context}

/-- A node over interned entries belongs to a later history. -/
theorem internsHeld_internNode (hs : s.HeldBy h) (hc : h.Holds c) {es : List (Entry Context)}
    (hes : h.HoldsEntries es) (changed : Bool) :
    InternsHeld History.Holds h (internNode c es changed s).1 (internNode c es changed s).2 := by
  cases changed with
  | false =>
    obtain ⟨hs', hheld⟩ := hs.addTo hc
    exact .of_held (hs'.visit hheld) hheld
  | true =>
    obtain ⟨h', hext, hs', hmade⟩ := hs.ofEntries hes
    obtain ⟨hs'', hheld⟩ := hs'.addTo hmade
    exact ⟨h', hext, (hs''.visit hheld).visit hheld, hheld⟩

/-- Interning gives what belongs to a later history, whatever the table and the map hold. -/
def InternsWithin (c : Context) : Prop :=
  ∀ {h : History} {s : InternState}, s.HeldBy h → h.Holds c →
    InternsHeld History.Holds h (c.intern s).1 (c.intern s).2

/-- An entry is interned to one of a later history if its parent is. -/
theorem internsHeld_internEntry {e : Entry Context} (hparent : ∀ p ∈ e.parent, InternsWithin p)
    (hs : s.HeldBy h) (he : h.HoldsParent e.parent) :
    InternsHeld (fun h e => h.HoldsParent e.parent) h (internEntry e s).1
      (internEntry e s).2.2 := by
  rcases e with ⟨_ | p, r⟩
  · rw [internEntry]
    exact .of_held hs he
  · obtain ⟨h', hext, hs', hp⟩ := hparent p rfl hs (he p rfl)
    rw [internEntry]
    exact ⟨h', hext, hs', by rintro _ ⟨⟩; exact hp⟩

/-- Entries are interned to entries of a later history if their parents are. -/
theorem internsHeld_internEntries {es : List (Entry Context)}
    (hparents : ∀ e ∈ es, ∀ p ∈ e.parent, InternsWithin p) (hs : s.HeldBy h)
    (hes : h.HoldsEntries es) :
    InternsHeld History.HoldsEntries h (internEntries es s).1 (internEntries es s).2.2 := by
  induction es generalizing h s with
  | nil =>
    rw [internEntries]
    exact .of_held hs hes
  | cons e rest ih =>
    obtain ⟨he, hrest⟩ := List.forall_mem_cons.mp hes
    obtain ⟨hparent, hparents⟩ := List.forall_mem_cons.mp hparents
    obtain ⟨h', hext, hs', hfirst⟩ := internsHeld_internEntry hparent hs he
    obtain ⟨h'', hext', hs'', hothers⟩ := ih hparents hs' (History.HoldsEntries.mono hrest hext)
    rw [internEntries]
    exact ⟨h'', hext.trans hext', hs'', List.forall_mem_cons.mpr ⟨hfirst.mono hext', hothers⟩⟩

/-- Every context is interned to one of a later history, by recursion through its parents. -/
theorem internsWithin (c : Context) : c.InternsWithin := by
  induction c using induct with
  | empty =>
    intro h s hs _
    rw [intern]
    exact .of_held hs .empty
  | node id digest first rest ih =>
    intro h s hs hc
    rw [intern]
    dsimp only
    cases hvisited : s.visited[(node id digest first rest).identity]? with
    | some interned => exact .of_held hs (hs.visited _ _ hvisited)
    | none =>
      cases hfind : s.table.find? (node id digest first rest) with
      | some interned =>
        have hheld := (hs.table.of_find? hc hfind).1
        exact .of_held (hs.visit hheld) hheld
      | none =>
        obtain ⟨h', hext, hs', hes⟩ := internsHeld_internEntries ih hs hc.entries
        rw [internEntries] at hs' hes
        exact (internsHeld_internNode hs' (hc.mono hext) hes _).of_extends hext

end Context

end

/-! ## Sessions -/

/-- What a program holds that uses its caches, tables and maps of visited nodes as it pleases. -/
structure MixedSession where
  contexts : List Context
  caches : List MergeCache
  tables : List ContextTable
  visited : List VisitedNodes
  next : NodeId

namespace MixedSession

/-- The session with the empty context, and with nothing in its cache, its table and its map. -/
def start : MixedSession := ⟨[.empty], [∅], [∅], [∅], 1⟩

variable [NodeDigest]

/-- What a program may do next. All that it held it holds on to, with the earlier states of caches,
tables and maps. -/
inductive Step (s : MixedSession) : MixedSession → Prop
  /-- Make a context from entries over contexts. -/
  | make (es : List (Entry Context)) (hes : ∀ e ∈ es, ∀ p ∈ e.parent, p ∈ s.contexts) :
      Step s { s with
        contexts := (Context.ofEntries es s.next).1 :: s.contexts
        next := (Context.ofEntries es s.next).2 }
  /-- Take a parent of a context. -/
  | parent {c p : Context} (hc : c ∈ s.contexts) (hp : p ∈ c.parents) :
      Step s { s with contexts := p :: s.contexts }
  /-- Merge two contexts, without a cache or with one that may have served another reading. -/
  | merge (root : RootReading) {a b : Context} {cache : Option MergeCache} (ha : a ∈ s.contexts)
      (hb : b ∈ s.contexts) (hcache : ∀ kept ∈ cache, kept ∈ s.caches) :
      Step s { s with
        contexts := (Context.merge root a b ⟨s.next, cache⟩).1 :: s.contexts
        caches := (Context.merge root a b ⟨s.next, cache⟩).2.cache.toList ++ s.caches
        next := (Context.merge root a b ⟨s.next, cache⟩).2.next }
  /-- Put any context into a cache as the result for two others. -/
  | keep {cache : MergeCache} {a b c : Context} (hcache : cache ∈ s.caches) (ha : a ∈ s.contexts)
      (hb : b ∈ s.contexts) (hc : c ∈ s.contexts) :
      Step s { s with caches := cache.insert a b c :: s.caches }
  /-- Look a result up in a cache. -/
  | lookUp {cache : MergeCache} {a b c : Context} (hcache : cache ∈ s.caches)
      (hc : cache.get? a b = some c) : Step s { s with contexts := c :: s.contexts }
  /-- Find the member of a table that is equal to a context. -/
  | find {table : ContextTable} {c d : Context} (htable : table ∈ s.tables) (hc : c ∈ s.contexts)
      (hd : table.find? c = some d) : Step s { s with contexts := d :: s.contexts }
  /-- Add a context to a table. -/
  | add {table : ContextTable} {c : Context} (htable : table ∈ s.tables) (hc : c ∈ s.contexts) :
      Step s { s with
        contexts := (c.addTo table).1 :: s.contexts
        tables := (c.addTo table).2 :: s.tables }
  /-- Intern a context in a table, with a map of visited nodes that may have served another one. -/
  | intern {table : ContextTable} {visited : VisitedNodes} {c : Context}
      (htable : table ∈ s.tables) (hvisited : visited ∈ s.visited) (hc : c ∈ s.contexts) :
      Step s {
        contexts := (c.intern ⟨table, visited, s.next⟩).1 :: s.contexts
        caches := s.caches
        tables := (c.intern ⟨table, visited, s.next⟩).2.table :: s.tables
        visited := (c.intern ⟨table, visited, s.next⟩).2.visited :: s.visited
        next := (c.intern ⟨table, visited, s.next⟩).2.next }

/-- The sessions to which a program may come. -/
inductive Reached : MixedSession → Prop
  | start : Reached start
  | step {s s' : MixedSession} : Reached s → Step s s' → Reached s'

/-- All that the program holds belongs to the history, at whose end the free identity is. -/
structure HeldBy (h : History) (s : MixedSession) : Prop where
  next : s.next = h.next
  contexts : ∀ c ∈ s.contexts, h.Holds c
  caches : ∀ cache ∈ s.caches, cache.HeldBy h
  tables : ∀ table ∈ s.tables, table.HeldBy h
  visited : ∀ visited ∈ s.visited, VisitedNodes.HeldBy h visited

variable {h h' : History} {s s' : MixedSession}

/-- What belongs to a history belongs to every later one. -/
theorem HeldBy.mono (hs : s.HeldBy h) (hext : h.Extends h') :
    { s with next := h'.next }.HeldBy h' where
  next := rfl
  contexts c hc := (hs.contexts c hc).mono hext
  caches cache hcache := (hs.caches cache hcache).mono hext
  tables table htable := (hs.tables table htable).mono hext
  visited visited hvisited := (hs.visited visited hvisited).mono hext

/-- Merging contexts of a session makes nodes that share their parents. -/
theorem HeldBy.merge (hs : s.HeldBy h) (root : RootReading) {a b : Context}
    {cache : Option MergeCache} (ha : a ∈ s.contexts) (hb : b ∈ s.contexts)
    (hcache : ∀ kept ∈ cache, kept ∈ s.caches) :
    MakesSharing History.Holds h (Context.merge root a b ⟨s.next, cache⟩) :=
  Context.makesSharing_merge (hs.contexts a ha) (hs.contexts b hb)
    ⟨hs.next, fun kept hkept => hs.caches kept (hcache kept hkept)⟩

/-- After a step all belongs to a later history. -/
theorem HeldBy.step (hs : s.HeldBy h) (hstep : s.Step s') : ∃ h', s'.HeldBy h' := by
  cases hstep with
  | make es hes =>
    obtain ⟨h', hext, hnext, hnew⟩ := Context.exists_holds_ofEntries fun e he p hp =>
      hs.contexts p (hes e he p hp)
    rw [hs.next, ← hnext]
    have hs' := hs.mono hext
    exact ⟨h', { hs' with contexts := List.forall_mem_cons.mpr ⟨hnew, hs'.contexts⟩ }⟩
  | @parent c p hc hp =>
    obtain ⟨e, he, hparent⟩ := Context.mem_parents.mp hp
    have hnew := (hs.contexts c hc).entries e he p hparent
    exact ⟨h, { hs with contexts := List.forall_mem_cons.mpr ⟨hnew, hs.contexts⟩ }⟩
  | merge root ha hb hcache =>
    obtain ⟨h', hext, hm, hnew⟩ := hs.merge root ha hb hcache
    have hs' := hs.mono hext.toExtends
    rw [hm.next]
    exact ⟨h', { hs' with
      contexts := List.forall_mem_cons.mpr ⟨hnew, hs'.contexts⟩
      caches := List.forall_mem_append.mpr
        ⟨fun kept hkept => hm.cache kept (Option.mem_toList.mp hkept), hs'.caches⟩ }⟩
  | @keep cache a b c hcache ha hb hc =>
    have hkept := (hs.caches cache hcache).insert (a := a) (b := b) (hs.contexts c hc)
    exact ⟨h, { hs with caches := List.forall_mem_cons.mpr ⟨hkept, hs.caches⟩ }⟩
  | @lookUp cache a b c hcache hc =>
    have hnew := (hs.caches cache hcache).get? hc
    exact ⟨h, { hs with contexts := List.forall_mem_cons.mpr ⟨hnew, hs.contexts⟩ }⟩
  | @find table c d htable hc hd =>
    have hnew := ((hs.tables table htable).of_find? (hs.contexts c hc) hd).1
    exact ⟨h, { hs with contexts := List.forall_mem_cons.mpr ⟨hnew, hs.contexts⟩ }⟩
  | @add table c htable hc =>
    obtain ⟨hnew, -, htable'⟩ := (hs.tables table htable).addTo (hs.contexts c hc)
    exact ⟨h, { hs with
      contexts := List.forall_mem_cons.mpr ⟨hnew, hs.contexts⟩
      tables := List.forall_mem_cons.mpr ⟨htable', hs.tables⟩ }⟩
  | @intern table visited c htable hvisited hc =>
    have hstate : InternState.HeldBy h ⟨table, visited, s.next⟩ :=
      ⟨hs.next, hs.tables table htable, hs.visited visited hvisited⟩
    obtain ⟨h', hext, hstate', hnew⟩ := c.internsWithin hstate (hs.contexts c hc)
    have hs' := hs.mono hext
    rw [hstate'.next]
    exact ⟨h', { hs' with
      contexts := List.forall_mem_cons.mpr ⟨hnew, hs'.contexts⟩
      tables := List.forall_mem_cons.mpr ⟨hstate'.table, hs'.tables⟩
      visited := List.forall_mem_cons.mpr ⟨hstate'.visited, hs'.visited⟩ }⟩

/-- All that is held in a reached session belongs to one history. -/
theorem Reached.held (hs : s.Reached) : ∃ h, s.HeldBy h := by
  induction hs with
  | start =>
    refine ⟨.start, rfl, ?_, ?_, ?_, ?_⟩
    · simpa [MixedSession.start] using History.Holds.empty
    · simpa [MixedSession.start] using MergeCache.HeldBy.empty
    · simpa [MixedSession.start] using ContextTable.heldBy_empty
    · simpa [MixedSession.start] using VisitedNodes.heldBy_empty
  | step _ hstep ih =>
    obtain ⟨h, hheld⟩ := ih
    exact hheld.step hstep

/-! ## Parents of new nodes -/

/-- A node of a session has an identity below the free one. What a merge gives, with either reading
and with or without a cache, may have nodes with other identities, which are new; none of them has
two parents of the same structure that are different nodes. Sharing the parents of any entries keeps
their structure and puts the first parent of the same structure in the place of each. -/
theorem merge_sharesParents (hs : s.Reached) (root : RootReading) {a b : Context}
    {cache : Option MergeCache} (ha : a ∈ s.contexts) (hb : b ∈ s.contexts)
    (hcache : ∀ kept ∈ cache, kept ∈ s.caches) {es : List (Entry Context)}
    (hes : ∀ e ∈ es, ∀ p ∈ e.parent, p ∈ s.contexts) :
    (∀ c ∈ s.contexts, ∀ d, c.Reaches d → d.identity < s.next) ∧
    (∀ d, (Context.merge root a b ⟨s.next, cache⟩).1.Reaches d → s.next ≤ d.identity →
      d.SharesParents) ∧
    (Context.shareParents es ∅).map Context.entrySkeleton = es.map Context.entrySkeleton ∧
    List.Forall₂ (fun e shared => shared.returnState = e.returnState ∧
      Option.Rel (Context.FirstAlike (es.filterMap Entry.parent)) e.parent shared.parent)
      es (Context.shareParents es ∅) := by
  obtain ⟨h, hheld⟩ := hs.held
  have hesheld : h.HoldsEntries es := fun e he p hp => hheld.contexts p (hes e he p hp)
  refine ⟨fun c hc d hd => ?_, fun d hd hnew => ?_,
    (Context.shareParents_spec hesheld ContextTable.heldBy_empty).2,
    Context.forall₂_shareParents hesheld⟩
  · rw [hheld.next]
    exact (hd.holds (hheld.contexts c hc)).identity_lt
  · obtain ⟨h', hext, -, hresult⟩ := hheld.merge root ha hb hcache
    have hd' : h'.Holds d := hd.holds hresult
    rw [← hd'.node_identity]
    exact hext.shares d.identity (hheld.next ▸ hnew) hd'.identity_lt

end MixedSession

namespace MixedSession

open Context (equalCaller)

/-- Two calls from two callers of the same structure. -/
def equallyCalled (first second : NodeId) (returnState : Int) : Context :=
  (Context.ofEntries [⟨some (equalCaller first), returnState⟩] second).1

/-- The session in which both calls have been made. -/
def equallyCalledTwice : MixedSession :=
  ⟨[equallyCalled 2 4 4, equallyCalled 1 3 3, equalCaller 2, equalCaller 1, .empty],
    [∅], [∅], [∅], 5⟩

/-- The session of the two calls is reached by making the callers and then the calls. -/
theorem reached_equallyCalledTwice : equallyCalledTwice.Reached := by
  have hfirst : Reached ⟨[equalCaller 1, .empty], [∅], [∅], [∅], 2⟩ :=
    .step .start (.make [⟨some .empty, 5⟩] (by simp [start]))
  have hsecond : Reached ⟨[equalCaller 2, equalCaller 1, .empty], [∅], [∅], [∅], 3⟩ :=
    .step hfirst (.make [⟨some .empty, 5⟩] (by simp))
  have hthird : Reached
      ⟨[equallyCalled 1 3 3, equalCaller 2, equalCaller 1, .empty], [∅], [∅], [∅], 4⟩ :=
    .step hsecond (.make [⟨some (equalCaller 1), 3⟩] (by simp))
  exact .step hthird (.make [⟨some (equalCaller 2), 4⟩] (by simp))

/-- Merging the two calls makes a node over the first of the callers alone. -/
theorem merge_equallyCalled : (Context.merge .exact (equallyCalled 1 3 3) (equallyCalled 2 4 4)
      ⟨5, some ∅⟩).1 =
    (Context.ofEntries [⟨some (equalCaller 1), 3⟩, ⟨some (equalCaller 1), 4⟩] 5).1 := by
  have hne : ¬ (equallyCalled 1 3 3 == equallyCalled 2 4 4) = true := by
    change ¬ Context.beq (equallyCalled 1 3 3) (equallyCalled 2 4 4) = true
    simp [equallyCalled, Context.ofEntries, Context.singleton, Context.beq, Context.beqEntry]
  have hknown : MergeState.known? ⟨5, some ∅⟩ (equallyCalled 1 3 3) (equallyCalled 2 4 4) =
      none := by
    simp [MergeState.known?, MergeCache.get?, MergeCache.getElem?_results_empty]
  have hequal : (equalCaller 1 == equalCaller 2) = true := by
    change Context.beq (equalCaller 1) (equalCaller 2) = true
    simp [equalCaller, Context.ofEntries, Context.singleton, Context.beq, Context.beqEntry,
      Context.beqEntries]
  have hroot : Context.rootEntries .exact (equallyCalled 1 3 3) (equallyCalled 2 4 4) = none := rfl
  have htwo : Context.twoEntries (equallyCalled 1 3 3).top (equallyCalled 2 4 4).top =
      [⟨some (equalCaller 1), 3⟩, ⟨some (equalCaller 1), 4⟩] :=
    if_pos ⟨rfl, hequal⟩
  have hreturn : ¬ (equallyCalled 1 3 3).top.returnState =
      (equallyCalled 2 4 4).top.returnState := by decide
  rw [Context.merge, if_neg hne, if_neg (by decide), hknown, hroot]
  dsimp only
  rw [if_neg hreturn, htwo]
  rfl

/-- The node that is new shares its parents, and so do the two entries by themselves. -/
theorem merge_sharesParents_equallyCalled :
    let result := (Context.merge .exact (equallyCalled 1 3 3) (equallyCalled 2 4 4) ⟨5, some ∅⟩).1
    let es := [⟨some (equalCaller 1), 3⟩, ⟨some (equalCaller 2), 4⟩]
    result.isArray = true ∧ result.parents = [equalCaller 1, equalCaller 1] ∧
      result.SharesParents ∧
      List.Forall₂ (fun e shared => shared.returnState = e.returnState ∧
        Option.Rel (Context.FirstAlike [equalCaller 1, equalCaller 2]) e.parent shared.parent)
        es (Context.shareParents es ∅) := by
  intro result es
  have hresult : result =
      (Context.ofEntries [⟨some (equalCaller 1), 3⟩, ⟨some (equalCaller 1), 4⟩] 5).1 :=
    merge_equallyCalled
  have ha : equallyCalled 1 3 3 ∈ equallyCalledTwice.contexts := by simp [equallyCalledTwice]
  have hb : equallyCalled 2 4 4 ∈ equallyCalledTwice.contexts := by simp [equallyCalledTwice]
  have hcache : ∀ kept ∈ some (∅ : MergeCache), kept ∈ equallyCalledTwice.caches := by
    simp [equallyCalledTwice]
  have hes : ∀ e ∈ es, ∀ p ∈ e.parent, p ∈ equallyCalledTwice.contexts := by
    simp [es, equallyCalledTwice]
  obtain ⟨-, hnew, -, hshared⟩ :=
    merge_sharesParents reached_equallyCalledTwice .exact ha hb hcache hes
  refine ⟨hresult ▸ rfl, hresult ▸ rfl, hnew result .refl ?_, hshared⟩
  rw [hresult]
  rfl

end MixedSession

end TransitionNetwork
