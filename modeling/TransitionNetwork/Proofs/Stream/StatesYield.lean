import TransitionNetwork.Proofs.Stream.StatesRead

/-!
# What the section of the states yields

Whatever a stream holds, the states that are read from it can be written, and they are nothing
but their written parts: slots hold the states of their numbers, every block start and loop end
is linked to a state, and only decision states prefer to end.
-/

namespace TransitionNetwork

/-! ## Fresh states -/

/-- What holds of the states of a network all along the passes of the reader: they have their
numbers, rules that fit into units, the types with which they were made and nothing but their
written parts. -/
structure Network.Stated (start : Network) (k : StateId) (s : State) : Prop where
  number : s.number = k
  rule : ∀ r ∈ s.rule, Stream.IsValue r
  written : s.written = s
  type : (start.kind? k).map StateKind.type = some s.kind.type
  nonGreedy : s.nonGreedy → s.kind.isDecision

/-- A change of the kind keeps the type if it keeps the written part. -/
theorem Network.Stated.mapKind {start : Network} {k : StateId} {s : State} (h : start.Stated k s)
    {f : StateKind → StateKind} (htype : (f s.kind).type = s.kind.type)
    (hwritten : (f s.kind).written = f s.kind) : start.Stated k (s.mapKind f) := by
  refine ⟨h.number, h.rule, ?_, ?_, fun hs => ?_⟩
  · have hkind : (s.mapKind f).written = { s.written with kind := (f s.kind).written } := rfl
    rw [hkind, hwritten, h.written, State.mapKind]
  · rw [h.type]
    exact congrArg some htype.symm
  · exact (StateKind.admits_of_type htype .decision).trans (h.nonGreedy hs)

namespace StateKind

/-- Linking a loop end gives it the written link, and nothing that is not written. -/
theorem withLoopBack_of_isLoopEnd {kind : StateKind} (h : kind.isLoopEnd) (id : StateId) :
    (kind.withLoopBack id).type = kind.type ∧
      (kind.withLoopBack id).written = kind.withLoopBack id ∧
      (kind.withLoopBack id).writtenLink? = some id := by
  cases kind with
  | loopEnd loopBack => exact ⟨rfl, rfl, rfl⟩
  | _ => cases h

/-- Linking a block start gives it the written link, and nothing that is not written. -/
theorem withBlockStop_of_hasLink {kind : StateKind} (hlink : kind.type.hasLink)
    (hloop : kind.isLoopEnd = false) (hwritten : kind.written = kind) (id : StateId) :
    (kind.withBlockStop id).type = kind.type ∧
      (kind.withBlockStop id).written = kind.withBlockStop id ∧
      (kind.withBlockStop id).writtenLink? = some id := by
  rcases kind with _ | _ | _ | ⟨_ | _ | _, _⟩ | _ | _ | _ | _ | _ | _
  case blockStart.basic | blockStart.star => exact ⟨rfl, rfl, rfl⟩
  case blockStart.plus =>
    cases hwritten
    exact ⟨rfl, rfl, rfl⟩
  case loopEnd => cases hloop
  all_goals cases hlink

/-- The mark of precedence is written, and leaves the type and the link of a kind. -/
theorem withPrecedence_of_written {kind : StateKind} (hwritten : kind.written = kind) :
    kind.withPrecedence.type = kind.type ∧ kind.withPrecedence.written = kind.withPrecedence ∧
      kind.withPrecedence.writtenLink? = kind.writtenLink? := by
  cases kind with
  | ruleStart stop hasPrecedence =>
    cases hwritten
    exact ⟨rfl, rfl, rfl⟩
  | _ => exact ⟨rfl, hwritten, rfl⟩

end StateKind

/-- A fresh state is nothing but its written part. -/
theorem State.written_fresh (s : State) : s.fresh.written = s.fresh := by
  have hkind : (StateKind.ofType s.kind.type).written = .ofType s.kind.type := by
    cases s.kind.type <;> rfl
  change { State.new (StateKind.ofType s.kind.type).written s.rule with number := s.number } = _
  rw [hkind]
  rfl

namespace Stream

open Decoder

/-- An optional index is none or the value that was read. -/
theorem isValue_of_mem_optionalIndex {number : Int} (h : IsValue number) :
    ∀ i ∈ optionalIndex number, IsValue i := by
  intro i hi
  rw [optionalIndex] at hi
  obtain ⟨-, hgreatest⟩ := h
  split at hi <;> cases hi
  exact ⟨by lia, by lia⟩

/-- What the entry of a slot says of the state in it. -/
structure SlotEntryRead (k : Nat) (entry : SlotEntry) : Prop where
  number : ∀ s ∈ entry.state, s.number = k
  rule : ∀ s ∈ entry.state, ∀ r ∈ s.rule, IsValue r
  fresh : ∀ s ∈ entry.state, s = s.fresh
  link : ∀ s ∈ entry.state, entry.link.isSome = s.kind.type.hasLink

/-- What the entry of a slot says holds of each slot that is read. -/
theorem yields_slot (k : Nat) : Yields (Decoder.slot k) (SlotEntryRead k) := by
  apply Yields.int.bind
  intro code _
  split
  · exact Yields.pure ⟨fun _ h => (by cases h), fun _ h => (by cases h), fun _ h => (by cases h),
      fun _ h => (by cases h)⟩
  split
  · exact Yields.throw _ _
  next type _ =>
    apply Yields.int.bind
    intro rule hrule
    have hentry (link : Option Int) (hlink : link.isSome = type.hasLink) : SlotEntryRead k
        ⟨some { State.new (.ofType type) (optionalIndex rule) with number := k }, link⟩ := by
      refine ⟨?_, ?_, ?_, ?_⟩
      · rintro s ⟨⟩
        rfl
      · rintro s ⟨⟩
        exact isValue_of_mem_optionalIndex hrule
      · rintro s ⟨⟩
        simp [State.fresh, State.new, StateKind.type_ofType]
      · rintro s ⟨⟩
        exact hlink.trans (congrArg StateType.hasLink (StateKind.type_ofType type).symm)
    dsimp only
    split
    next htype =>
      refine (Yields.map (P := fun link => link.isSome) some
        (Yields.int.mono fun _ _ => rfl)).bind fun link hlink => Yields.pure (hentry link ?_)
      rw [hlink, htype]
    next htype =>
      refine (Yields.pure (P := fun link => link = none) rfl).bind fun link hlink =>
        Yields.pure (hentry link ?_)
      rw [hlink, eq_false_of_ne_true htype]
      rfl

/-! ## Links -/

/-- The network that is made from the entries of the slots. -/
def startOf (net : Network) (entries : List SlotEntry) : Network :=
  { net with slots := (entries.map SlotEntry.state).toArray }

/-- The states that are made are those of the entries. -/
theorem state?_startOf (net : Network) (entries : List SlotEntry) (k : StateId) :
    (startOf net entries).state? k = entries[k]?.bind SlotEntry.state := by
  rw [Network.state?, startOf, List.getElem?_toArray, List.getElem?_map]
  cases entries[k]? <;> rfl

section

variable {net : Network} {entries : List SlotEntry}
  (hentries : ∀ k entry, entries[k]? = some entry → SlotEntryRead k entry)

include hentries

/-- The states that are made are nothing but their written parts, before the passes of the reader.
-/
theorem stated_startOf (k : StateId) :
    ∀ s ∈ (startOf net entries).state? k, (startOf net entries).Stated k s := by
  intro s hs
  have htype : ((startOf net entries).kind? k).map StateKind.type = some s.kind.type := by
    rw [Network.kind?, Option.mem_def.mp hs]
    rfl
  rw [state?_startOf] at hs
  obtain ⟨entry, hentry, hs⟩ := Option.bind_eq_some_iff.mp hs
  have hread := hentries k entry hentry
  have hfresh := hread.fresh s hs
  refine ⟨hread.number s hs, hread.rule s hs, ?_, htype, fun h => ?_⟩
  · rw [hfresh, State.written_fresh]
  · rw [hfresh] at h
    cases h

/-- Links are read for states of the network that can be linked. -/
theorem exists_of_mem_links {kinds : StateKind → Bool} {pair : StateId × Int}
    (h : pair ∈ links kinds entries) :
    ∃ s ∈ (startOf net entries).state? pair.1, kinds s.kind ∧ s.kind.type.hasLink := by
  obtain ⟨entry, hentry, hpair⟩ := List.mem_filterMap.mp h
  obtain ⟨k, hk⟩ := List.getElem?_of_mem hentry
  have hread := hentries k entry hk
  split at hpair
  next s number hs hnumber =>
    split at hpair
    next hkinds =>
      cases hpair
      refine ⟨s, ?_, hkinds, ?_⟩
      · rw [state?_startOf, hread.number s hs, hk]
        exact hs
      · rw [← hread.link s hs, hnumber]
        rfl
    · cases hpair
  · cases hpair

/-- For every state that can be linked a link is read. -/
theorem exists_mem_links {kinds : StateKind → Bool} {k : StateId} {s : State}
    (hs : s ∈ (startOf net entries).state? k) (hkinds : kinds s.kind) (hlink : s.kind.type.hasLink) :
    ∃ number, (k, number) ∈ links kinds entries := by
  rw [state?_startOf] at hs
  obtain ⟨entry, hentry, hs⟩ := Option.bind_eq_some_iff.mp hs
  have hread := hentries k entry hentry
  obtain ⟨number, hnumber⟩ := Option.isSome_iff_exists.mp ((hread.link s hs).trans hlink)
  refine ⟨number, List.mem_filterMap.mpr ⟨entry, List.mem_of_getElem? hentry, ?_⟩⟩
  rw [hs, hnumber]
  simp only [hkinds, hread.number s hs, if_true]

end

/-- A state that is linked to a state of the network. -/
def Linked (net : Network) (s : State) : Prop :=
  ∃ id, s.kind.writtenLink? = some id ∧ (net.state? id).isSome

/-- A pass over the links of some kinds links every state of these kinds, and other states stay
linked. -/
theorem linked_linkNumbers {net before after : Network} {entries : List SlotEntry}
    (hentries : ∀ k entry, entries[k]? = some entry → SlotEntryRead k entry)
    {kinds : StateKind → Bool} (done : StateKind → Bool) {f : StateId → StateKind → StateKind}
    (hkinds : ∀ kind : StateKind, kinds (.ofType kind.type) = kinds kind)
    (hf : ∀ kind id, kinds kind → kind.type.hasLink → kind.written = kind →
      (f id kind).type = kind.type ∧ (f id kind).written = f id kind ∧
        (f id kind).writtenLink? = some id)
    (hlive : ∀ k, (before.state? k).isSome = ((startOf net entries).state? k).isSome)
    (hbefore : ∀ k, ∀ s ∈ before.state? k, (startOf net entries).Stated k s ∧
      (done s.kind → s.kind.type.hasLink → Linked (startOf net entries) s))
    (h : before.linkNumbers f (links kinds entries) = .ok after) :
    Network.Revises (fun _ => ()) before after ∧
      ∀ k, ∀ s ∈ after.state? k, (startOf net entries).Stated k s ∧
        (done s.kind ∨ kinds s.kind → s.kind.type.hasLink → Linked (startOf net entries) s) := by
  obtain ⟨pairs, hpairs, h⟩ := bind_eq_ok.mp h
  cases h
  -- Each state still has the type with which it was made, and so plays the part of that state.
  have hstart : ∀ k s, (startOf net entries).Stated k s →
      ∃ s' ∈ (startOf net entries).state? k, s'.kind.type = s.kind.type ∧
        kinds s'.kind = kinds s.kind := by
    intro k s hs
    obtain ⟨kind, hkind, htype⟩ := Option.map_eq_some_iff.mp hs.type
    obtain ⟨s', hs', rfl⟩ := Network.kind?_eq_some.mp hkind
    exact ⟨s', hs', htype, by rw [← hkinds, htype, hkinds]⟩
  have hpair : ∀ pair ∈ pairs, ((startOf net entries).state? pair.2).isSome ∧
      ∃ s' ∈ (startOf net entries).state? pair.1, kinds s'.kind ∧ s'.kind.type.hasLink := by
    intro pair hmem
    obtain ⟨item, hitem, hfound⟩ := exists_of_mem_mapM_ok hpairs hmem
    obtain ⟨id, hid, hfound⟩ := bind_eq_ok.mp hfound
    cases hfound
    exact ⟨(hlive id).symm.trans (Network.resolve_eq_ok.mp hid).2,
      exists_of_mem_links hentries hitem⟩
  have hchange : ∀ pair ∈ pairs, ∀ s : State,
      ((startOf net entries).Stated pair.1 s ∧
        (done s.kind → s.kind.type.hasLink → Linked (startOf net entries) s)) →
      ((startOf net entries).Stated pair.1 (s.mapKind (f pair.2)) ∧
        (done (s.mapKind (f pair.2)).kind → (s.mapKind (f pair.2)).kind.type.hasLink →
          Linked (startOf net entries) (s.mapKind (f pair.2)))) ∧
      Linked (startOf net entries) (s.mapKind (f pair.2)) := by
    rintro pair hmem s ⟨hstated, -⟩
    obtain ⟨hid, s'', hs'', hkind, hlink⟩ := hpair pair hmem
    obtain ⟨s', hs', htype, hsame⟩ := hstart pair.1 s hstated
    cases hs'.symm.trans hs''
    have hown : s.kind.written = s.kind := congrArg State.kind hstated.written
    obtain ⟨hftype, hfwritten, hflink⟩ :=
      hf s.kind pair.2 (hsame ▸ hkind) (htype ▸ hlink) hown
    have hlinked : Linked (startOf net entries) (s.mapKind (f pair.2)) := ⟨pair.2, hflink, hid⟩
    exact ⟨⟨hstated.mapKind hftype hfwritten, fun _ _ => hlinked⟩, hlinked⟩
  refine ⟨Network.Revises.modifyEach fun _ _ _ => rfl, fun k s hs => ?_⟩
  obtain ⟨⟨hstated, hdone⟩, hnamed⟩ := Network.forall_modifyEach Prod.fst
    (fun pair : StateId × StateId => State.mapKind (f pair.2))
    (Q := fun _ s => Linked (startOf net entries) s) hbefore hchange k s hs
  refine ⟨hstated, fun hkind hlink => hkind.elim (fun h => hdone h hlink) fun hkind => ?_⟩
  obtain ⟨s', hs', htype, hsame⟩ := hstart k s hstated
  obtain ⟨number, hnumber⟩ := exists_mem_links hentries hs' (hsame.trans hkind) (htype ▸ hlink)
  obtain ⟨pair, hmem, hfound⟩ := exists_of_mem_of_mapM_ok hpairs hnumber
  obtain ⟨id, -, hfound⟩ := bind_eq_ok.mp hfound
  cases hfound
  exact hnamed ⟨_, hmem, rfl⟩

/-! ## The whole section -/

/-- What is known of a network once its links have been made: it has the slots with which it was
made, with states that can be written. -/
structure StatesMade (start result : Network) : Prop where
  revises : Network.Revises (fun _ => ()) start result
  states : ∀ k, ∀ s ∈ result.state? k,
    start.Stated k s ∧ (s.kind.type.hasLink → Linked start s)

/-- Marks on states that change neither types nor written links. -/
theorem StatesMade.modifyEach {start result : Network} (h : StatesMade start result)
    {change : StateId → State → State} {ids : List StateId}
    (hchange : ∀ id ∈ ids, ∀ s, start.Stated id s → start.Stated id (change id s) ∧
      (change id s).kind.writtenLink? = s.kind.writtenLink?) :
    StatesMade start (result.modifyEach id change ids) := by
  refine ⟨h.revises.trans (Network.Revises.modifyEach fun _ _ _ => rfl), fun k s hs => ?_⟩
  refine (Network.forall_modifyEach id change (Q := fun _ _ => True) h.states
    (fun id hid s hs => ⟨?_, trivial⟩) k s hs).1
  obtain ⟨hstated, hlink⟩ := hs
  obtain ⟨hnext, hsame⟩ := hchange id hid s hstated
  refine ⟨hnext, fun hhas => ?_⟩
  have htype := Option.some.inj (hnext.type.symm.trans hstated.type)
  obtain ⟨target, htarget, hlive⟩ := hlink (htype ▸ hhas)
  exact ⟨target, hsame.trans htarget, hlive⟩

/-- The states that are made can be written. -/
theorem StatesMade.writable {start result : Network} (h : StatesMade start result)
    (hsize : IsValue start.slots.size) : result.StatesWritable := by
  refine ⟨by rw [h.revises.size]; exact hsize, fun k s hs => (h.states k s hs).1.number,
    fun k s hs => (h.states k s hs).1.rule, fun k s hs hlink => ?_,
    fun k s hs => (h.states k s hs).1.nonGreedy⟩
  obtain ⟨id, hid, hlive⟩ := (h.states k s hs).2 hlink
  exact ⟨id, hid, (h.revises.keeps.isSome id).trans hlive⟩

/-- States that can play a role. -/
theorem yields_stateIds (net : Network) (role : StateRole) :
    Yields (counted (stateAs net role)) fun ids =>
      IsValue ids.length ∧ ∀ id ∈ ids, (net.kind? id).any role.admits :=
  Yields.counted (Yields.int.bind fun _ _ => Yields.ofResult fun _ h =>
    (Network.resolveAs_eq_ok.mp h).2)

/-- Each state that can play a role before marks are made can still play it. -/
theorem StatesMade.admits {start result : Network} (h : StatesMade start result)
    {role : StateRole} {id : StateId} (hid : (result.kind? id).any role.admits) {s : State}
    (hs : start.Stated id s) : role.admits s.kind := by
  cases hkind : result.kind? id with
  | none =>
    rw [hkind] at hid
    cases hid
  | some kind =>
    rw [hkind, Option.any_some] at hid
    obtain ⟨s', hs', rfl⟩ := Network.kind?_eq_some.mp hkind
    have htype := Option.some.inj ((h.states id s' hs').1.type.symm.trans hs.type)
    rwa [← StateKind.admits_of_type htype]

/-- Both passes over the links together link every state that is to be linked. -/
theorem statesMade_of_links {net looped linked : Network} {entries : List SlotEntry}
    (hentries : ∀ k entry, entries[k]? = some entry → SlotEntryRead k entry)
    (hlooped : (startOf net entries).linkNumbers .withLoopBack
      (links StateKind.isLoopEnd entries) = .ok looped)
    (hlinked : looped.linkNumbers .withBlockStop (links (!StateKind.isLoopEnd ·) entries) =
      .ok linked) :
    StatesMade (startOf net entries) linked := by
  have htype (kind : StateKind) : (StateKind.ofType kind.type).isLoopEnd = kind.isLoopEnd := by
    rw [StateKind.isLoopEnd_eq, StateKind.isLoopEnd_eq, StateKind.type_ofType]
  obtain ⟨hfirst, hloops⟩ := linked_linkNumbers hentries (fun _ => false) htype
    (fun kind id hkind _ _ => StateKind.withLoopBack_of_isLoopEnd hkind id) (fun _ => rfl)
    (fun k s hs => ⟨stated_startOf hentries k s hs, fun h => (by cases h)⟩) hlooped
  obtain ⟨hsecond, hall⟩ := linked_linkNumbers hentries StateKind.isLoopEnd
    (fun kind => congrArg Bool.not (htype kind))
    (fun kind id hkind hlink hwritten =>
      StateKind.withBlockStop_of_hasLink hlink (Bool.not_eq_true' _ ▸ hkind) hwritten id)
    (fun k => hfirst.keeps.isSome k)
    (fun k s hs => ⟨(hloops k s hs).1, fun h => (hloops k s hs).2 (Or.inr h)⟩) hlinked
  refine ⟨hfirst.trans hsecond, fun k s hs => ⟨(hall k s hs).1, (hall k s hs).2 ?_⟩⟩
  cases s.kind.isLoopEnd
  · exact Or.inr rfl
  · exact Or.inl rfl

/-- The section of the states yields states that can be written and that are nothing but their
written parts, and no tables. -/
theorem yields_states (revision : Revision) (net : Network) :
    Yields (states revision net) fun result => result.StatesWritable ∧
      (∀ k, ∀ s ∈ result.state? k, s.written = s) ∧ result.tables = net.tables := by
  refine Yields.count.bind fun n hn => (Yields.repeated yields_slot).bind fun entries hread => ?_
  obtain ⟨hlength, hentries⟩ := hread
  have hsize : IsValue (startOf net entries).slots.size := by
    rw [startOf, List.size_toArray, List.length_map, hlength]
    exact hn
  have hdone {result : Network} (h : StatesMade (startOf net entries) result) :
      result.StatesWritable ∧ (∀ k, ∀ s ∈ result.state? k, s.written = s) ∧
        result.tables = net.tables :=
    ⟨h.writable hsize, fun k s hs => (h.states k s hs).1.written, h.revises.tables⟩
  refine (Yields.ofResult (P := fun looped => _ = Except.ok looped) fun _ h => h).bind
    fun looped hlooped => ?_
  refine (Yields.ofResult (P := fun linked => _ = Except.ok linked) fun _ h => h).bind
    fun linked hlinked => (yields_stateIds linked .decision).bind fun leaving hleaving => ?_
  have hmade := statesMade_of_links hentries hlooped hlinked
  have hmarked : StatesMade (startOf net entries)
      (linked.modifyEach id (fun _ s => { s with nonGreedy := true }) leaving) := by
    apply hmade.modifyEach
    intro id hid s hs
    have hdecision := hmade.admits (hleaving.2 id hid) hs
    exact ⟨⟨hs.number, hs.rule, congrArg (fun s : State => { s with nonGreedy := true }) hs.written,
      hs.type, fun _ => hdecision⟩, rfl⟩
  dsimp only
  split
  · refine (yields_stateIds _ .ruleStart).bind fun precedence hprecedence =>
      Yields.pure (hdone (hmarked.modifyEach fun id _ s hs => ?_))
    have hkind : s.kind.written = s.kind := congrArg State.kind hs.written
    have hsame := StateKind.withPrecedence_of_written hkind
    exact ⟨hs.mapKind hsame.1 hsame.2.1, hsame.2.2⟩
  · exact Yields.pure (hdone hmarked)

end Stream

end TransitionNetwork
