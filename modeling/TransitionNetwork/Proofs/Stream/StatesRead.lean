import TransitionNetwork.Proofs.Stream.Entries

/-!
# Reading the states back

The section of the states is read back as the written parts of the states, slot by slot. Each
pass of the reader behind the slots themselves, over links, loops that prefer to end and rules
with precedence levels, changes a state by what was written for that very state.
-/

namespace TransitionNetwork

/-- The written part of a kind has its written link. -/
theorem StateKind.writtenLink?_written (kind : StateKind) :
    kind.written.writtenLink? = kind.writtenLink? := by
  rcases kind with _ | _ | _ | ⟨_ | _ | _, _⟩ | _ | _ | _ | _ | _ | _ <;> rfl

/-- No link is written for types that have none. -/
theorem StateKind.writtenLink?_eq_none {kind : StateKind} (h : kind.type.hasLink = false) :
    kind.writtenLink? = none := by
  rcases kind with _ | _ | _ | ⟨_ | _ | _, _⟩ | _ | _ | _ | _ | _ | _ <;> first | rfl | cases h

namespace Network

/-! ## What the states have to keep -/

/-- The part of a network that the section of its states holds. -/
def stated (net : Network) : Network where
  grammar := net.grammar
  maxTokenType := net.maxTokenType
  slots := net.slots.map (Option.map State.written)
  decisions := []
  ruleStarts := []
  ruleStops := []
  modeStarts := []
  ruleTokenTypes := []
  lexerActions := []

/-- The section of the states holds the written part of each state. -/
theorem state?_stated (net : Network) (k : StateId) :
    net.stated.state? k = (net.state? k).map State.written := net.state?_mapStates State.written k

/-- The section of the states holds as many slots. -/
theorem size_stated (net : Network) : net.stated.slots.size = net.slots.size :=
  net.size_mapStates State.written

/-- Networks whose states can be written: numbers fit into units, every block start and loop end
is linked to a state, and only decision states prefer to end. -/
structure StatesWritable (net : Network) : Prop where
  size : Stream.IsValue net.slots.size
  numbered : net.Numbered
  rule : ∀ k, ∀ s ∈ net.state? k, ∀ r ∈ s.rule, Stream.IsValue r
  link : ∀ k, ∀ s ∈ net.state? k, s.kind.type.hasLink →
    ∃ id, s.kind.writtenLink? = some id ∧ (net.state? id).isSome
  nonGreedy : ∀ k, ∀ s ∈ net.state? k, s.nonGreedy → s.kind.isDecision

/-- Which states can be written depends on their written parts. -/
theorem StatesWritable.of_keeps {net net' : Network} (h : net.StatesWritable)
    (hsize : net'.slots.size = net.slots.size) (hkeeps : Keeps State.written net net') :
    net'.StatesWritable := by
  refine ⟨by rw [hsize]; exact h.size, hkeeps.number.numbered h.numbered, ?_, ?_, ?_⟩
  · intro k s' hs' r hr
    obtain ⟨s, hs, hwritten⟩ := hkeeps.exists_of_state? hs'
    have hrule : s'.written.rule = s.written.rule := congrArg State.rule hwritten
    exact h.rule k s hs r (hrule.symm.trans hr)
  · intro k s' hs' hlink
    obtain ⟨s, hs, hwritten⟩ := hkeeps.exists_of_state? hs'
    have hkind : s'.kind.written = s.kind.written := congrArg State.kind hwritten
    rw [← StateKind.type_written, hkind, StateKind.type_written] at hlink
    obtain ⟨id, hid, hlive⟩ := h.link k s hs hlink
    refine ⟨id, ?_, (hkeeps.isSome id).trans hlive⟩
    rw [← StateKind.writtenLink?_written, hkind, StateKind.writtenLink?_written, hid]
  · intro k s' hs' hnonGreedy
    obtain ⟨s, hs, hwritten⟩ := hkeeps.exists_of_state? hs'
    have hflag : s'.written.nonGreedy = s.written.nonGreedy :=
      congrArg State.nonGreedy hwritten
    have hkind : s'.kind.written = s.kind.written := congrArg State.kind hwritten
    have htype : s'.kind.type = s.kind.type := by
      rw [← StateKind.type_written, hkind, StateKind.type_written]
    exact (StateKind.admits_of_type htype .decision).trans
      (h.nonGreedy k s hs (hflag.symm.trans hnonGreedy))

/-! ## Changes by the states themselves -/

/-- Changes by items that are made from the states, each naming the state that it is made from,
change every state by its own item. -/
theorem state?_modifyEach_states {net net' : Network} (hnumbered : net.Numbered) {β : Type}
    {key : β → StateId} {change : β → State → State} {f : State → Option β} {g g' : State → State}
    (hkey : ∀ s b, f s = some b → key b = s.number)
    (hstart : ∀ k, net'.state? k = (net.state? k).map g)
    (hchange : ∀ k, ∀ s ∈ net.state? k, (f s).elim (g s) (fun b => change b (g s)) = g' s)
    (k : StateId) :
    (net'.modifyEach key change (net.states.filterMap f)).state? k = (net.state? k).map g' := by
  rw [state?_modifyEach, hstart, Option.map_map, hnumbered.filter_filterMap hkey]
  apply Option.map_congr
  intro s hs
  rw [← hchange k s hs, hs, Function.comp_apply, Option.toList_some, List.filterMap_cons,
    List.filterMap_nil]
  cases f s <;> rfl

/-- The numbers of the states with a property. -/
def idsOf (net : Network) (property : State → Bool) : List StateId :=
  net.states.filterMap fun s => if property s then some s.number else none

/-- The links that are written for states whose kinds have a property. -/
def linksOf (net : Network) (kinds : StateKind → Bool) : List (StateId × StateId) :=
  net.states.filterMap fun s =>
    if kinds s.kind then s.kind.writtenLink?.map fun id => (s.number, id) else none

/-- What a state contributes to the numbers is its own. -/
theorem number_of_ids {s : State} {property : Bool} {id : StateId}
    (h : (if property then some s.number else none) = some id) : id = s.number := by
  split at h <;> cases h
  rfl

/-- The numbers are those of the states with the property. -/
theorem mem_idsOf {net : Network} (h : net.Numbered) {property : State → Bool} {id : StateId} :
    id ∈ net.idsOf property ↔ ∃ s, net.state? id = some s ∧ property s := by
  rw [idsOf, List.mem_filterMap]
  constructor
  · rintro ⟨s, hs, hid⟩
    obtain ⟨k, hk⟩ := mem_states.mp hs
    split at hid
    next hproperty =>
      cases hid
      exact ⟨s, (h k s hk).symm ▸ hk, hproperty⟩
    · cases hid
  · rintro ⟨s, hs, hproperty⟩
    refine ⟨s, mem_states.mpr ⟨id, hs⟩, ?_⟩
    rw [if_pos hproperty, h id s hs]

/-- What a state contributes to the links is from itself. -/
theorem number_of_links {s : State} {property : Bool} {pair : StateId × StateId}
    (h : (if property then s.kind.writtenLink?.map fun id => (s.number, id) else none) =
      some pair) : pair.1 = s.number := by
  split at h
  · obtain ⟨id, -, rfl⟩ := Option.map_eq_some_iff.mp h
    rfl
  · cases h

/-- There are no more states with a property than slots. -/
theorem length_idsOf_le (net : Network) (property : State → Bool) :
    (net.idsOf property).length ≤ net.slots.size := by
  rw [idsOf, states, ← Array.length_toList]
  exact (List.length_filterMap_le _ _).trans (List.length_filterMap_le _ _)

end Network

open Stream.Decoder

namespace Stream

/-! ## Lists of states -/

/-- What is written for a property are the numbers of the states with it. -/
theorem numbersOf_eq_map (net : Network) (property : State → Bool) :
    numbersOf net property = (net.idsOf property).map natValue := by
  rw [numbersOf, Network.idsOf]
  induction net.states with
  | nil => rfl
  | cons s rest ih =>
    rw [List.filter_cons, List.filterMap_cons]
    cases property s
    · exact ih
    · exact congrArg (natValue s.number :: ·) ih

/-- A list of items of one value each. -/
theorem reads_listValues {α : Type} {d : Decoder α} {items : List α} {value : α → Int}
    (hlength : IsValue items.length) (h : ∀ a ∈ items, Reads d [value a] a) :
    Reads (counted d) (listValues (items.map value)) items := by
  have hitems := Reads.counted (f := id) hlength h
  rwa [List.map_id, ← List.map_eq_flatMap, ← List.length_map (f := value)] at hitems

/-- A list of the numbers of states that can play a role. -/
theorem reads_stateIds {net : Network} {role : StateRole} {ids : List StateId}
    (hsize : IsValue net.slots.size) (hlength : IsValue ids.length)
    (h : ∀ id ∈ ids, (net.kind? id).any role.admits) :
    Reads (counted (stateAs net role)) (listValues (ids.map natValue)) ids := by
  apply reads_listValues hlength
  intro id hid
  have hresolve := Network.resolveAs_eq_ok.mpr ⟨rfl, h id hid⟩
  have hlive := Network.isSome_of_any_kind? (h id hid)
  exact (Reads.int (isValue_of_isSome hsize hlive)).bind_end (Reads.ofResult hresolve)

/-! ## Links -/

/-- What the entries of the slots say about links is what the states say. -/
theorem links_slotEntries {net : Network} (h : net.StatesWritable) {kinds : StateKind → Bool}
    (hkinds : ∀ kind : StateKind, kinds (.ofType kind.type) = kinds kind) :
    links kinds (net.slots.toList.map slotEntry) =
      (net.linksOf kinds).map fun pair => (pair.1, natValue pair.2) := by
  rw [links, Network.linksOf, Network.states, List.filterMap_map, List.filterMap_filterMap,
    List.map_filterMap]
  apply List.filterMap_congr
  intro slot hslot
  rw [Function.comp_apply]
  cases slot with
  | none => rfl
  | some s =>
    obtain ⟨k, hk⟩ := List.getElem?_of_mem hslot
    have hs : net.state? k = some s := by
      rw [Network.state?, ← Array.getElem?_toList, hk]
      rfl
    cases hlink : s.kind.type.hasLink with
    | false =>
      have hentry : slotEntry (some s) = ⟨some s.fresh, none⟩ := by
        rw [slotEntry, hlink]
        rfl
      rw [hentry, id_eq, Option.bind_some, StateKind.writtenLink?_eq_none hlink, Option.map_none,
        ite_self]
      rfl
    | true =>
      obtain ⟨target, htarget, -⟩ := h.link k s hs hlink
      have hentry : slotEntry (some s) = ⟨some s.fresh, some (natValue target)⟩ := by
        rw [slotEntry, hlink, htarget]
        rfl
      rw [hentry, id_eq, Option.bind_some, htarget]
      change (if kinds (.ofType s.kind.type) then _ else _) = _
      rw [hkinds]
      cases kinds s.kind <;> rfl

/-- Links to states of the network are made. -/
theorem linkNumbers_eq_ok {net : Network} {f : StateId → StateKind → StateKind}
    {pairs : List (StateId × StateId)} (h : ∀ pair ∈ pairs, (net.state? pair.2).isSome) :
    net.linkNumbers f (pairs.map fun pair => (pair.1, natValue pair.2)) =
      .ok (net.link f pairs) := by
  rw [Network.linkNumbers, List.mapM_map, mapM_eq_pure (g := id) fun pair hpair => ?_]
  · rw [List.map_id]
    rfl
  · change (net.resolve (natValue pair.2) >>= _) = _
    rw [resolve_natValue (h pair hpair)]
    rfl

/-! ## The whole section -/

/-- Every link of the network leads to a state. -/
theorem isSome_of_mem_linksOf {net : Network} (h : net.StatesWritable) {kinds : StateKind → Bool} :
    ∀ pair ∈ net.linksOf kinds, (net.state? pair.2).isSome := by
  intro pair hpair
  obtain ⟨s, hs, hpair⟩ := List.mem_filterMap.mp hpair
  obtain ⟨k, hk⟩ := Network.mem_states.mp hs
  split at hpair
  · obtain ⟨target, htarget, rfl⟩ := Option.map_eq_some_iff.mp hpair
    by_cases hlink : s.kind.type.hasLink
    · obtain ⟨id, hid, hlive⟩ := h.link k s hk hlink
      rw [hid, Option.some.injEq] at htarget
      exact htarget ▸ hlive
    · rw [StateKind.writtenLink?_eq_none (Bool.not_eq_true _ ▸ hlink)] at htarget
      cases htarget
  · cases hpair

/-- The slots of the section of the states. -/
theorem reads_slots {net : Network} (h : net.StatesWritable) :
    Reads (repeated net.slots.size Decoder.slot) (net.slots.toList.flatMap slotValues)
      (net.slots.toList.map slotEntry) := by
  rw [← Array.length_toList]
  apply Reads.repeated
  intro k slot hk
  have hstate : ∀ s ∈ slot, net.state? k = some s := by
    rintro s rfl
    rw [Network.state?, ← Array.getElem?_toList, hk]
    rfl
  refine reads_slot (fun s hs => h.numbered k s (hstate s hs))
    (fun s hs => h.rule k s (hstate s hs)) fun s hs id hid => ?_
  by_cases hlink : s.kind.type.hasLink
  · obtain ⟨target, htarget, hlive⟩ := h.link k s (hstate s hs) hlink
    rw [htarget, Option.mem_some_iff] at hid
    exact hid ▸ isValue_of_isSome h.size hlive
  · rw [StateKind.writtenLink?_eq_none (Bool.not_eq_true _ ▸ hlink)] at hid
    cases hid

end Stream

/-! ## The passes of the reader -/

/-- A state whose slot has been read and that has been linked to a closing state. -/
def State.looped (s : State) : State :=
  s.fresh.mapKind fun kind => if s.kind.isLoopEnd then s.kind else kind

/-- A state whose slot has been read with its link. -/
def State.linked (s : State) : State :=
  s.fresh.mapKind fun kind => if s.kind.type.hasLink then s.kind.written else kind

/-- Linking a state leaves its type. -/
theorem State.type_linked (s : State) : s.linked.kind.type = s.kind.type := by
  rw [linked, fresh, mapKind]
  split
  · exact s.kind.type_written
  · exact StateKind.type_ofType s.kind.type

namespace Network

/-- The network of the states as their slots are read. -/
def freshStates (net : Network) : Network :=
  { net.stated with
    slots := ((net.slots.toList.map Stream.slotEntry).map Stream.Decoder.SlotEntry.state).toArray }

/-- The network of the states with their links to closing states. -/
def loopedStates (net : Network) : Network :=
  net.freshStates.link .withLoopBack (net.linksOf StateKind.isLoopEnd)

/-- The network of the states with all their links. -/
def linkedStates (net : Network) : Network :=
  net.loopedStates.link .withBlockStop (net.linksOf (!StateKind.isLoopEnd ·))

/-- The network of the linked states, of which some prefer to end. -/
def leavingStates (net : Network) : Network :=
  net.linkedStates.modifyEach id (fun _ s => { s with nonGreedy := true })
    (net.idsOf fun s => s.kind.isDecision && s.nonGreedy)

variable {net : Network}

/-- As their slots are read, the states are as they are made. -/
theorem state?_freshStates (k : StateId) :
    net.freshStates.state? k = (net.state? k).map State.fresh := by
  rw [state?, state?, freshStates, List.getElem?_toArray, List.map_map, List.getElem?_map,
    Array.getElem?_toList]
  rcases net.slots[k]? with _ | _ | s <;> rfl

/-- Once closing states are linked, each state has its link to one. -/
theorem state?_loopedStates (h : net.Numbered) (k : StateId) :
    net.loopedStates.state? k = (net.state? k).map State.looped := by
  refine state?_modifyEach_states h (fun s pair => number_of_links) state?_freshStates
    (fun k s _ => ?_) k
  obtain ⟨number, rule, kind⟩ := s
  rcases kind with _ | _ | _ | ⟨_ | _ | _, _⟩ | _ | _ | _ | _ | ⟨_ | _⟩ | _ <;> rfl

/-- Once all links are made, each state has its link. -/
theorem state?_linkedStates (h : net.Numbered) (k : StateId) :
    net.linkedStates.state? k = (net.state? k).map State.linked := by
  refine state?_modifyEach_states h (fun s pair => number_of_links) (state?_loopedStates h)
    (fun k s _ => ?_) k
  obtain ⟨number, rule, kind⟩ := s
  rcases kind with _ | _ | _ | ⟨_ | _ | _, _ | _⟩ | _ | _ | _ | _ | _ | _ <;> rfl

/-- Once the states that prefer to end are marked, all that is written of the states is there. -/
theorem state?_leavingStates (h : net.StatesWritable) (k : StateId) :
    net.leavingStates.state? k =
      (net.state? k).map fun s => { s.linked with nonGreedy := s.nonGreedy } := by
  refine state?_modifyEach_states h.numbered (fun s id => number_of_ids)
    (state?_linkedStates h.numbered) (fun k s hs => ?_) k
  have hflag : (s.kind.isDecision && s.nonGreedy) = s.nonGreedy := by
    rw [Bool.and_eq_right_iff_imp]
    exact h.nonGreedy k s hs
  change Option.elim (if s.kind.isDecision && s.nonGreedy then _ else _) _ _ = _
  rw [hflag]
  cases s.nonGreedy <;> rfl

/-- After the last pass every state has its written part. -/
theorem modifyEach_leavingStates (h : net.StatesWritable) :
    net.leavingStates.modifyEach id (fun _ => State.mapKind .withPrecedence)
      (net.idsOf fun s => s.kind.hasPrecedence) = net.stated := by
  refine eq_of_state? ?_ ?_ fun k => ?_
  · rw [tables_modifyEach, leavingStates, tables_modifyEach, linkedStates, link_eq_modifyEach,
      tables_modifyEach, loopedStates, link_eq_modifyEach, tables_modifyEach]
    rfl
  · rw [size_modifyEach, leavingStates, size_modifyEach, linkedStates, link_eq_modifyEach,
      size_modifyEach, loopedStates, link_eq_modifyEach, size_modifyEach, size_stated, freshStates]
    simp
  · rw [state?_stated]
    refine state?_modifyEach_states h.numbered (fun s id => number_of_ids)
      (state?_leavingStates h) (fun k s _ => ?_) k
    obtain ⟨number, rule, kind⟩ := s
    rcases kind with _ | ⟨_, _ | _⟩ | _ | ⟨_ | _ | _, _⟩ | _ | _ | _ | _ | _ | _ <;> rfl

/-- Linking states takes no slot. -/
theorem size_linkedStates : net.linkedStates.slots.size = net.slots.size := by
  rw [linkedStates, link_eq_modifyEach, size_modifyEach, loopedStates, link_eq_modifyEach,
    size_modifyEach, freshStates]
  simp

/-- Marking the states that prefer to end takes no slot. -/
theorem size_leavingStates : net.leavingStates.slots.size = net.slots.size := by
  rw [leavingStates, size_modifyEach, size_linkedStates]

end Network

namespace Stream

/-- The links of the entries are made in every network with states in the same slots. -/
theorem linkNumbers_slotEntries {net base : Network} (h : net.StatesWritable)
    (hlive : ∀ k, (base.state? k).isSome = (net.state? k).isSome) {kinds : StateKind → Bool}
    (hkinds : ∀ kind : StateKind, kinds (.ofType kind.type) = kinds kind)
    (f : StateId → StateKind → StateKind) :
    base.linkNumbers f (links kinds (net.slots.toList.map slotEntry)) =
      .ok (base.link f (net.linksOf kinds)) := by
  rw [links_slotEntries h hkinds]
  exact linkNumbers_eq_ok fun pair hpair =>
    (hlive pair.2).trans (isSome_of_mem_linksOf h pair hpair)

/-- What a property of the states lets them be, they can be in every network where they have the
same types. -/
theorem admits_of_mem_idsOf {net base : Network} (hnumbered : net.Numbered) {view : State → State}
    (hview : ∀ k, base.state? k = (net.state? k).map view)
    (htype : ∀ s, (view s).kind.type = s.kind.type) {property : State → Bool} {role : StateRole}
    (hrole : ∀ s, property s → role.admits s.kind) :
    ∀ id ∈ net.idsOf property, (base.kind? id).any role.admits := by
  intro id hid
  obtain ⟨s, hs, hproperty⟩ := (Network.mem_idsOf hnumbered).mp hid
  rw [Network.kind?, hview, hs]
  exact (StateKind.admits_of_type (htype s) role).trans (hrole s hproperty)

/-- The section of the states holds the written part of every state. -/
theorem reads_states {net : Network} (h : net.StatesWritable) :
    Reads (states .newest { net.stated with slots := #[] }) (stateSection .newest net)
      net.stated := by
  have hcount {property : State → Bool} : IsValue (net.idsOf property).length := by
    have hle := net.length_idsOf_le property
    have hsize := h.size.2
    exact ⟨by lia, by lia⟩
  have hloopEnd (kind : StateKind) : (StateKind.ofType kind.type).isLoopEnd = kind.isLoopEnd := by
    rw [StateKind.isLoopEnd_eq, StateKind.isLoopEnd_eq, StateKind.type_ofType]
  have hloops : net.freshStates.linkNumbers .withLoopBack
      (links StateKind.isLoopEnd (net.slots.toList.map slotEntry)) = .ok net.loopedStates :=
    linkNumbers_slotEntries h (fun k => by rw [Network.state?_freshStates, Option.isSome_map])
      hloopEnd _
  have hblocks : net.loopedStates.linkNumbers .withBlockStop
      (links (!StateKind.isLoopEnd ·) (net.slots.toList.map slotEntry)) = .ok net.linkedStates :=
    linkNumbers_slotEntries h
      (fun k => by rw [Network.state?_loopedStates h.numbered, Option.isSome_map])
      (fun kind => congrArg (! ·) (hloopEnd kind)) _
  have hleaving : ∀ id ∈ net.idsOf (fun s => s.kind.isDecision && s.nonGreedy),
      (net.linkedStates.kind? id).any StateRole.decision.admits :=
    admits_of_mem_idsOf h.numbered (Network.state?_linkedStates h.numbered) State.type_linked
      fun _ hproperty => (Bool.and_eq_true_iff.mp hproperty).1
  have hprecedence : ∀ id ∈ net.idsOf (fun s => s.kind.hasPrecedence),
      (net.leavingStates.kind? id).any StateRole.ruleStart.admits := by
    refine admits_of_mem_idsOf h.numbered (Network.state?_leavingStates h) State.type_linked
      fun s hproperty => ?_
    generalize s.kind = kind at hproperty
    cases kind <;> first | rfl | cases hproperty
  have hleavingIds := reads_stateIds (by rw [Network.size_linkedStates]; exact h.size) hcount
    hleaving
  have hprecedenceIds := reads_stateIds (by rw [Network.size_leavingStates]; exact h.size) hcount
    hprecedence
  rw [stateSection, numbersOf_eq_map, numbersOf_eq_map, List.append_assoc, ← List.singleton_append,
    List.append_assoc]
  -- The passes of the reader, in order: the slots, both sorts of links and both lists of numbers.
  refine (Reads.count h.size).bind ((reads_slots h).bind ((Reads.ofResult hloops).bind_nil
    ((Reads.ofResult hblocks).bind_nil (hleavingIds.bind ?_))))
  rw [← Network.modifyEach_leavingStates h]
  exact hprecedenceIds.bind_end (Reads.pure _)

end Stream

end TransitionNetwork
