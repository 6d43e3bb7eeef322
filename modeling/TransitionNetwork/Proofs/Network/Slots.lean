import Mathlib.Data.List.Basic
import TransitionNetwork.Network.Links
import TransitionNetwork.Network.PrecedenceLoops
import TransitionNetwork.Proofs.Sequences

/-!
# Networks slot by slot

Most steps of building a network change single states and leave the tables alone. Such a step is
described by what it does to the state in each slot, and two networks with the same tables are
equal if they agree in every slot. A step *keeps* a part of the states if that part is the same
in every slot before and after.
-/

namespace TransitionNetwork

namespace Network

/-- The tables of a network, without its states. -/
def tables (net : Network) : Network := { net with slots := #[] }

/-- The state of each number, as the slots hold them. -/
theorem getElem?_slots (net : Network) (k : StateId) :
    net.slots[k]? = if k < net.slots.size then some (net.state? k) else none := by
  rw [state?]
  split
  next hk => rw [Array.getElem?_eq_getElem hk]; rfl
  next hk => exact Array.getElem?_eq_none (Nat.le_of_not_lt hk)

/-- Networks with the same tables and the same states are equal. -/
theorem eq_of_state? {net net' : Network} (htables : net.tables = net'.tables)
    (hsize : net.slots.size = net'.slots.size) (hstate : ∀ k, net.state? k = net'.state? k) :
    net = net' := by
  have hslots : net.slots = net'.slots := by
    refine Array.ext_getElem? fun k => ?_
    rw [getElem?_slots, getElem?_slots, hsize, hstate]
  cases net
  cases net'
  simp only [tables, mk.injEq] at htables hslots ⊢
  simp only [htables, hslots, and_self]

/-- A state is in the list of states if it is in a slot. -/
theorem mem_states {net : Network} {s : State} : s ∈ net.states ↔ ∃ k, net.state? k = some s := by
  simp only [states, List.mem_filterMap, id_eq, exists_eq_right, Array.mem_toList_iff,
    Array.mem_iff_getElem?, state?]
  apply exists_congr
  intro k
  cases net.slots[k]? <;> simp

/-- No state is found behind the last slot. -/
theorem state?_eq_none {net : Network} {k : StateId} (h : net.slots.size ≤ k) :
    net.state? k = none := by
  rw [state?, Array.getElem?_eq_none h]
  rfl

/-- A state that is found is in one of the slots. -/
theorem lt_size_of_state? {net : Network} {k : StateId} {s : State} (h : net.state? k = some s) :
    k < net.slots.size := by
  by_contra hk
  rw [state?_eq_none (Nat.le_of_not_lt hk)] at h
  cases h

/-- The kind of a slot is that of the state in it. -/
theorem kind?_eq_some {net : Network} {k : StateId} {kind : StateKind} :
    net.kind? k = some kind ↔ ∃ s, net.state? k = some s ∧ s.kind = kind := Option.map_eq_some_iff

/-- A slot whose state has a kind with a property holds a state. -/
theorem isSome_of_any_kind? {net : Network} {id : StateId} {property : StateKind → Bool}
    (h : (net.kind? id).any property) : (net.state? id).isSome := by
  have hkind := Option.isSome_of_any h
  rwa [kind?, Option.isSome_map] at hkind

/-- Every state is in the slot of its number. -/
def Numbered (net : Network) : Prop := ∀ k s, net.state? k = some s → s.number = k

/-- Of the states in slots that are numbered in order, one has the number of its slot. -/
theorem filter_number_filterMap {slots : List (Option State)} {start : StateId}
    (h : ∀ (i : Nat) (s : State), slots[i]? = some (some s) → s.number = start + i) (k : Nat) :
    (slots.filterMap id).filter (·.number = start + k) = slots[k]?.join.toList := by
  induction slots generalizing start k with
  | nil => rfl
  | cons slot rest ih =>
    have hrest : ∀ (i : Nat) (s : State), rest[i]? = some (some s) → s.number = start + 1 + i := by
      intro i s hi
      rw [h (i + 1) s (by rwa [List.getElem?_cons_succ])]
      lia
    -- The states behind this slot have greater numbers.
    have hbehind : (rest.filterMap id).filter (·.number = start) = [] := by
      rw [List.filter_eq_nil_iff]
      intro s hs
      obtain ⟨slot', hslot, hsome⟩ := List.mem_filterMap.mp hs
      obtain ⟨i, hi⟩ := List.getElem?_of_mem hslot
      rw [id_eq] at hsome
      rw [decide_eq_true_eq, hrest i s (hsome ▸ hi)]
      lia
    cases k with
    | zero =>
      rw [Nat.add_zero, List.getElem?_cons_zero, Option.join_some]
      cases slot with
      | none => exact hbehind
      | some s =>
        have hs : s.number = start := h 0 s rfl
        change (s :: rest.filterMap id).filter _ = [s]
        rw [List.filter_cons_of_pos (by rw [hs, decide_eq_true_eq]), hbehind]
    | succ k =>
      have hk := ih hrest k
      rw [Nat.add_assoc, Nat.add_comm 1 k] at hk
      rw [List.getElem?_cons_succ, ← hk]
      cases slot with
      | none => rfl
      | some s =>
        have hs : s.number = start := h 0 s rfl
        change (s :: rest.filterMap id).filter _ = _
        rw [List.filter_cons_of_neg (by rw [decide_eq_true_eq]; lia)]

/-- At most one state has a number: the one in that slot. -/
theorem Numbered.filter_number {net : Network} (h : net.Numbered) (k : StateId) :
    net.states.filter (·.number = k) = (net.state? k).toList := by
  have hnumber := @filter_number_filterMap net.slots.toList 0
    (fun i s hi => by
      rw [Nat.zero_add]
      exact h i s (by rw [state?, ← Array.getElem?_toList, hi]; rfl)) k
  rwa [Nat.zero_add, Array.getElem?_toList] at hnumber

/-- Items that are made from states and name them are made, for each state, from that state. -/
theorem Numbered.filter_flatMap {net : Network} (h : net.Numbered) {β : Type}
    {f : State → List β} {key : β → StateId} (hkey : ∀ s, ∀ b ∈ f s, key b = s.number)
    (k : StateId) :
    (net.states.flatMap f).filter (key · = k) = (net.state? k).toList.flatMap f := by
  rw [← h.filter_number]
  induction net.states with
  | nil => rfl
  | cons s rest ih =>
    rw [List.flatMap_cons, List.filter_append, ih, List.filter_cons]
    by_cases hs : s.number = k
    · rw [if_pos (decide_eq_true hs), List.flatMap_cons, List.filter_eq_self.mpr fun b hb => ?_]
      exact decide_eq_true ((hkey s b hb).trans hs)
    · rw [if_neg (by simpa using hs), List.filter_eq_nil_iff.mpr fun b hb => ?_, List.nil_append]
      rw [hkey s b hb]
      simpa using hs

/-- What is made of the states and carries their numbers is found by number in the slot. -/
theorem Numbered.filter_filterMap {net : Network} (h : net.Numbered) {β : Type}
    {f : State → Option β} {key : β → StateId}
    (hkey : ∀ s b, f s = some b → key b = s.number) (k : StateId) :
    (net.states.filterMap f).filter (key · = k) = (net.state? k).toList.filterMap f := by
  rw [List.filterMap_eq_flatMap_toList, List.filterMap_eq_flatMap_toList]
  exact h.filter_flatMap (fun s b hb => hkey s b (Option.mem_toList.mp hb)) k

/-! ## Changing one state -/

/-- A step that changes one state leaves the others. -/
theorem state?_modifyState (net : Network) (id k : StateId) (f : State → State) :
    (net.modifyState id f).state? k = if id = k then (net.state? k).map f else net.state? k := by
  simp only [state?, modifyState, Array.getElem?_modify]
  split
  · cases net.slots[k]? <;> simp
  · rfl

/-- A step that changes one state takes no slot. -/
theorem size_modifyState (net : Network) (id : StateId) (f : State → State) :
    (net.modifyState id f).slots.size = net.slots.size := Array.size_modify

/-- A step that changes all states changes each in its slot. -/
theorem state?_mapStates (net : Network) (f : State → State) (k : StateId) :
    (net.mapStates f).state? k = (net.state? k).map f := by
  simp only [state?, mapStates, Array.getElem?_map]
  cases net.slots[k]? <;> simp

/-- A step that changes all states takes no slot. -/
theorem size_mapStates (net : Network) (f : State → State) :
    (net.mapStates f).slots.size = net.slots.size := Array.size_map ..

/-! ## Changing states one after the other -/

section

variable {β : Type} (key : β → StateId) (change : β → State → State)

/-- Change, for each item in order, the state that the item names. -/
def modifyEach (net : Network) (items : List β) : Network :=
  items.foldl (fun net b => net.modifyState (key b) (change b)) net

/-- A state undergoes the changes of the items that name it, in order. -/
theorem state?_modifyEach (net : Network) (items : List β) (k : StateId) :
    (net.modifyEach key change items).state? k =
      (net.state? k).map fun s => (items.filter (key · = k)).foldl (fun s b => change b s) s := by
  induction items generalizing net with
  | nil => simp [modifyEach]
  | cons b rest ih =>
    change ((net.modifyState (key b) (change b)).modifyEach key change rest).state? k = _
    rw [ih, state?_modifyState, List.filter_cons]
    by_cases hk : key b = k
    · simp [hk, Function.comp_def]
    · simp [hk]

/-- Changes of single states leave the tables. -/
theorem tables_modifyEach (net : Network) (items : List β) :
    (net.modifyEach key change items).tables = net.tables := by
  induction items generalizing net with
  | nil => rfl
  | cons b rest ih => exact ih (net.modifyState (key b) (change b))

/-- Changes of single states take no slot. -/
theorem size_modifyEach (net : Network) (items : List β) :
    (net.modifyEach key change items).slots.size = net.slots.size := by
  induction items generalizing net with
  | nil => rfl
  | cons b rest ih => exact (ih _).trans (net.size_modifyState (key b) (change b))

/-- A property of the states by number holds after the changes if each change keeps it, and
another one holds of the states that are changed if each change brings it about. -/
theorem forall_modifyEach {net : Network} {items : List β} {P Q : StateId → State → Prop}
    (hstart : ∀ k, ∀ s ∈ net.state? k, P k s)
    (hchange : ∀ b ∈ items, ∀ s, P (key b) s →
      P (key b) (change b s) ∧ Q (key b) (change b s)) (k : StateId) :
    ∀ s ∈ (net.modifyEach key change items).state? k,
      P k s ∧ ((∃ b ∈ items, key b = k) → Q k s) := by
  intro s' hs'
  rw [state?_modifyEach] at hs'
  obtain ⟨s, hs, rfl⟩ := Option.map_eq_some_iff.mp hs'
  have hnamed : (∃ b ∈ items, key b = k) ↔ items.filter (key · = k) ≠ [] := by
    rw [Ne, List.filter_eq_nil_iff]
    simp
  have hitems : ∀ b ∈ items.filter (key · = k), b ∈ items ∧ key b = k := fun b hb =>
    (List.mem_filter.mp hb).imp_right of_decide_eq_true
  rw [hnamed]
  have hproperty := hstart k s hs
  clear hnamed hs hs'
  generalize items.filter (key · = k) = own at hitems
  induction own generalizing s with
  | nil => exact ⟨hproperty, fun h => absurd rfl h⟩
  | cons b rest ih =>
    obtain ⟨⟨hb, rfl⟩, hrest⟩ := List.forall_mem_cons.mp hitems
    obtain ⟨hnext, hend⟩ := hchange b hb s hproperty
    obtain ⟨hlast, hlater⟩ := ih (change b s) hnext hrest
    refine ⟨hlast, fun _ => ?_⟩
    cases rest with
    | nil => exact hend
    | cons c others => exact hlater (List.cons_ne_nil c others)

/-- The lists of items may be exchanged if they change every state alike. -/
theorem modifyEach_congr (net : Network) {items items' : List β}
    (h : ∀ k s, net.state? k = some s →
      (items.filter (key · = k)).foldl (fun s b => change b s) s =
        (items'.filter (key · = k)).foldl (fun s b => change b s) s) :
    net.modifyEach key change items = net.modifyEach key change items' := by
  refine eq_of_state? ?_ ?_ fun k => ?_
  · rw [tables_modifyEach, tables_modifyEach]
  · rw [size_modifyEach, size_modifyEach]
  · rw [state?_modifyEach, state?_modifyEach]
    exact Option.map_congr fun s hs => h k s hs

end

/-- Linking states changes the first state of each pair. -/
theorem link_eq_modifyEach (net : Network) (f : StateId → StateKind → StateKind)
    (links : List (StateId × StateId)) :
    net.link f links = net.modifyEach Prod.fst (fun pair => State.mapKind (f pair.2)) links := rfl

/-- Adding transitions changes the state that each leaves. -/
theorem addTransitions_eq_modifyEach (net : Network) (edges : List (StateId × Transition)) :
    net.addTransitions edges = net.modifyEach Prod.fst (fun edge => (·.addTransition edge.2)) edges :=
  rfl

/-! ## Kept parts -/

/-- A part of the states is the same in every slot. -/
def Keeps {γ : Type} (part : State → γ) (net net' : Network) : Prop :=
  ∀ k, (net'.state? k).map part = (net.state? k).map part

namespace Keeps

variable {γ δ : Type} {part : State → γ} {net net' net'' : Network}

/-- A network keeps all parts of itself. -/
theorem refl (part : State → γ) (net : Network) : Keeps part net net := fun _ => rfl

/-- A part that two steps keep is kept by both together. -/
theorem trans (h : Keeps part net net') (h' : Keeps part net' net'') : Keeps part net net'' :=
  fun k => (h' k).trans (h k)

/-- A part of a kept part is kept. -/
theorem comp (h : Keeps part net net') (f : γ → δ) : Keeps (fun s => f (part s)) net net' := by
  intro k
  have hk := congrArg (Option.map f) (h k)
  rwa [Option.map_map, Option.map_map] at hk

/-- A step that keeps a part keeps the slots in which states are. -/
theorem isSome (h : Keeps part net net') (k : StateId) :
    (net'.state? k).isSome = (net.state? k).isSome := by
  rw [← Option.isSome_map (f := part), h k, Option.isSome_map]

/-- Each state stems from one with the same part. -/
theorem exists_of_state? (h : Keeps part net net') {k : StateId} {s' : State}
    (hs' : net'.state? k = some s') : ∃ s, net.state? k = some s ∧ part s' = part s := by
  have hk := h k
  rw [hs', Option.map_some] at hk
  obtain ⟨s, hs, heq⟩ := Option.map_eq_some_iff.mp hk.symm
  exact ⟨s, hs, heq.symm⟩

/-- The network before a step has the part that was kept. -/
theorem symm (h : Keeps part net net') : Keeps part net' net := fun k => (h k).symm

/-- A step that leaves all states keeps every part. -/
theorem of_eq (h : ∀ k, net'.state? k = net.state? k) : Keeps part net net' := fun k => by rw [h]

/-- A step that changes one state keeps what the change leaves. -/
theorem modifyState (net : Network) {id : StateId} {f : State → State}
    (h : ∀ s, part (f s) = part s) : Keeps part net (net.modifyState id f) := by
  intro k
  rw [state?_modifyState]
  split
  · rw [Option.map_map]
    exact Option.map_congr fun s _ => h s
  · rfl

/-- A step that changes all states keeps what the change leaves. -/
theorem mapStates {f : State → State} (h : ∀ s ∈ net.states, part (f s) = part s) :
    Keeps part net (net.mapStates f) := by
  intro k
  rw [state?_mapStates, Option.map_map]
  exact Option.map_congr fun s hs => h s (mem_states.mpr ⟨k, hs⟩)

/-- Changes keep a part if each keeps it on the states with a property that holds of the states
that they name and is itself kept. -/
theorem modifyEach_of {β : Type} {key : β → StateId} {change : β → State → State}
    {items : List β} (property : State → Prop)
    (hstart : ∀ b ∈ items, ∀ s, net.state? (key b) = some s → property s)
    (hchange : ∀ b ∈ items, ∀ s, property s →
      property (change b s) ∧ part (change b s) = part s) :
    Keeps part net (net.modifyEach key change items) := by
  intro k
  rw [state?_modifyEach, Option.map_map]
  apply Option.map_congr
  intro s hs
  have hitems : ∀ b ∈ items.filter (key · = k), b ∈ items ∧ property s := by
    intro b hb
    obtain ⟨hb, hkey⟩ := List.mem_filter.mp hb
    exact ⟨hb, hstart b hb s (by rw [of_decide_eq_true hkey]; exact hs)⟩
  rw [Function.comp_apply]
  generalize items.filter (key · = k) = named at hitems
  clear hs
  induction named generalizing s with
  | nil => rfl
  | cons b rest ih =>
    obtain ⟨⟨hb, hproperty⟩, hrest⟩ := List.forall_mem_cons.mp hitems
    obtain ⟨hnext, hpart⟩ := hchange b hb s hproperty
    rw [List.foldl_cons, ih (change b s) fun c hc => ⟨(hrest c hc).1, hnext⟩, hpart]

/-- Changes of single states keep what each of them leaves. -/
theorem modifyEach {β : Type} {key : β → StateId} {change : β → State → State} {items : List β}
    (h : ∀ b ∈ items, ∀ s, part (change b s) = part s) :
    Keeps part net (net.modifyEach key change items) :=
  modifyEach_of (fun _ => True) (fun _ _ _ _ => trivial) fun b hb s _ => ⟨trivial, h b hb s⟩

/-- A part that is kept in every slot is the same state by state in the list of states. -/
theorem map_states (h : Keeps part net net') (hsize : net'.slots.size = net.slots.size) :
    net'.states.map part = net.states.map part := by
  have hslots : net'.slots.toList.map (Option.map part) =
      net.slots.toList.map (Option.map part) := by
    refine List.ext_getElem? fun k => ?_
    rw [List.getElem?_map, List.getElem?_map, Array.getElem?_toList, Array.getElem?_toList,
      getElem?_slots, getElem?_slots, hsize]
    split
    · exact congrArg some (h k)
    · rfl
  have hstates (net : Network) :
      net.states.map part = (net.slots.toList.map (Option.map part)).filterMap id := by
    rw [states, List.map_filterMap, List.filterMap_map]
    rfl
  rw [hstates, hstates, hslots]

/-- Numbers that are kept stay the numbers of their slots. -/
theorem numbered (h : Keeps State.number net net') (hnet : net.Numbered) : net'.Numbered := by
  intro k s' hs'
  obtain ⟨s, hs, heq⟩ := h.exists_of_state? hs'
  rw [heq, hnet k s hs]

end Keeps

/-- The same tables and slots, and a part of the states that is kept. -/
structure Revises {γ : Type} (part : State → γ) (net net' : Network) : Prop where
  tables : net'.tables = net.tables
  size : net'.slots.size = net.slots.size
  keeps : Keeps part net net'

namespace Revises

variable {γ : Type} {part : State → γ} {net net' net'' : Network}

/-- Doing nothing leaves the tables and every part of the states. -/
theorem refl (part : State → γ) (net : Network) : Revises part net net :=
  ⟨rfl, rfl, Keeps.refl part net⟩

/-- What each of two steps leaves is left by both together. -/
theorem trans (h : Revises part net net') (h' : Revises part net' net'') :
    Revises part net net'' :=
  ⟨h'.tables.trans h.tables, h'.size.trans h.size, h.keeps.trans h'.keeps⟩

/-- Changes of states with a property leave the tables, and the part that each keeps if it keeps
the property. -/
theorem modifyEach_of {β : Type} {key : β → StateId} {change : β → State → State}
    {items : List β} (property : State → Prop)
    (hstart : ∀ b ∈ items, ∀ s, net.state? (key b) = some s → property s)
    (hchange : ∀ b ∈ items, ∀ s, property s →
      property (change b s) ∧ part (change b s) = part s) :
    Revises part net (net.modifyEach key change items) :=
  ⟨net.tables_modifyEach key change items, net.size_modifyEach key change items,
    Keeps.modifyEach_of property hstart hchange⟩

/-- Changes of single states leave the tables, and the part that each of them keeps. -/
theorem modifyEach {β : Type} {key : β → StateId} {change : β → State → State} {items : List β}
    (h : ∀ b ∈ items, ∀ s, part (change b s) = part s) :
    Revises part net (net.modifyEach key change items) :=
  ⟨net.tables_modifyEach key change items, net.size_modifyEach key change items,
    Keeps.modifyEach h⟩

/-- A change of all states leaves the tables, and the part that it keeps. -/
theorem mapStates {f : State → State} (h : ∀ s ∈ net.states, part (f s) = part s) :
    Revises part net (net.mapStates f) := ⟨rfl, net.size_mapStates f, Keeps.mapStates h⟩

/-- Steps that can fail keep what each of them keeps. -/
theorem foldlM {β : Type} {step : Network → β → Except LoadError Network} {items : List β}
    (hstep : ∀ net net' b, step net b = .ok net' → Revises part net net')
    (h : items.foldlM step net = .ok net') : Revises part net net' := by
  induction items generalizing net with
  | nil =>
    rw [List.foldlM_nil] at h
    cases h
    exact refl part _
  | cons b rest ih =>
    rw [List.foldlM_cons] at h
    obtain ⟨next, hb, hrest⟩ := bind_eq_ok.mp h
    exact (hstep net next b hb).trans (ih hrest)

end Revises

end Network

end TransitionNetwork
