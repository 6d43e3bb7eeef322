import TransitionNetwork.Proofs.Network.ActionPayloads

/-!
# The written part of states

A stream states of each state its kind with the links from block starts and loop ends, its rule,
and whether it prefers to end or has precedence levels. This part of the states is kept by every
later step of loading: rule stops, transitions, block and loop links, decisions, actions and
precedence marks are all added beside it. References resolve alike as long as it is kept.
-/

namespace TransitionNetwork

/-- The part of a kind that a stream states. -/
def StateKind.written : StateKind → StateKind
  | ruleStart _ hasPrecedence => ruleStart none hasPrecedence
  | blockStart (.plus _) stop => blockStart (.plus none) stop
  | blockEnd _ => blockEnd none
  | starLoopEntry _ _ => starLoopEntry none false
  | kind => kind

/-- The part of a state that a stream states apart from transitions and decision numbers. -/
def State.written (s : State) : State :=
  { State.new s.kind.written s.rule with number := s.number, nonGreedy := s.nonGreedy }

/-- A state without its kind. -/
def State.withoutKind (s : State) : State := s.mapKind fun _ => .basic

namespace StateKind

/-- The type of a kind is written. -/
theorem type_written (kind : StateKind) : kind.written.type = kind.type := by
  rcases kind with _ | _ | _ | ⟨_ | _ | _, _⟩ | _ | _ | _ | _ | _ | _ <;> rfl

/-- The written part of a kind is all of its own written part. -/
theorem written_written (kind : StateKind) : kind.written.written = kind.written := by
  rcases kind with _ | _ | _ | ⟨_ | _ | _, _⟩ | _ | _ | _ | _ | _ | _ <;> rfl

/-- The link of a rule to its end is not written. -/
theorem written_withRuleStop (stop : StateId) (kind : StateKind) :
    (kind.withRuleStop stop).written = kind.written := by
  cases kind <;> rfl

/-- The link of a block end to its beginning is not written. -/
theorem written_withBlockStart (start : StateId) (kind : StateKind) :
    (kind.withBlockStart start).written = kind.written := by
  cases kind <;> rfl

/-- That a loop decides on precedence is not written. -/
theorem written_decidingPrecedence (kind : StateKind) :
    kind.decidingPrecedence.written = kind.written := by
  cases kind <;> rfl

/-- Of the links to a closing state, only those from loop ends are written. -/
theorem written_withLoopBack (loopBack : StateId) {kind : StateKind} (h : kind.isLoopEnd = false) :
    (kind.withLoopBack loopBack).written = kind.written := by
  rcases kind with _ | _ | _ | ⟨_ | _ | _, _⟩ | _ | _ | _ | _ | _ | _
  case loopEnd => cases h
  all_goals rfl

/-- Linking a loop makes no state a loop end. -/
theorem isLoopEnd_withLoopBack (loopBack : StateId) (kind : StateKind) :
    (kind.withLoopBack loopBack).isLoopEnd = kind.isLoopEnd := by
  rcases kind with _ | _ | _ | ⟨_ | _ | _, _⟩ | _ | _ | _ | _ | _ | _ <;> rfl

/-- Whether a kind is a loop end shows in its type. -/
theorem isLoopEnd_eq (kind : StateKind) : kind.isLoopEnd = decide (kind.type = .loopEnd) := by
  rcases kind with _ | _ | _ | ⟨_ | _ | _, _⟩ | _ | _ | _ | _ | _ | _ <;> rfl

/-- Whether a kind ends rules shows in its type. -/
theorem isRuleStop_eq (kind : StateKind) : kind.isRuleStop = decide (kind.type = .ruleStop) := by
  rcases kind with _ | _ | _ | ⟨_ | _ | _, _⟩ | _ | _ | _ | _ | _ | _ <;> rfl

/-- Which roles a kind can play depends on its type. -/
theorem admits_ofType (kind : StateKind) (role : StateRole) :
    role.admits (ofType kind.type) = role.admits kind := by
  rcases kind with _ | _ | _ | ⟨_ | _ | _, _⟩ | _ | _ | _ | _ | _ | _ <;> cases role <;> rfl

/-- Kinds of one type can play the same roles. -/
theorem admits_of_type {kind kind' : StateKind} (h : kind.type = kind'.type) (role : StateRole) :
    role.admits kind = role.admits kind' := by
  rw [← admits_ofType kind, h, admits_ofType]

end StateKind

/-- The written part of a state is all of its own written part. -/
theorem State.written_written (s : State) : s.written.written = s.written := by
  change { State.new s.kind.written.written s.rule with
    number := s.number, nonGreedy := s.nonGreedy } = s.written
  rw [StateKind.written_written]
  rfl

/-- A state keeps its written part if its kind does. -/
theorem State.written_mapKind (s : State) {f : StateKind → StateKind}
    (h : (f s.kind).written = s.kind.written) : (s.mapKind f).written = s.written := by
  rw [written, written, mapKind, h]

/-- Transitions are added behind those that are there. -/
theorem State.transitions_foldl_addTransition (s : State) (edges : List (StateId × Transition)) :
    (edges.foldl (fun s edge => s.addTransition edge.2) s).transitions =
      s.transitions ++ edges.map Prod.snd := by
  induction edges generalizing s with
  | nil => exact (List.append_nil _).symm
  | cons edge rest ih =>
    rw [List.foldl_cons, ih, State.addTransition, List.append_assoc]
    rfl

namespace Network

/-! ## References -/

/-- A number is resolved if a state has it. -/
theorem resolve_eq_ok {net : Network} {number : Int} {id : StateId} :
    net.resolve number = .ok id ↔ number = id ∧ (net.state? id).isSome := by
  rw [resolve]
  split
  next h =>
    rw [Except.ok.injEq]
    constructor
    · rintro rfl
      exact ⟨by lia, h.2⟩
    · rintro ⟨hnumber, -⟩
      lia
  next h =>
    refine ⟨fun he => (by cases he), fun ⟨hnumber, hlive⟩ => absurd ?_ h⟩
    have hid : number.toNat = id := by lia
    exact ⟨by lia, by rwa [hid]⟩

/-- A number is resolved for a role if a state has it that can play the role. -/
theorem resolveAs_eq_ok {net : Network} {role : StateRole} {number : Int} {id : StateId} :
    net.resolveAs role number = .ok id ↔ number = id ∧ (net.kind? id).any role.admits := by
  rw [resolveAs, bind_eq_ok]
  constructor
  · rintro ⟨found, hfound, h⟩
    split at h
    next hadmits =>
      cases h
      exact ⟨(resolve_eq_ok.mp hfound).1, hadmits⟩
    · cases h
  · rintro ⟨hnumber, hadmits⟩
    exact ⟨id, resolve_eq_ok.mpr ⟨hnumber, isSome_of_any_kind? hadmits⟩, if_pos hadmits⟩

namespace Keeps

variable {net net' : Network}

/-- The type of a state is written. -/
theorem type (h : Keeps State.written net net') : Keeps (fun s => s.kind.type) net net' := by
  have htype : (fun s : State => s.kind.type) = fun s => s.written.kind.type := by
    funext s
    exact s.kind.type_written.symm
  rw [htype]
  exact h.comp fun s => s.kind.type

/-- The number of a state is part of what is written. -/
theorem number (h : Keeps State.written net net') : Keeps State.number net net' :=
  h.comp State.number

/-- A state plays the same roles as long as its written part is kept. -/
theorem any_admits (h : Keeps State.written net net') (role : StateRole) (k : StateId) :
    (net'.kind? k).any role.admits = (net.kind? k).any role.admits := by
  have hk := h.type k
  rw [kind?, kind?]
  cases hs : net.state? k <;> cases hs' : net'.state? k <;>
    simp only [hs, hs', Option.map_none, Option.map_some, Option.some.injEq, reduceCtorEq] at hk
  · rfl
  · exact StateKind.admits_of_type hk role

end Keeps

/-! ## Transitions -/

/-- Adding transitions leaves the tables and the written part of the states. -/
theorem keeps_addTransitions (net : Network) (edges : List (StateId × Transition)) :
    Revises State.written net (net.addTransitions edges) :=
  Revises.modifyEach fun _ _ _ => rfl

/-- Added transitions stand behind those that their source state had. -/
theorem transitions_addTransitions (net : Network) (edges : List (StateId × Transition))
    (k : StateId) :
    ((net.addTransitions edges).state? k).map State.transitions =
      (net.state? k).map (·.transitions ++ (edges.filter (·.1 = k)).map Prod.snd) := by
  rw [addTransitions_eq_modifyEach, state?_modifyEach, Option.map_map]
  exact Option.map_congr fun s _ => State.transitions_foldl_addTransition s _

/-! ## Rule stops -/

/-- Letting a rule end in a state keeps every part that does not show this link. -/
theorem keeps_setRuleStop {γ : Type} {part : State → γ}
    (h : ∀ stop s, part (s.mapKind (.withRuleStop stop)) = part s) (net : Network)
    (rule : RuleIndex) (stop : StateId) : Keeps part net (net.setRuleStop rule stop) := by
  rw [setRuleStop]
  split
  · exact Keeps.modifyState { net with ruleStops := _ } (h stop)
  · exact Keeps.of_eq fun _ => rfl

/-- Letting a rule end in a state sets that entry of the table. -/
theorem tables_setRuleStop (net : Network) (rule : RuleIndex) (stop : StateId) :
    (net.setRuleStop rule stop).tables =
      { net.tables with ruleStops := net.ruleStops.set rule (some stop) } := by
  rw [setRuleStop]
  split <;> rfl

/-- Letting a rule end in a state takes no slot. -/
theorem size_setRuleStop (net : Network) (rule : RuleIndex) (stop : StateId) :
    (net.setRuleStop rule stop).slots.size = net.slots.size := by
  rw [setRuleStop]
  split
  · exact size_modifyState _ _ _
  · rfl

/-- The last state of a rule was set by one of the pairs, or before. -/
theorem mem_of_ruleStop? {stops : List (RuleIndex × StateId)} {start : Network} {rule : RuleIndex}
    {stop : StateId}
    (h : (stops.foldl (fun net stop => net.setRuleStop stop.1 stop.2) start).ruleStop? rule =
      some stop) : start.ruleStop? rule = some stop ∨ (rule, stop) ∈ stops := by
  induction stops generalizing start with
  | nil => exact Or.inl h
  | cons pair rest ih =>
    rcases ih h with hset | hmem
    · have htable : (start.setRuleStop pair.1 pair.2).ruleStops =
          start.ruleStops.set pair.1 (some pair.2) :=
        congrArg Network.ruleStops (start.tables_setRuleStop pair.1 pair.2)
      rw [ruleStop?, htable, List.getElem?_set] at hset
      split at hset
      next hrule =>
        split at hset
        · cases hset
          exact Or.inr (hrule ▸ List.mem_cons_self)
        · cases hset
      · exact Or.inl hset
    · exact Or.inr (List.mem_cons_of_mem pair hmem)

/-- A rule ends in a rule stop state of that rule. -/
theorem rule_of_linkRuleStops {net net' : Network} (h : net.linkRuleStops = .ok net')
    {rule : RuleIndex} {stop : StateId} (hstop : net'.ruleStop? rule = some stop) :
    ∃ s ∈ net.states, s.number = stop ∧ s.kind.isRuleStop ∧ s.rule = some rule := by
  obtain ⟨stops, hstops, h⟩ := bind_eq_ok.mp h
  cases h
  rcases mem_of_ruleStop? hstop with hnone | hmem
  · rw [ruleStop?, List.getElem?_replicate] at hnone
    split at hnone <;> cases hnone
  · obtain ⟨s, hs, hfound⟩ := exists_of_mem_mapM_ok hstops hmem
    obtain ⟨hs, hkind⟩ := List.mem_filter.mp hs
    obtain ⟨stopped, hstopped, hfound⟩ := bind_eq_ok.mp hfound
    cases hfound
    refine ⟨s, hs, rfl, hkind, ?_⟩
    rw [stoppedRule] at hstopped
    split at hstopped
    · cases hstopped
    next found hrule =>
      split at hstopped
      · cases hstopped
        exact hrule
      · cases hstopped

/-- Linking rule stops changes no other part of the kinds than rule stops. -/
theorem keeps_linkRuleStops {net net' : Network} (h : net.linkRuleStops = .ok net') {γ : Type}
    {part : State → γ} (hpart : ∀ stop s, part (s.mapKind (.withRuleStop stop)) = part s) :
    Keeps part net net' := by
  obtain ⟨stops, -, hlinked⟩ := bind_eq_ok.mp h
  cases hlinked
  clear h
  have hstart : Keeps part net { net with ruleStops := List.replicate net.ruleCount none } :=
    Keeps.of_eq fun _ => rfl
  refine hstart.trans ?_
  generalize { net with ruleStops := List.replicate net.ruleCount none } = start
  induction stops generalizing start with
  | nil => exact Keeps.refl _ _
  | cons pair rest ih =>
    rw [List.foldl_cons]
    exact Keeps.trans (keeps_setRuleStop hpart start pair.1 pair.2)
      (ih (start.setRuleStop pair.1 pair.2))

/-- Setting the last states of rules changes no other table. -/
theorem tables_setRuleStops (stops : List (RuleIndex × StateId)) (start : Network) :
    let linked := stops.foldl (fun net stop => net.setRuleStop stop.1 stop.2) start
    linked.tables = { start.tables with ruleStops := linked.ruleStops } ∧
      linked.slots.size = start.slots.size := by
  induction stops generalizing start with
  | nil => exact ⟨rfl, rfl⟩
  | cons pair rest ih =>
    obtain ⟨htables, hsize⟩ := ih (start.setRuleStop pair.1 pair.2)
    refine ⟨?_, hsize.trans (start.size_setRuleStop pair.1 pair.2)⟩
    rw [start.tables_setRuleStop] at htables
    exact htables

/-- What linking rule stops leaves as it was, and where the rules end. -/
structure RuleStopsLinked (net net' : Network) : Prop where
  tables : net'.tables = { net.tables with ruleStops := net'.ruleStops }
  size : net'.slots.size = net.slots.size
  keeps : Keeps State.written net net'
  rest : Keeps State.withoutKind net net'
  isRuleStop : ∀ rule stop, net'.ruleStop? rule = some stop →
    ∃ s ∈ net.states, s.number = stop ∧ s.kind.isRuleStop

/-- Linking rule stops leaves what it is said to leave. -/
theorem ruleStopsLinked {net net' : Network} (h : net.linkRuleStops = .ok net') :
    RuleStopsLinked net net' := by
  obtain ⟨stops, -, hlinked⟩ := bind_eq_ok.mp h
  have htables := tables_setRuleStops stops
    { net with ruleStops := List.replicate net.ruleCount none }
  cases hlinked
  refine ⟨htables.1, htables.2, keeps_linkRuleStops h fun stop s => ?_,
    keeps_linkRuleStops h fun _ _ => rfl, fun rule stop hrule => ?_⟩
  · exact s.written_mapKind (s.kind.written_withRuleStop stop)
  · obtain ⟨s, hs, hnumber, hkind, -⟩ := rule_of_linkRuleStops h hrule
    exact ⟨s, hs, hnumber, hkind⟩

end Network

end TransitionNetwork
