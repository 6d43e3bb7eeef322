import TransitionNetwork.Network.Bypass
import TransitionNetwork.Proofs.Network.References

/-!
# Networks with a bypass

Giving a rule its second way through adds three states behind all others: the first and the last
state of a block, and the state that consumes the token of the rule. The first state of the rule
leads to the block alone and its transitions move there; the last state of the block leads to where
the body of the rule ends. Any other transition leads where it led, or to the last state of the
block instead of the end of the body.
-/

namespace TransitionNetwork

/-- A transition as it was, or turned from one state towards another. -/
def Transition.Redirected (old new : StateId) (t t' : Transition) : Prop :=
  t' = t ∨ t.target = old ∧ t' = { t with target := new }

/-- A state as it was, with some of its transitions turned from one state towards another. -/
structure State.Redirected (old new : StateId) (s s' : State) : Prop where
  rest : s' = { s with transitions := s'.transitions }
  transitions : List.Forall₂ (Transition.Redirected old new) s.transitions s'.transitions

namespace State.Redirected

variable {old new : StateId} {s s' : State}

/-- Turned transitions leave the number of a state. -/
theorem number (h : Redirected old new s s') : s'.number = s.number := by
  rw [h.rest]

/-- Turned transitions leave the rule of a state. -/
theorem rule (h : Redirected old new s s') : s'.rule = s.rule := by
  rw [h.rest]

/-- Turned transitions leave the kind of a state. -/
theorem kind (h : Redirected old new s s') : s'.kind = s.kind := by
  rw [h.rest]

/-- Turned transitions leave the flag of a state. -/
theorem epsilonOnly (h : Redirected old new s s') : s'.epsilonOnly = s.epsilonOnly := by
  rw [h.rest]

end State.Redirected

namespace Network

/-! ## Adding states -/

/-- A state that is added is found behind the last slot, with that number. -/
theorem state?_addState (net : Network) (s : State) (k : StateId) :
    (net.addState s).state? k =
      if k = net.slots.size then some { s with number := net.slots.size } else net.state? k := by
  rw [state?, state?, addState, Array.getElem?_push]
  split <;> rfl

/-- A state that is added takes one more slot. -/
theorem size_addState (net : Network) (s : State) :
    (net.addState s).slots.size = net.slots.size + 1 := Array.size_push _

/-- The first state of an added block. -/
def blockOpening (net : Network) (rule : RuleIndex) : State :=
  { State.new (.blockStart .basic (some (net.nextId + 1))) (some rule) with
    number := net.nextId
    decision := some net.decisions.length }

/-- The last state of an added block. -/
def blockClosing (net : Network) (rule : RuleIndex) : State :=
  { State.new (.blockEnd (some net.nextId)) (some rule) with number := net.nextId + 1 }

/-- A block that is added takes two more slots. -/
theorem size_addBlock (net : Network) (rule : RuleIndex) :
    (net.addBlock rule).slots.size = net.slots.size + 2 := by
  rw [addBlock, addDecision, size_modifyState]
  exact (size_addState _ _).trans (congrArg (· + 1) (size_addState _ _))

/-- A block is added in the two slots behind all others. -/
theorem state?_addBlock (net : Network) (rule : RuleIndex) (k : StateId) :
    (net.addBlock rule).state? k =
      if k = net.nextId then some (net.blockOpening rule)
      else if k = net.nextId + 1 then some (net.blockClosing rule) else net.state? k := by
  have hstates (k : StateId) :
      ((net.addState (.new (.blockStart .basic (some (net.nextId + 1))) (some rule))).addState
        (.new (.blockEnd (some net.nextId)) (some rule))).state? k =
        if k = net.nextId + 1 then some (net.blockClosing rule)
        else if k = net.nextId then some { net.blockOpening rule with decision := none }
        else net.state? k := by
    rw [state?_addState, state?_addState, size_addState]
    rfl
  rw [addBlock, addDecision, state?_modifyState]
  change (if net.nextId = k then Option.map _ (((net.addState _).addState _).state? k)
    else ((net.addState _).addState _).state? k) = _
  rw [hstates]
  rcases eq_or_ne k net.nextId with rfl | hk
  · rw [if_pos rfl, if_neg (Nat.succ_ne_self _).symm, if_pos rfl, if_pos rfl]
    rfl
  · rw [if_neg hk.symm, if_neg hk, if_neg hk]

/-! ## Moving transitions -/

/-- Moved transitions all belong to the state to which they are moved. -/
theorem filter_map_source (body : List Transition) (source k : StateId) :
    (body.map fun t => (source, t)).filter (·.1 = k) =
      if source = k then body.map fun t => (source, t) else [] := by
  split
  next h =>
    rw [List.filter_eq_self]
    rintro edge hedge
    obtain ⟨t, -, rfl⟩ := List.mem_map.mp hedge
    exact decide_eq_true h
  next h =>
    rw [List.filter_eq_nil_iff]
    rintro edge hedge
    obtain ⟨t, -, rfl⟩ := List.mem_map.mp hedge
    exact fun hk => h (of_decide_eq_true hk)

/-- Where transitions are after they are moved: none at the source, and behind those of the
destination. -/
theorem state?_moveTransitions {net : Network} {source destination : StateId}
    (hne : source ≠ destination) {first : State} (hfirst : net.state? source = some first)
    (k : StateId) :
    (net.moveTransitions source destination).state? k =
      if k = source then some first.clearTransitions
      else if k = destination then
        (net.state? k).map fun s => first.transitions.foldl State.addTransition s
      else net.state? k := by
  rw [moveTransitions, addTransitions_eq_modifyEach, state?_modifyEach, state?_modifyState, hfirst,
    Option.map_some, Option.getD_some, filter_map_source]
  rcases eq_or_ne k source with rfl | hk
  · rw [if_pos rfl, if_neg hne.symm, if_pos rfl, hfirst]
    rfl
  · rw [if_neg hk.symm, if_neg hk]
    rcases eq_or_ne k destination with rfl | hk'
    · simp only [if_pos, List.foldl_map]
    · simp only [hk', hk'.symm, if_false, List.foldl_nil, Option.map_id']

/-! ## The bypass of a rule -/

/-- The state that consumes the token of a rule instead of its body. -/
def bypassChoice (number closing : StateId) (rule : RuleIndex) (token : TokenType) : State :=
  { (State.new .basic (some rule)).addTransition (.atom closing token) with number }

/-- A network with a bypass from the first state of a rule to where the body of the rule ends.
`first` is the first state as it was, and `body` are its transitions where they are now. -/
structure Bypassed (net net' : Network) (rule : RuleIndex) (start stop : StateId)
    (token : TokenType) (first : State) (body : List Transition) : Prop where
  tables : net'.tables = { net.tables with decisions := net.decisions ++ [net.nextId] }
  size : net'.slots.size = net.nextId + 3
  others : ∀ k < net.nextId, k ≠ start →
    Option.Rel (State.Redirected stop (net.nextId + 1)) (net.state? k) (net'.state? k)
  found : net.state? start = some first
  leading : net'.state? start = some { first with
    transitions := [.epsilon net.nextId], epsilonOnly := true }
  moved : List.Forall₂ (Transition.Redirected stop (net.nextId + 1)) first.transitions body
  opening : ∃ s, net'.state? net.nextId = some s ∧ s.number = net.nextId ∧ s.rule = some rule ∧
    s.kind = .blockStart .basic (some (net.nextId + 1)) ∧
    s.transitions = body ++ [.epsilon (net.nextId + 2)]
  closing : net'.state? (net.nextId + 1) = some { net.blockClosing rule with
    transitions := [.epsilon stop], epsilonOnly := true }
  choice : net'.state? (net.nextId + 2) =
    some (bypassChoice (net.nextId + 2) (net.nextId + 1) rule token)

/-- The transitions of a state, with those that are to be turned towards another state. -/
theorem redirected_retarget (net : Network) (old new : StateId)
    (excluded : Option TransitionPlace) (k : StateId) :
    Option.Rel (State.Redirected old new) (net.state? k)
      ((net.retarget old new excluded).state? k) := by
  rw [retarget, state?_mapStates]
  cases net.state? k with
  | none => exact Option.Rel.none
  | some s =>
    refine Option.Rel.some ⟨rfl, forall₂_mapIdx fun i t => ?_⟩
    split
    next h => exact Or.inr ⟨h.1, rfl⟩
    · exact Or.inl rfl

/-- Nothing is turned in a state without transitions. -/
theorem state?_retarget_of_nil {net : Network} {k : StateId} {s : State}
    (hs : net.state? k = some s) (hnone : s.transitions = []) (old new : StateId)
    (excluded : Option TransitionPlace) : (net.retarget old new excluded).state? k = some s := by
  rw [retarget, state?_mapStates, hs, Option.map_some, hnone, List.mapIdx_nil, ← hnone]

/-- Adding a transition changes the state that it leaves. -/
theorem state?_addTransition (net : Network) (source k : StateId) (t : Transition) :
    (net.addTransition source t).state? k =
      if source = k then (net.state? k).map (·.addTransition t) else net.state? k :=
  net.state?_modifyState source k (·.addTransition t)

/-- Connect a block to the first state of a rule and to where its body ends, and add the other way
through the block. -/
def connectBlock (net : Network) (rule : RuleIndex) (start opening stop : StateId)
    (token : TokenType) : Network :=
  let net := net.addTransition start (.epsilon opening)
  let net := net.addTransition (opening + 1) (.epsilon stop)
  (net.addState ((State.new .basic (some rule)).addTransition (.atom (opening + 1) token))).addTransition
    opening (.epsilon net.nextId)

/-- Connecting a block leaves the tables. -/
theorem tables_connectBlock (net : Network) (rule : RuleIndex) (start opening stop : StateId)
    (token : TokenType) : (net.connectBlock rule start opening stop token).tables = net.tables := rfl

section

variable {net : Network} {opening start : StateId} (hsize : net.slots.size = opening + 2)

include hsize

/-- Connecting a block takes one slot, behind the two of the block. -/
theorem size_connectBlock (rule : RuleIndex) (stop : StateId) (token : TokenType) :
    (net.connectBlock rule start opening stop token).slots.size = opening + 3 := by
  rw [connectBlock, addTransition, size_modifyState, size_addState, addTransition,
    size_modifyState, addTransition, size_modifyState, hsize]

/-- The states once a block is connected. -/
theorem state?_connectBlock (hstart : start < opening) (rule : RuleIndex) (stop : StateId)
    (token : TokenType) (k : StateId) :
    (net.connectBlock rule start opening stop token).state? k =
      if k = opening then (net.state? k).map (·.addTransition (.epsilon (opening + 2)))
      else if k = opening + 1 then (net.state? k).map (·.addTransition (.epsilon stop))
      else if k = opening + 2 then some (bypassChoice (opening + 2) (opening + 1) rule token)
      else if k = start then (net.state? k).map (·.addTransition (.epsilon opening))
      else net.state? k := by
  have hnext : ((net.addTransition start (.epsilon opening)).addTransition (opening + 1)
      (.epsilon stop)).slots.size = opening + 2 :=
    ((size_modifyState _ _ _).trans (size_modifyState _ _ _)).trans hsize
  rw [connectBlock, state?_addTransition, state?_addState, nextId, hnext, state?_addTransition,
    state?_addTransition]
  split_ifs <;> first | rfl | lia

end

/-- Appending transitions to a state changes nothing else that is told about its block. -/
theorem foldl_addTransition (s : State) (body : List Transition) :
    let s' := body.foldl State.addTransition s
    s'.number = s.number ∧ s'.rule = s.rule ∧ s'.kind = s.kind ∧ s'.decision = s.decision ∧
      s'.transitions = s.transitions ++ body := by
  induction body generalizing s with
  | nil => exact ⟨rfl, rfl, rfl, rfl, (List.append_nil _).symm⟩
  | cons t rest ih =>
    obtain ⟨hnumber, hrule, hkind, hdecision, htransitions⟩ := ih (s.addTransition t)
    refine ⟨hnumber, hrule, hkind, hdecision, ?_⟩
    rw [List.foldl_cons, htransitions, State.addTransition, List.append_assoc]
    rfl

/-- The network in which the body of a rule has moved into a block, and what led to its end leads to
the end of the block. -/
def moveBody (net : Network) (rule : RuleIndex) (start stop : StateId)
    (excluded : Option TransitionPlace) : Network :=
  ((net.addBlock rule).retarget stop (net.nextId + 1) excluded).moveTransitions start net.nextId

/-- Moving the body of a rule takes the two slots of the block. -/
theorem size_moveBody (net : Network) (rule : RuleIndex) (start stop : StateId)
    (excluded : Option TransitionPlace) :
    (net.moveBody rule start stop excluded).slots.size = net.nextId + 2 := by
  rw [moveBody, moveTransitions, addTransitions_eq_modifyEach, size_modifyEach, size_modifyState,
    retarget, size_mapStates]
  exact net.size_addBlock rule

/-- Moving the body of a rule records the block as a decision. -/
theorem tables_moveBody (net : Network) (rule : RuleIndex) (start stop : StateId)
    (excluded : Option TransitionPlace) :
    (net.moveBody rule start stop excluded).tables =
      { net.tables with decisions := net.decisions ++ [net.nextId] } := by
  rw [moveBody, moveTransitions, addTransitions_eq_modifyEach, tables_modifyEach]
  rfl

/-- The states of the network in which the body of a rule has moved. -/
theorem exists_moved (net : Network) (rule : RuleIndex) {start : StateId} {first : State}
    (hfirst : net.state? start = some first) (stop : StateId) (excluded : Option TransitionPlace) :
    ∃ body, List.Forall₂ (Transition.Redirected stop (net.nextId + 1)) first.transitions body ∧
      ((net.moveBody rule start stop excluded).state? start =
        some { first with transitions := [], epsilonOnly := false }) ∧
      ((net.moveBody rule start stop excluded).state? net.nextId =
        some (body.foldl State.addTransition (net.blockOpening rule))) ∧
      ((net.moveBody rule start stop excluded).state? (net.nextId + 1) =
        some (net.blockClosing rule)) ∧
      ∀ k < net.nextId, k ≠ start → Option.Rel (State.Redirected stop (net.nextId + 1))
        (net.state? k) ((net.moveBody rule start stop excluded).state? k) := by
  have hlt : start < net.nextId := lt_size_of_state? hfirst
  have hblock := net.state?_addBlock rule
  have hredirected := (net.addBlock rule).redirected_retarget stop (net.nextId + 1) excluded
  have hold : ∀ k < net.nextId, (net.addBlock rule).state? k = net.state? k := by
    intro k hk
    rw [hblock, if_neg (by lia), if_neg (by lia)]
  obtain ⟨first', hfirst', hmoved⟩ : ∃ first',
      ((net.addBlock rule).retarget stop (net.nextId + 1) excluded).state? start = some first' ∧
        State.Redirected stop (net.nextId + 1) first first' := by
    have hrel := hredirected start
    rw [hold start hlt, hfirst] at hrel
    exact exists_of_rel_some hrel
  have hne : start ≠ net.nextId := by lia
  -- Transitions are turned before they are moved, so those of the body may be turned themselves.
  have hstates := state?_moveTransitions hne hfirst'
  refine ⟨first'.transitions, hmoved.transitions, ?_, ?_, ?_, fun k hk hne => ?_⟩
  · rw [moveBody, hstates, if_pos rfl, State.clearTransitions, hmoved.rest]
  · have hopening := state?_retarget_of_nil (k := net.nextId)
      (by rw [hblock, if_pos rfl]) rfl stop (net.nextId + 1) excluded
    rw [moveBody, hstates, if_neg (by lia), if_pos rfl, hopening]
    rfl
  · have hclosing := state?_retarget_of_nil (k := net.nextId + 1)
      (by rw [hblock, if_neg (by lia), if_pos rfl]) rfl stop (net.nextId + 1) excluded
    rw [moveBody, hstates, if_neg (by lia), if_neg (by lia), hclosing]
  · rw [moveBody, hstates, if_neg hne, if_neg (by lia), ← hold k hk]
    exact hredirected k

/-- The states of the network in which the moved body is connected. -/
theorem bypassed_connectBlock {net : Network} (rule : RuleIndex) {start : StateId} {first : State}
    (hfirst : net.state? start = some first) (stop : StateId) (excluded : Option TransitionPlace)
    (token : TokenType) :
    ∃ body, Bypassed net ((net.moveBody rule start stop excluded).connectBlock rule start net.nextId
      stop token) rule start stop token first body := by
  have hlt : start < net.nextId := lt_size_of_state? hfirst
  obtain ⟨body, hmoved, hleading, hopening, hclosing, hothers⟩ :=
    net.exists_moved rule hfirst stop excluded
  have hsize := net.size_moveBody rule start stop excluded
  have hstates := state?_connectBlock hsize hlt rule stop token
  refine ⟨body, ?_⟩
  exact {
    tables := by
      rw [tables_connectBlock]
      exact net.tables_moveBody rule start stop excluded
    size := size_connectBlock hsize rule stop token
    others := fun k hk hne => by
      rw [hstates, if_neg (by lia), if_neg (by lia), if_neg (by lia), if_neg hne]
      exact hothers k hk hne
    found := hfirst
    leading := by
      rw [hstates, if_neg (by lia), if_neg (by lia), if_neg (by lia), if_pos rfl, hleading]
      rfl
    moved := hmoved
    opening := by
      obtain ⟨hnumber, hrule, hkind, -, htransitions⟩ :=
        foldl_addTransition (net.blockOpening rule) body
      rw [hstates, if_pos rfl, hopening]
      refine ⟨_, rfl, hnumber, hrule, hkind, ?_⟩
      exact congrArg (· ++ [.epsilon (net.nextId + 2)]) htransitions
    closing := by
      rw [hstates, if_neg (by lia), if_pos rfl, hclosing]
      rfl
    choice := by
      rw [hstates, if_neg (by lia), if_neg (by lia), if_pos rfl] }

namespace Bypassed

variable {net net' : Network} {rule : RuleIndex} {start stop : StateId} {token : TokenType}
  {first : State} {body : List Transition}
  (h : Bypassed net net' rule start stop token first body)

include h

/-- Every other state is there, with its transitions where they are now. -/
theorem redirected {k : StateId} {s : State} (hs : net.state? k = some s) (hne : k ≠ start) :
    ∃ s', net'.state? k = some s' ∧ s.Redirected stop (net.nextId + 1) s' := by
  have hrel := h.others k (lt_size_of_state? hs) hne
  rw [hs] at hrel
  exact exists_of_rel_some hrel

/-- The states keep their kinds. -/
theorem kind?_eq {k : StateId} {s : State} (hs : net.state? k = some s) :
    net'.kind? k = some s.kind := by
  rcases eq_or_ne k start with rfl | hne
  · cases h.found.symm.trans hs
    rw [kind?, h.leading]
    rfl
  · obtain ⟨s', hs', hrel⟩ := h.redirected hs hne
    rw [kind?, hs', Option.map_some, hrel.kind]

/-- A bypass leaves the type of the grammar. -/
theorem grammar_eq : net'.grammar = net.grammar := by
  have hgrammar := congrArg Network.grammar h.tables
  exact hgrammar

/-- A bypass leaves the vocabulary. -/
theorem maxTokenType_eq : net'.maxTokenType = net.maxTokenType := by
  have hmax := congrArg Network.maxTokenType h.tables
  exact hmax

/-- A bypass leaves the first states of rules. -/
theorem ruleStarts_eq : net'.ruleStarts = net.ruleStarts := by
  have hstarts := congrArg Network.ruleStarts h.tables
  exact hstarts

/-- A bypass leaves the last states of rules. -/
theorem ruleStops_eq : net'.ruleStops = net.ruleStops := by
  have hstops := congrArg Network.ruleStops h.tables
  exact hstops

/-- A bypass leaves the tokens that stand for rules. -/
theorem ruleTokenTypes_eq : net'.ruleTokenTypes = net.ruleTokenTypes := by
  have htokens := congrArg Network.ruleTokenTypes h.tables
  exact htokens

/-- A bypass leaves the first states of modes. -/
theorem modeStarts_eq : net'.modeStarts = net.modeStarts := by
  have hmodes := congrArg Network.modeStarts h.tables
  exact hmodes

/-- The start of the block is a decision behind the others. -/
theorem decisions_eq : net'.decisions = net.decisions ++ [net.nextId] := by
  have hdecisions := congrArg Network.decisions h.tables
  exact hdecisions

end Bypassed

/-- A rule that is given its second way through has a bypass. -/
theorem bypassed_of_addBypass {net net' : Network} {rule : RuleIndex}
    (h : net.addBypass rule = .ok net')
    (hlive : ∀ start, net.ruleStart? rule = some start → (net.state? start).isSome) :
    ∃ start token stop excluded first body, net.ruleStart? rule = some start ∧
      net.ruleTokenType? rule = some token ∧
      (net.addBlock rule).bodyEnd rule start = .ok (stop, excluded) ∧
      Bypassed net net' rule start stop token first body := by
  rw [addBypass] at h
  split at h
  next start token hstart htoken =>
    obtain ⟨⟨stop, excluded⟩, hstop, h⟩ := bind_eq_ok.mp h
    obtain rfl : (net.moveBody rule start stop excluded).connectBlock rule start net.nextId stop
      token = net' := Except.ok.inj h
    obtain ⟨first, hfirst⟩ := Option.isSome_iff_exists.mp (hlive start hstart)
    obtain ⟨body, hbypassed⟩ := bypassed_connectBlock rule hfirst stop excluded token
    exact ⟨start, token, stop, excluded, first, body, hstart, htoken, hstop, hbypassed⟩
  · cases h

end Network

end TransitionNetwork
