import TransitionNetwork.Proofs.Network.DerivedParts

/-!
# Return transitions of calls

The last state of a rule gets one return transition for each call of the rule, in the order in which
the calls stand in the network, and none for any other transition. Which transitions those are
depends on the calls, on the rules of the states that they lead to and on the precedence levels of
the rules, so it can be told as well from the network that comes out.
-/

namespace TransitionNetwork

namespace Network

/-- The transition by which a call of a rule returns; none if the rule is not called. -/
def returnOf? (net : Network) (rule : RuleIndex) (t : Transition) : Option Transition :=
  match t.kind with
  | .rule _ precedence follow =>
    if (net.state? t.target).bind State.rule = some rule then
      some ⟨follow, .epsilon (if net.hasPrecedence rule ∧ precedence = 0 then some rule else none)⟩
    else none
  | _ => none

/-- The transitions by which the calls of a rule return, in order of the calling states and of their
transitions. -/
def returnsOf (net : Network) (rule : RuleIndex) : List Transition :=
  (net.states.flatMap State.transitions).filterMap (net.returnOf? rule)

/-! ## What is added -/

/-- The state that is required is the one in the slot. -/
theorem requireState_eq_ok {net : Network} {id : StateId} {s : State} :
    net.requireState id = .ok s ↔ net.state? id = some s := by
  rw [requireState]
  cases net.state? id <;> simp

/-- A call returns from the rule of the state that it leads to. -/
theorem returnOf?_eq {net : Network} {target : StateId} {callee : State}
    (hcallee : net.state? target = some callee) {called : RuleIndex}
    (hcalled : callee.rule = some called) (rule index : RuleIndex) (precedence : Int)
    (follow : StateId) :
    net.returnOf? rule ⟨target, .rule index precedence follow⟩ =
      if called = rule then some ⟨follow, .epsilon
        (if net.hasPrecedence rule ∧ precedence = 0 then some rule else none)⟩ else none := by
  simp only [returnOf?, hcallee, Option.bind_some, hcalled, Option.some.injEq]

section

variable {net : Network} {rule : RuleIndex} {stop : StateId} (hstop : net.ruleStop? rule = some stop)
  (hown : ∀ other, net.ruleStop? other = some stop → other = rule)

include hstop hown

/-- A transition adds a return transition to the last state of a rule if it calls the rule. -/
theorem returnEdge?_filter {t : Transition} {edge : Option (StateId × Transition)}
    (h : net.returnEdge? t = .ok edge) :
    (edge.filter (·.1 = stop)).map Prod.snd = net.returnOf? rule t := by
  obtain ⟨target, kind⟩ := t
  cases kind with
  | rule index precedence follow =>
    obtain ⟨callee, hcallee, h⟩ := bind_eq_ok.mp h
    split at h
    · cases h
    next called hcalled =>
      rw [returnOf?_eq (requireState_eq_ok.mp hcallee) hcalled]
      dsimp only at h
      split at h
      · cases h
      next last hlast =>
        cases h
        rcases eq_or_ne called rule with rfl | hne
        · obtain rfl : stop = last := Option.some.inj (hstop.symm.trans hlast)
          rw [if_pos rfl, Option.filter_some, if_pos (decide_eq_true rfl)]
          rfl
        · have helse : last ≠ stop := fun hsame => hne (hown called (hsame ▸ hlast))
          rw [if_neg hne, Option.filter_some, if_neg (by simpa using helse)]
          rfl
  | _ =>
    cases h
    rfl

/-- The last state of a rule gets the return transitions of the calls of the rule. -/
theorem filter_returnEdges {edges : List (StateId × Transition)} (h : net.returnEdges = .ok edges) :
    (edges.filter (·.1 = stop)).map Prod.snd = net.returnsOf rule := by
  obtain ⟨found, hfound, h⟩ := bind_eq_ok.mp h
  cases h
  clear h
  rw [returnsOf]
  -- The induction is on the transitions of all states, in order.
  generalize net.states.flatMap State.transitions = ts at hfound
  induction ts generalizing found with
  | nil =>
    cases hfound
    rfl
  | cons t rest ih =>
    rw [List.mapM_cons] at hfound
    obtain ⟨edge, hedge, hfound⟩ := bind_eq_ok.mp hfound
    obtain ⟨edges, hedges, hfound⟩ := bind_eq_ok.mp hfound
    cases hfound
    have hfirst := returnEdge?_filter hstop hown hedge
    cases edge with
    | none =>
      rw [List.filterMap_cons_none hfirst.symm]
      exact ih edges hedges
    | some edge =>
      change ((edge :: edges.filterMap id).filter (·.1 = stop)).map Prod.snd = _
      rw [List.filter_cons]
      rw [Option.filter_some] at hfirst
      split at hfirst
      next hreturn =>
        rw [if_pos hreturn, List.filterMap_cons_some hfirst.symm, List.map_cons, ih edges hedges]
      next hreturn =>
        rw [if_neg hreturn, List.filterMap_cons_none hfirst.symm]
        exact ih edges hedges

end

/-! ## Calls in other networks -/

/-- Whether a rule has precedence levels is written. -/
theorem hasPrecedence_of_written {net net' : Network} (h : Keeps State.written net net')
    (hstarts : net'.ruleStarts = net.ruleStarts) : net'.hasPrecedence = net.hasPrecedence := by
  funext rule
  rw [hasPrecedence, hasPrecedence, ruleStart?, ruleStart?, hstarts]
  cases net.ruleStarts[rule]? with
  | none => rfl
  | some start =>
    have hwritten : ∀ kind : StateKind, kind.written.hasPrecedence = kind.hasPrecedence := by
      intro kind
      rcases kind with _ | _ | _ | ⟨_ | _ | _, _⟩ | _ | _ | _ | _ | _ | _ <;> rfl
    have hstart := congrArg (fun s => s.any fun s => s.kind.hasPrecedence) (h start)
    rw [Option.bind_some, Option.bind_some, kind?, kind?, Option.any_map, Option.any_map]
    simpa only [Option.any_map, Function.comp_def, State.written, State.new, hwritten] using hstart

/-- Calls return alike in networks whose states have the same written parts. -/
theorem returnOf?_of_written {net net' : Network} (h : Keeps State.written net net')
    (hstarts : net'.ruleStarts = net.ruleStarts) : net'.returnOf? = net.returnOf? := by
  have hrule : ∀ k, (net'.state? k).bind State.rule = (net.state? k).bind State.rule := by
    intro k
    have hk := congrArg (·.bind State.rule) (h k)
    rwa [Option.bind_map, Option.bind_map] at hk
  funext rule t
  rw [returnOf?, returnOf?, hrule, hasPrecedence_of_written h hstarts]

/-- What a transition tells about an action does not matter for calls. -/
theorem returnOf?_withoutAction (net : Network) (rule : RuleIndex) (t : Transition) :
    net.returnOf? rule t.withoutAction = net.returnOf? rule t := by
  obtain ⟨target, kind⟩ := t
  cases kind <;> rfl

/-- Renumbered transitions return from calls as before. -/
theorem filterMap_returnOf?_of_renumbered (net : Network) (rule : RuleIndex) {count : Nat}
    {ts ts' : List Transition} (h : List.Forall₂ (Transition.Renumbered count) ts ts') :
    ts'.filterMap (net.returnOf? rule) = ts.filterMap (net.returnOf? rule) := by
  have hviewed (ts : List Transition) : ts.filterMap (net.returnOf? rule) =
      (ts.map Transition.withoutAction).filterMap (net.returnOf? rule) := by
    rw [List.filterMap_map]
    exact List.filterMap_congr fun t _ => (net.returnOf?_withoutAction rule t).symm
  rw [hviewed, hviewed ts, map_withoutAction_of_renumbered h]

/-- Return transitions call nothing themselves. -/
theorem filterMap_returnOf?_of_epsilon (net : Network) (rule : RuleIndex) {ts : List Transition}
    (h : ∀ t ∈ ts, ∃ outermostReturn, t.kind = .epsilon outermostReturn) :
    ts.filterMap (net.returnOf? rule) = [] := by
  rw [List.filterMap_eq_nil_iff]
  intro t ht
  obtain ⟨outermostReturn, hkind⟩ := h t ht
  rw [returnOf?, hkind]

/-- A rule is called alike in networks whose states have the same written parts and the same calls,
state by state. -/
theorem returnsOf_of_keeps {net net' : Network} {rule : RuleIndex}
    (h : Keeps State.written net net') (hstarts : net'.ruleStarts = net.ruleStarts)
    (hsize : net'.slots.size = net.slots.size)
    (hcalls : Keeps (fun s => s.transitions.filterMap (net.returnOf? rule)) net net') :
    net'.returnsOf rule = net.returnsOf rule := by
  have hlist := congrArg List.flatten (hcalls.map_states hsize)
  rw [returnsOf, returnsOf, returnOf?_of_written h hstarts, List.filterMap_flatMap,
    List.filterMap_flatMap]
  exact hlist

end Network

end TransitionNetwork
