import TransitionNetwork.Proofs.Network.BypassReferences
import TransitionNetwork.Proofs.Network.EpsilonFlags

/-!
# What giving a rule its second way through comes to

The bypass of a rule fails only if the rule has precedence levels and no precedence loop, or if the
tables lack the rule or its last state. If it succeeds, every state but the first one of the rule
and the new ones is as turning transitions leaves it, and the first state of the block is a decision
that records whether its transitions consume nothing.
-/

namespace TransitionNetwork

namespace Network

/-- A rule with precedence levels has no loop that decides whether it goes on. -/
structure LacksLoop (net : Network) (rule : RuleIndex) : Prop where
  hasPrecedence : net.hasPrecedence rule
  noEntry : ∀ s ∈ net.states, s.rule = some rule → net.isPrecedenceLoopEntry s = false

/-! ## Outcomes -/

section

variable {net : Network} {rule : RuleIndex} {start : StateId} {token : TokenType}
  (hnet : net.WellReferenced) (hstart : net.ruleStart? rule = some start)
  (htoken : net.ruleTokenType? rule = some token)

include hnet hstart htoken

/-- A bypass is added as soon as the end of the body is known. -/
theorem addBypass_eq : net.addBypass rule = (net.bodyEnd rule start).map fun ends =>
    (net.moveBody rule start ends.1 ends.2).connectBlock rule start net.nextId ends.1 token := by
  have hlive : (net.state? start).isSome :=
    isSome_of_any_kind? (hnet.ruleStarts start (List.mem_of_getElem? hstart))
  rw [addBypass, hstart, htoken]
  change ((net.addBlock rule).bodyEnd rule start >>= fun ends => _) = _
  rw [bodyEnd_addBlock hnet rule hlive]
  cases net.bodyEnd rule start <;> rfl

/-- A rule of the tables that ends somewhere is given its bypass unless it lacks a loop. -/
theorem addBypass_eq_error (hstop : (net.ruleStop? rule).isSome) {e : LoadError}
    (h : net.addBypass rule = .error e) : net.LacksLoop rule ∧ e = .precedenceLoopNotFound rule := by
  rw [addBypass_eq hnet hstart htoken] at h
  cases hends : net.bodyEnd rule start with
  | ok ends =>
    rw [hends] at h
    cases h
  | error found =>
    rw [hends] at h
    cases h
    rw [bodyEnd] at hends
    split at hends
    next hprecedence =>
      split at hends
      · cases hends
      next hnone =>
        cases hends
        refine ⟨⟨?_, fun s hs hrule => ?_⟩, rfl⟩
        · rw [hasPrecedence, hstart]
          exact hprecedence
        · have hfound := List.find?_eq_none.mp hnone s hs
          simpa [hrule] using hfound
    next =>
      split at hends
      · cases hends
      next hnone =>
        rw [hnone] at hstop
        cases hstop

/-- The states of a network with a bypass, as turning transitions and filling the block leave
them. -/
theorem state?_of_addBypass {net' : Network} {stop : StateId} {excluded : Option TransitionPlace}
    (hends : net.bodyEnd rule start = .ok (stop, excluded)) (h : net.addBypass rule = .ok net') :
    (∀ k < net.nextId, k ≠ start →
      net'.state? k = (net.retarget stop (net.nextId + 1) excluded).state? k) ∧
    ∀ s ∈ net'.state? net.nextId, s.decision = some net.decisions.length ∧ s.Flagged := by
  obtain ⟨first, hfirst⟩ := Option.isSome_iff_exists.mp
    (isSome_of_any_kind? (hnet.ruleStarts start (List.mem_of_getElem? hstart)))
  have hlt : start < net.nextId := lt_size_of_state? hfirst
  rw [addBypass_eq hnet hstart htoken, hends] at h
  cases h
  have hstates := state?_connectBlock (net.size_moveBody rule start stop excluded) hlt rule stop token
  have hretarget : ∀ k < net.nextId, ((net.addBlock rule).retarget stop (net.nextId + 1)
      excluded).state? k = (net.retarget stop (net.nextId + 1) excluded).state? k := by
    intro k hk
    rw [retarget, retarget, state?_mapStates, state?_mapStates, state?_addBlock, if_neg (by lia),
      if_neg (by lia)]
  obtain ⟨first', hfirst'⟩ : ∃ first',
      ((net.addBlock rule).retarget stop (net.nextId + 1) excluded).state? start = some first' := by
    rw [hretarget start hlt, retarget, state?_mapStates, hfirst]
    exact ⟨_, rfl⟩
  refine ⟨fun k hk hne => ?_, fun s hs => ?_⟩
  · rw [hstates, if_neg (by lia), if_neg (by lia), if_neg (by lia), if_neg hne, moveBody,
      state?_moveTransitions (by lia) hfirst', if_neg hne, if_neg (by lia), hretarget k hk]
  · obtain ⟨body, -, -, hopening, -⟩ := net.exists_moved rule hfirst stop excluded
    rw [hstates, if_pos rfl, hopening] at hs
    cases hs
    obtain ⟨-, -, -, hdecision, -⟩ := foldl_addTransition (net.blockOpening rule) body
    have hflagged : (net.blockOpening rule).Flagged := State.flagged_of_nil rfl rfl
    exact ⟨hdecision, (hflagged.foldl body).addTransition _⟩

end

/-! ## What the choice of the end says about the states -/

namespace BypassAdded

variable {net net' : Network} {rule : RuleIndex} {start stop : StateId} {token : TokenType}
  {first : State} {body : List Transition}
  (hadded : BypassAdded net net' rule start stop token first body)

include hadded

/-- A state of another kind is not the first one of the rule. -/
theorem ne_start {k : StateId} {s : State} (hs : net.state? k = some s)
    (hkind : s.kind.isRuleStart = false) : k ≠ start := by
  rintro rfl
  cases hadded.found.symm.trans hs
  rw [hadded.isRuleStart] at hkind
  cases hkind

variable (hnet : net.WellReferenced)

include hnet

/-- The end is chosen in the network without the block as well. -/
theorem bodyEnd_eq {excluded : Option TransitionPlace}
    (hchosen : (net.addBlock rule).bodyEnd rule start = .ok (stop, excluded)) :
    net.bodyEnd rule start = .ok (stop, excluded) := by
  rwa [bodyEnd_addBlock hnet rule (by rw [hadded.found]; rfl)] at hchosen

variable (hnext : net.addBypass rule = .ok net')

include hnext

/-- The transitions of every other state are turned as the choice of the end tells. -/
theorem state?_of_chosen {excluded : Option TransitionPlace}
    (hchosen : (net.addBlock rule).bodyEnd rule start = .ok (stop, excluded)) {k : StateId} {s : State}
    (hs : net.state? k = some s) (hne : k ≠ start) : net'.state? k = some { s with
      transitions := s.transitions.mapIdx fun i t =>
        if t.target = stop ∧ excluded ≠ some (k, i) then { t with target := net.nextId + 1 }
        else t } := by
  rw [(state?_of_addBypass hnet hadded.ruleStart hadded.ruleTokenType
    (hadded.bodyEnd_eq hnet hchosen) hnext).1 k (lt_size_of_state? hs) hne, retarget,
    state?_mapStates, hs, Option.map_some, hnet.numbered k s hs]

/-- The first state of the block is a decision and records whether it consumes nothing. -/
theorem flagged_opening {s : State} (hs : net'.state? net.nextId = some s) :
    s.decision = some net.decisions.length ∧ s.Flagged := by
  obtain ⟨excluded, hchosen⟩ := hadded.chosen
  exact (state?_of_addBypass hnet hadded.ruleStart hadded.ruleTokenType
    (hadded.bodyEnd_eq hnet hchosen) hnext).2 s hs

end BypassAdded

end Network

end TransitionNetwork
