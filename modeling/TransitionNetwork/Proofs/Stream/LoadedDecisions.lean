import TransitionNetwork.Proofs.Network.DecisionNumbers
import TransitionNetwork.Proofs.Stream.LoadedReferences

/-!
# Decisions of loaded networks

The decision states of a stream are numbered as they are read, and the blocks of bypasses get the
numbers behind them. So the state of every decision number that some state has is that state. The
other way round the two tables agree unless the stream names a state twice in its list of decisions,
which neither reading nor verifying refuses.
-/

namespace TransitionNetwork

namespace Stream

open Decoder

variable {w : Written}

/-- No state has a decision number before the decisions are read. -/
theorem WellRead.decision_eq_none (hw : WellRead w) {k : StateId} {s : State}
    (hs : w.network.state? k = some s) : s.decision = none := by
  have hkeeps : Network.Keeps State.decision w.network.statedRules
      { w.network with modeStarts := [] } :=
    (Network.ruleStopsLinked hw.rulesLinked).rest.comp State.decision
  obtain ⟨stated, hstated, hsame⟩ := hkeeps.exists_of_state? hs
  change w.network.stated.state? k = some stated at hstated
  rw [Network.state?_stated] at hstated
  obtain ⟨_, -, rfl⟩ := Option.map_eq_some_iff.mp hstated
  exact hsame

/-- Linking the states of a stream makes no decision. -/
theorem decisionsRecorded_linked (hw : WellRead w) {linked : Network}
    (h : w.linked = .ok linked) : linked.DecisionsRecorded := by
  obtain ⟨returns, -, hwritten, hrest⟩ := linked_eq_ok h
  have hadded (net : Network) (edges : List (StateId × Transition)) :
      Network.Keeps State.decision net (net.addTransitions edges) :=
    Network.Keeps.modifyEach fun _ _ _ => rfl
  have hlist := (congrArg Network.decisions hwritten.tables).trans hw.decisions
  refine (Network.DecisionsRecorded.of_none hw.decisions fun k s => hw.decision_eq_none).of_keeps
    ?_ (Eq.trans hlist hw.decisions.symm)
  exact ((hadded _ w.edges).trans (hadded _ returns)).trans (hrest.keeps.comp State.decision)

/-- Without bypasses, every decision that a stream names is recorded in its state. -/
theorem Loaded.decisionsRecorded {options : LoadOptions} {linked result net : Network}
    {ids : List StateId} (h : Loaded options w linked ids result net) : net.DecisionsRecorded := by
  have hdecided := (decisionsRecorded_linked h.wellRead h.linkedOk).addDecisions ids
  have hactions : Network.Keeps State.decision (linked.addDecisions ids) result := by
    intro k
    have hsame := congrArg (fun net => (net.state? k).map State.decision) h.withoutActions
    simpa only [Network.state?_withoutActions, Option.map_map, Function.comp_def,
      State.withoutActions] using hsame
  have hmarks := result.revises_markPrecedenceDecisions.2
  rw [h.marked]
  refine hdecided.of_keeps (hactions.trans (hmarks.keeps.comp State.decision)) ?_
  have hresult := congrArg Network.decisions h.withoutActions
  have hmarked := congrArg Network.decisions hmarks.tables
  exact Eq.trans hmarked hresult

end Stream

namespace Network

/-- In every loaded network, under all options, the state of each decision number that a state has
is that state, and each number leads to a state whose own number is the last one that leads to it.
The numbers and the states are inverse exactly if the stream names no state twice as a decision;
bypasses make no difference to that. -/
theorem decisionsRecorded_of_load {options : LoadOptions} {units : List UInt16} {net : Network}
    (h : load options units = .ok net) :
    (∀ s ∈ net.states, ∀ d, s.decision = some d → net.decisionState? d = some s) ∧
    (∀ d < net.decisions.length, ∃ s, net.decisionState? d = some s ∧
      ∃ e, s.decision = some e ∧ IsLastPlace net.decisions s.number e) ∧
    ∃ plain, load ⟨options.verify, false⟩ units = .ok plain ∧
      ((∀ d < net.decisions.length, ∃ s, net.decisionState? d = some s ∧ s.decision = some d) ↔
        plain.decisions.Nodup) := by
  obtain ⟨plain, hplain, hnet⟩ := exists_load_of_load h
  obtain ⟨w, cursor, linked, ids, result, -, hloaded, -⟩ := Stream.exists_loaded hplain
  have hreferenced := wellReferenced_of_load h
  have hrecorded : net.DecisionsRecorded := by
    rcases hnet with rfl | hbypasses
    · exact hloaded.decisionsRecorded
    · exact hloaded.decisionsRecorded.addBypasses hloaded.wellReferenced hbypasses
  have hnodup : net.decisions.Nodup ↔ plain.decisions.Nodup := by
    rcases hnet with rfl | hbypasses
    · exact Iff.rfl
    · exact nodup_decisions_addBypasses hloaded.wellReferenced hbypasses
  refine ⟨fun s hs d hd => hrecorded.decisionState?_eq hs hd, fun d hd => ?_, plain, hplain,
    (hrecorded.inverse_iff hreferenced).trans hnodup⟩
  obtain ⟨s, hs, -, hlast⟩ := hrecorded.exists_decisionState? hreferenced hd
  exact ⟨s, hs, hlast⟩

/-- With its bypasses, the parser with a loop has two decisions of its stream and one of each
rule. -/
theorem decisionsRecorded_of_load_loopParser :
    ∃ net, load ⟨true, true⟩ loopParserUnits = .ok net ∧ net.decisions = [7, 8, 13, 16] ∧
      ∀ d < net.decisions.length, ∃ s, net.decisionState? d = some s ∧ s.decision = some d := by
  have hload : ((load ⟨true, true⟩ loopParserUnits).toOption.map Network.decisions) =
      some [7, 8, 13, 16] := by decide +kernel
  have hstream : ((load ⟨true, false⟩ loopParserUnits).toOption.map Network.decisions) =
      some [7, 8] := by decide +kernel
  obtain ⟨net, hnet, hdecisions⟩ := Option.map_eq_some_iff.mp hload
  obtain ⟨-, -, plain, hplain, hinverse⟩ := decisionsRecorded_of_load (eq_ok_of_toOption hnet)
  rw [hplain] at hstream
  refine ⟨net, eq_ok_of_toOption hnet, hdecisions, hinverse.mpr ?_⟩
  rw [Option.some.inj hstream]
  decide

end Network

/-- A parser whose rule is a choice, which the list of decisions names twice. -/
def repeatedDecisionUnits : List UInt16 :=
  Stream.encode ([3] ++ Stream.identifierValues .newest ++ [1, 2] ++
    [6, 2, 0, 7, 0, 3, 0, 5, 1, 0, 1, 0, 8, 0] ++ [0] ++ [0] ++ [1, 0] ++ [0] ++ [0] ++
    [6, 0, 2, 1, 0, 0, 0, 2, 3, 1, 0, 0, 0, 2, 4, 1, 0, 0, 0, 3, 5, 5, 1, 0, 0, 4, 5, 5, 2, 0, 0,
      5, 1, 1, 0, 0, 0] ++ [2, 2, 2])

namespace Network

/-- The list of that parser passes verification, and its first place leads to a state whose decision
number is the second one. -/
theorem not_inverse_of_repeatedDecision :
    ∃ net, load ⟨true, false⟩ repeatedDecisionUnits = .ok net ∧ net.decisions = [2, 2] ∧
      ¬ ∀ d < net.decisions.length, ∃ s, net.decisionState? d = some s ∧ s.decision = some d := by
  have hload : ((load ⟨true, false⟩ repeatedDecisionUnits).toOption.map fun net =>
      (net.decisions, (net.decisionState? 0).map State.decision)) = some ([2, 2], some (some 1)) := by
    decide +kernel
  obtain ⟨net, hnet, hdecisions⟩ := Option.map_eq_some_iff.mp hload
  obtain ⟨hlist, hfirst⟩ := Prod.mk.inj hdecisions
  refine ⟨net, eq_ok_of_toOption hnet, hlist, fun hinverse => ?_⟩
  obtain ⟨s, hs, hnumber⟩ := hinverse 0 (by rw [hlist]; decide)
  rw [hs, Option.map_some, hnumber] at hfirst
  cases hfirst

end Network

end TransitionNetwork
