import TransitionNetwork.Proofs.Network.MutualLinks
import TransitionNetwork.Proofs.Stream.LoadedReferences

/-!
# Links of loaded networks

Up to its transitions a stream holds no links but those from block starts and loop ends, and the
last states of rules follow from the rule indices. So the links of every loaded network stand in
pairs. A network that was loaded with verification passed it after the last change, whether its
rules were given bypass transitions or not, and its links are complete.
-/

namespace TransitionNetwork

/-- The written part of a kind holds no link from a block end or from what opens a loop. -/
theorem StateKind.unlinked_written (kind : StateKind) :
    kind.written.ruleStop? = none ∧ kind.written.blockStart? = none ∧
      (kind.written.isLoopEnd = false → kind.written.loopBack? = none) := by
  rcases kind with _ | _ | _ | ⟨_ | _ | _, _⟩ | _ | _ | _ | _ | _ | _ <;>
    exact ⟨rfl, rfl, fun h => by first | rfl | cases h⟩

namespace Stream

open Decoder

variable {w : Written}

/-- Before rule stops are linked, every state is nothing but the written part of one. -/
theorem unlinked_statedRules (w : Written) {k : StateId} {s : State}
    (hs : w.network.statedRules.state? k = some s) :
    s.kind.ruleStop? = none ∧ s.kind.blockStart? = none ∧
      (s.kind.isLoopEnd = false → s.kind.loopBack? = none) := by
  change w.network.stated.state? k = some s at hs
  rw [Network.state?_stated] at hs
  obtain ⟨s', -, rfl⟩ := Option.map_eq_some_iff.mp hs
  exact s'.kind.unlinked_written

/-- Up to its transitions a stream holds no link from a block end or from what opens a loop. -/
theorem unlinked_of_wellRead (hw : WellRead w) {k : StateId} {s : State}
    (hs : w.network.state? k = some s) :
    s.kind.blockStart? = none ∧ (s.kind.isLoopEnd = false → s.kind.loopBack? = none) := by
  have hkeeps : Network.Keeps
      (fun s => (s.kind.blockStart?, s.kind.isLoopEnd, s.kind.loopBack?)) w.network.statedRules
      { w.network with modeStarts := [] } :=
    Network.keeps_linkRuleStops hw.rulesLinked fun _ s => by
      cases hkind : s.kind <;>
        simp [State.mapKind, StateKind.withRuleStop, hkind, StateKind.blockStart?,
          StateKind.isLoopEnd, StateKind.loopBack?]
  obtain ⟨stated, hstated, hsame⟩ := hkeeps.exists_of_state? hs
  obtain ⟨-, hblock, hloop⟩ := unlinked_statedRules w hstated
  rw [Prod.mk.injEq, Prod.mk.injEq] at hsame
  rw [hsame.1, hsame.2.1, hsame.2.2]
  exact ⟨hblock, hloop⟩

/-- The links of a linked network stand in pairs. -/
theorem crossLinked_linked (hw : WellRead w) {linked : Network} (h : w.linked = .ok linked) :
    linked.CrossLinked := by
  obtain ⟨returned, hreturned, hlink⟩ := bind_eq_ok.mp h
  obtain ⟨returns, -, rfl⟩ := Network.addReturnEdges_eq_ok.mp hreturned
  have hwritten := (Network.keeps_addTransitions w.network w.edges).trans
    (Network.keeps_addTransitions (w.network.addTransitions w.edges) returns)
  have hkinds := (w.network.keeps_kind_addTransitions w.edges).trans
    ((w.network.addTransitions w.edges).keeps_kind_addTransitions returns)
  have hlisted : w.network.RuleStopsListed := by
    have hrules := Network.ruleStopsListed_of_linkRuleStops hw.rulesLinked
      fun k s hs => (unlinked_statedRules w hs).1
    exact hrules
  have hunlinked : ∀ k, ∀ s ∈ ((w.network.addTransitions w.edges).addTransitions returns).state? k,
      s.kind.blockStart? = none ∧ (s.kind.isLoopEnd = false → s.kind.loopBack? = none) := by
    intro k s hs
    obtain ⟨s₀, hs₀, hsame⟩ := hkinds.exists_of_state? hs
    exact hsame ▸ unlinked_of_wellRead hw hs₀
  have hstarts := congrArg Network.ruleStarts hwritten.tables
  exact Network.crossLinked_linkBlocksAndLoops hlink
    (hwritten.keeps.number.numbered hw.states.numbered)
    (hlisted.of_keeps (hkinds.comp StateKind.ruleStop?) hstarts)
    (fun k s hs => (hunlinked k s hs).1) fun k s hs => (hunlinked k s hs).2

/-- The links of a network that was loaded without bypass transitions stand in pairs. -/
theorem Loaded.crossLinked {options : LoadOptions} {linked result net : Network}
    {ids : List StateId} (h : Loaded options w linked ids result net) : net.CrossLinked := by
  have hstarts : net.ruleStarts = linked.ruleStarts := by
    have hdecided := congrArg Network.ruleStarts (linked.tables_addDecisions ids)
    have hresult := congrArg Network.ruleStarts h.withoutActions
    have hmarked := congrArg Network.ruleStarts result.revises_markPrecedenceDecisions.1.tables
    rw [h.marked]
    exact hmarked.trans (hresult.trans hdecided)
  exact (crossLinked_linked h.wellRead h.linkedOk).of_keeps h.keeps_referring hstarts

end Stream

namespace Network

/-- The links of every loaded network stand in pairs. -/
theorem crossLinked_of_load {options : LoadOptions} {units : List UInt16} {net : Network}
    (h : load options units = .ok net) : net.CrossLinked := by
  obtain ⟨plain, hplain, hnet⟩ := exists_load_of_load h
  obtain ⟨w, cursor, linked, ids, result, -, hloaded, -⟩ := Stream.exists_loaded hplain
  rcases hnet with rfl | hbypasses
  · exact hloaded.crossLinked
  · exact hloaded.crossLinked.of_addBypasses hloaded.wellReferenced hbypasses

/-- Completing a network with verification verifies what it gives. -/
theorem verified_of_complete {bypass : Bool} {result net : Network}
    (h : result.complete ⟨true, bypass⟩ = .ok net) : net.Verified := by
  obtain ⟨_, hverify, h⟩ := bind_eq_ok.mp h
  split at h
  · obtain ⟨bypassed, -, h⟩ := bind_eq_ok.mp h
    obtain ⟨_, hverify, h⟩ := bind_eq_ok.mp h
    cases h
    exact verify_eq_ok.mp hverify
  · cases h
    exact verify_eq_ok.mp hverify

/-- A network that was loaded with verification is verified. -/
theorem verified_of_load {bypass : Bool} {units : List UInt16} {net : Network}
    (h : load ⟨true, bypass⟩ units = .ok net) : net.Verified := by
  obtain ⟨last, hlast⟩ : ∃ last, (loader ⟨true, bypass⟩).runFrom (Stream.Cursor.start units) =
      (.ok net, last) := ⟨_, Prod.ext h rfl⟩
  obtain ⟨result, final, -, hcomplete⟩ := Stream.Decoder.runFrom_bind_eq_ok hlast
  rw [Stream.Decoder.runFrom_ofResult, Prod.mk.injEq] at hcomplete
  exact verified_of_complete hcomplete.1

/-- In a network that was loaded with verification, the first and last states of blocks are linked
to each other one to one, a star loop entry is linked to a state whose only transition leads to it,
and the first state of a plus loop to one with a transition to it. -/
theorem mutuallyLinked_of_load {bypass : Bool} {units : List UInt16} {net : Network}
    (h : load ⟨true, bypass⟩ units = .ok net) : net.MutuallyLinked :=
  (crossLinked_of_load h).mutuallyLinked (wellReferenced_of_load h) (verified_of_load h)

/-- The parser with a loop loads with bypasses, which take three slots for each of its two rules. -/
theorem exists_load_loopParser :
    ∃ net, load ⟨true, true⟩ loopParserUnits = .ok net ∧ net.slots.size = 19 ∧
      net.ruleCount = 2 := by
  have hload : ((load ⟨true, true⟩ loopParserUnits).toOption.map fun net =>
      (net.slots.size, net.ruleCount)) = some (19, 2) := by decide +kernel
  obtain ⟨net, hnet, hcounts⟩ := Option.map_eq_some_iff.mp hload
  rw [Prod.mk.injEq] at hcounts
  exact ⟨net, eq_ok_of_toOption hnet, hcounts⟩

/-- With its bypasses the parser with a loop has three blocks, the body of the loop and one for each
rule. -/
theorem mutuallyLinked_of_load_loopParser :
    ∃ net, load ⟨true, true⟩ loopParserUnits = .ok net ∧ net.slots.size = 19 ∧
      net.MutuallyLinked := by
  obtain ⟨net, hload, hsize, -⟩ := exists_load_loopParser
  exact ⟨net, hload, hsize, mutuallyLinked_of_load hload⟩

/-- In a network that was loaded with verification, rules correspond one to one to the first states
of rules, each first state is linked to the last state that the table of rules holds, which is a
rule stop state of the rule, and different rules begin and end in different states. -/
theorem rulesPaired_of_load {bypass : Bool} {units : List UInt16} {net : Network}
    (h : load ⟨true, bypass⟩ units = .ok net) : net.RulesPaired :=
  (crossLinked_of_load h).rulesPaired (wellReferenced_of_load h) (verified_of_load h)

/-- The two rules of that parser are paired with their first and last states. -/
theorem rulesPaired_of_load_loopParser :
    ∃ net, load ⟨true, true⟩ loopParserUnits = .ok net ∧ net.ruleCount = 2 ∧ net.RulesPaired := by
  obtain ⟨net, hload, -, hcount⟩ := exists_load_loopParser
  exact ⟨net, hload, hcount, rulesPaired_of_load hload⟩

end Network

end TransitionNetwork
