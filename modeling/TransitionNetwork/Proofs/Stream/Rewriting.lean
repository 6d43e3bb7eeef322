import TransitionNetwork.Proofs.Network.EpsilonFlags
import TransitionNetwork.Proofs.Stream.RoundTrip
import TransitionNetwork.Proofs.Stream.StopEdges

/-!
# Writing a network again

A stream may hold transitions of rule stop states. They are loaded with the others, but they are
not written, and only the sets to which they refer are. Loading what was written therefore gives
the same network but for the transitions of rule stop states, which are then return transitions
alone, and writing that network gives the same units exactly if every set that was written is one
to which a written transition refers. From then on nothing changes any more.
-/

namespace TransitionNetwork

namespace Stream

open Decoder

variable {verify : Bool} {options : LoadOptions} {w : Written} {linked result net : Network}
  {ids : List StateId}

/-! ## The loaded network -/

/-- The actions of a loaded network can be written, also those at the ends of rules. -/
theorem Loaded.actionsRead_of_yields (h : Loaded options w linked ids result net)
    (hyields : ∀ property, Yields (lexerActions w.revision (linked.addDecisions ids)) property →
      property result) : ActionsRead (linked.addDecisions ids) result := by
  obtain ⟨returns, hreturns, hwritten, hrest⟩ := linked_eq_ok h.linkedOk
  have hdecided := completes_of_transitionsAre
    (hwritten.restates.trans (restates_addDecisions linked ids)) (h.transitionsAre_decided hrest)
  have hnone : (linked.addDecisions ids).lexerActions = [] := by
    have hsame := congrArg Network.lexerActions
      ((linked.tables_addDecisions ids).trans (by rw [hwritten.tables]))
    exact hsame.trans h.wellRead.lexerActions
  have hepsilon : ∀ (t : Transition) outermostReturn, t.kind = .epsilon outermostReturn →
      t.customAction? = none := fun t outermostReturn hkind => by
    rw [Transition.customAction?, hkind]
  refine hyields _ (yields_actionsRead hnone ?_ fun action haction => ?_)
  · have hle : (linked.addDecisions ids).tabulateActions.lexerActions.length ≤ w.edges.length :=
      hdecided.length_filterMap_le h.wellRead hreturns hepsilon
    have hcount := h.wellRead.edgeCount.2
    exact ⟨by lia, by lia⟩
  · obtain ⟨t, ht, hfound⟩ := List.mem_filterMap.mp haction
    obtain ⟨s, hs, ht⟩ := List.mem_flatMap.mp ht
    rcases hdecided.stems hreturns hs ht with ⟨edge, hedge, hrenumbered⟩ | ⟨outermostReturn, hkind⟩
    · have hnil : IsValue (0 : Nat) := by decide
      exact writable_of_customAction?
        (writable_of_renumbered hnil hrenumbered (h.wellRead.edges edge hedge).2) hfound
    · rw [hepsilon t outermostReturn hkind] at hfound
      cases hfound

/-- The flags of a loaded network are right. -/
theorem flagged_marked (hw : WellRead w) (hlinked : w.linked = .ok linked)
    (hactions : result.withoutActions = (linked.addDecisions ids).withoutActions) :
    result.markPrecedenceDecisions.Flagged := by
  have hstart : w.network.statedRules.Flagged := by
    intro k s hs
    change w.network.stated.state? k = some s at hs
    rw [Network.state?_stated] at hs
    obtain ⟨s', -, rfl⟩ := Option.map_eq_some_iff.mp hs
    exact State.flagged_of_nil rfl rfl
  have hread : w.network.Flagged := hstart.of_keeps
    ((Network.ruleStopsLinked hw.rulesLinked).rest.comp State.sorts)
  obtain ⟨returns, -, -, hrest⟩ := linked_eq_ok hlinked
  have hflagged : linked.Flagged := ((hread.addTransitions w.edges).addTransitions returns).of_keeps
    (hrest.keeps.comp State.sorts)
  have hresult : result.Flagged := (hflagged.of_keeps
    ((linked.keeps_addDecisions ids).comp State.sorts)).of_withoutActions hactions
  exact hresult.of_keeps (result.revises_markPrecedenceDecisions.2.keeps.comp State.sorts)

/-- Without bypasses a network is completed by marking precedence decisions, and verified if it is
asked for. -/
theorem complete_eq_ok : result.complete ⟨verify, false⟩ = .ok net ↔
    net = result.markPrecedenceDecisions ∧ (verify = true → net.Verified) := by
  have hcomplete : result.complete ⟨verify, false⟩ =
      (result.markPrecedenceDecisions.verifyIf verify >>= fun _ =>
        .ok result.markPrecedenceDecisions) := by
    rw [Network.complete, if_neg (by simp)]
    rfl
  rw [hcomplete, bind_eq_ok, Network.verifyIf]
  cases verify with
  | false =>
    refine ⟨fun ⟨_, _, h⟩ => ⟨(Except.ok.inj h).symm, fun hverify => (by cases hverify)⟩,
      fun ⟨h, _⟩ => ⟨(), rfl, congrArg Except.ok h.symm⟩⟩
  | true =>
    rw [if_pos rfl]
    constructor
    · rintro ⟨_, hverified, h⟩
      cases h
      exact ⟨rfl, fun _ => Network.verify_eq_ok.mp hverified⟩
    · rintro ⟨rfl, hverified⟩
      exact ⟨(), Network.verify_eq_ok.mpr (hverified rfl), rfl⟩

/-! ## The units of a loaded network -/

section

variable {returns : List (StateId × Transition)} {count : Nat}

/-- A state that ends no rule is written with its transitions, and one that does without. -/
theorem transitionsAre_withoutStopEdges (hnumbered : net.Numbered) :
    net.withoutStopEdges.TransitionsAre (Network.transitionsFrom net.writtenPairs) := by
  intro k s' hs'
  rw [Option.mem_def, Network.state?_withoutStopEdges] at hs'
  obtain ⟨s, hs, rfl⟩ := Option.map_eq_some_iff.mp hs'
  rw [transitionsFrom_writtenPairs hnumbered, hs, Option.toList_some, List.flatMap_singleton,
    State.withoutStopEdges]
  split <;> rfl

/-- Of a rule stop state no transition is written, so that none is read again. -/
theorem noStopEdges_reread (hnumbered : net.Numbered) (hrestates : w.network.Restates net) :
    NoStopEdges (reread w net) := by
  intro k s hs hstop
  obtain ⟨s', hs', hsame⟩ := hrestates.exists_state? hs
  rw [reread, Stream.transitionsFrom_writtenPairs hnumbered, hs', Option.toList_some,
    List.flatMap_singleton, if_pos (hsame.trans hstop)]

/-- Each written transition leaves a state that does not end a rule. -/
theorem exists_of_mem_writtenPairs {edge : StateId × Transition} (h : edge ∈ net.writtenPairs) :
    ∃ s ∈ net.states, s.kind.isRuleStop = false ∧ s.number = edge.1 ∧ edge.2 ∈ s.transitions := by
  obtain ⟨entry, hentry, rfl⟩ := List.mem_map.mp h
  obtain ⟨s, hs, hentry⟩ := List.mem_flatMap.mp hentry
  obtain ⟨t, ht, rfl⟩ := List.mem_map.mp hentry
  obtain ⟨hs, hstop⟩ := List.mem_filter.mp hs
  exact ⟨s, hs, by simpa using hstop, rfl, ht⟩

/-- What is loaded from the units of a loaded network is read as it should be. -/
theorem Completes.wellRead_reread (h : Completes w returns count net) (hw : WellRead w)
    (hcount : IsValue count)
    (hreturns : (w.network.addTransitions w.edges).returnEdges = .ok returns) :
    WellRead (reread w net) := by
  have hpairs : net.writtenPairs.length = (writtenEdges net).length := List.length_map _
  have hnumbered := h.restates.keeps.number.numbered hw.states.numbered
  exact { hw with
    edgeCount := by
      rw [reread, hpairs]
      exact h.edgeCount hw hreturns
    edges := fun edge hedge => by
      obtain ⟨s, hs, hstop, hsource, ht⟩ := exists_of_mem_writtenPairs hedge
      obtain ⟨k, hk⟩ := Network.mem_states.mp hs
      refine ⟨?_, writable_of_restates h.restates.symm
        (h.writable hw hcount hreturns s hs hstop edge.2 ht)⟩
      rw [reread, ← hsource, hnumbered k s hk, ← h.restates.keeps.isSome, hk]
      rfl }

/-- The transitions that are written are those that were read, up to actions and the transitions
of rule stop states. -/
theorem Completes.reread_same (h : Completes w returns count net) (hw : WellRead w)
    (hreturns : (w.network.addTransitions w.edges).returnEdges = .ok returns) :
    (w.network.addTransitions net.writtenPairs).withoutStopEdges.withoutActions =
      (w.network.addTransitions w.edges).withoutStopEdges.withoutActions := by
  rw [← Network.withoutStopEdges_withoutActions, ← Network.withoutStopEdges_withoutActions,
    Network.withoutActions_addTransitions, Network.withoutActions_addTransitions]
  refine Network.withoutStopEdges_addTransitions_congr fun k s hs hstop => ?_
  rw [transitionsFrom_map, transitionsFrom_map]
  rw [Option.mem_def, Network.state?_withoutActions] at hs
  obtain ⟨s', hs', rfl⟩ := Option.map_eq_some_iff.mp hs
  obtain ⟨s, hs, hsame⟩ := h.restates.exists_state? hs'
  rw [Stream.transitionsFrom_writtenPairs (h.restates.keeps.number.numbered hw.states.numbered), hs,
    Option.toList_some, List.flatMap_singleton, if_neg (by rw [hsame]; exact Bool.eq_false_iff.mp hstop)]
  exact map_withoutAction_of_renumbered (h.written hw hreturns hs (hsame.trans hstop))

/-- Calls return alike in networks that are the same up to actions and rule stop states. -/
theorem returnEdge?_of_same {net net' : Network} (h : net'.withoutStopEdges.withoutActions =
      net.withoutStopEdges.withoutActions) {t t' : Transition}
    (ht : t'.withoutAction = t.withoutAction) : net'.returnEdge? t' = net.returnEdge? t := by
  have hview (net : Network) (t : Transition) :
      net.withoutStopEdges.withoutActions.returnEdge? t.withoutAction = net.returnEdge? t := by
    rw [Network.returnEdge?_withoutActions]
    exact Network.returnEdge?_viewed State.keepsLinks_withoutStopEdges net t
  rw [← hview, h, ht, hview]

/-- The transitions of the network that was read are those of the stream. -/
theorem mem_transitions_addTransitions (hw : WellRead w) {t : Transition} :
    t ∈ (w.network.addTransitions w.edges).states.flatMap State.transitions ↔
      ∃ edge ∈ w.edges, edge.2 = t := by
  have hnone : w.network.TransitionsAre fun _ => [] := hw.transitions
  have htransitions : (w.network.addTransitions w.edges).TransitionsAre
      (Network.transitionsFrom w.edges) := hnone.addTransitions w.edges
  constructor
  · intro ht
    obtain ⟨s, hs, ht⟩ := List.mem_flatMap.mp ht
    obtain ⟨k, hk⟩ := Network.mem_states.mp hs
    rw [htransitions k s hk] at ht
    obtain ⟨edge, hedge, rfl⟩ := List.mem_map.mp ht
    exact ⟨edge, List.mem_of_mem_filter hedge, rfl⟩
  · rintro ⟨edge, hedge, rfl⟩
    obtain ⟨s, hs⟩ := Option.isSome_iff_exists.mp
      (((Network.keeps_addTransitions w.network w.edges).keeps.isSome edge.1).trans
        (hw.edges edge hedge).1)
    refine List.mem_flatMap.mpr ⟨s, Network.mem_states.mpr ⟨edge.1, hs⟩, ?_⟩
    rw [htransitions edge.1 s hs]
    exact List.mem_map.mpr ⟨edge, List.mem_filter.mpr ⟨hedge, decide_eq_true rfl⟩, rfl⟩

/-- The calls that are written return, as all calls that were read did. -/
theorem Completes.exists_returnEdges (h : Completes w returns count net) (hw : WellRead w)
    (hreread : WellRead (reread w net))
    (hreturns : (w.network.addTransitions w.edges).returnEdges = .ok returns) :
    ∃ returns', (w.network.addTransitions net.writtenPairs).returnEdges = .ok returns' := by
  obtain ⟨found, hfound, -⟩ := bind_eq_ok.mp hreturns
  obtain ⟨found', hfound'⟩ : ∃ found', ((w.network.addTransitions
      net.writtenPairs).states.flatMap State.transitions).mapM
        (w.network.addTransitions net.writtenPairs).returnEdge? = .ok found' := by
    refine exists_mapM_eq_ok fun t ht => ?_
    obtain ⟨pair, hpair, rfl⟩ := (mem_transitions_addTransitions hreread).mp ht
    obtain ⟨s, hs, -, -, ht⟩ := exists_of_mem_writtenPairs hpair
    rcases h.stems hreturns hs ht with ⟨edge, hedge, hrenumbered⟩ | ⟨outermostReturn, hkind⟩
    · obtain ⟨b, -, hb⟩ := exists_of_mem_of_mapM_ok hfound
        ((mem_transitions_addTransitions hw).mpr ⟨edge, hedge, rfl⟩)
      exact ⟨b, (returnEdge?_of_same (h.reread_same hw hreturns) hrenumbered.withoutAction).trans hb⟩
    · exact ⟨none, by rw [Network.returnEdge?, hkind]⟩
  exact ⟨found'.filterMap id, by rw [Network.returnEdges, hfound']; rfl⟩

end

/-! ## Linking -/

/-- Return transitions leave rule stop states only. -/
theorem withoutStopEdges_returned (hw : WellRead w) {returns : List (StateId × Transition)}
    (hreturns : (w.network.addTransitions w.edges).returnEdges = .ok returns) :
    ((w.network.addTransitions w.edges).addTransitions returns).withoutStopEdges =
      (w.network.addTransitions w.edges).withoutStopEdges := by
  refine Network.withoutStopEdges_addTransitions fun k s hs hstop => ?_
  obtain ⟨s', hs', hsame⟩ :=
    (Network.keeps_addTransitions w.network w.edges).restates.symm.exists_state? hs
  exact transitionsFrom_returns hw hreturns hs' (hsame.trans hstop)

/-- Linking succeeds as well from a network that is the same up to actions and rule stop states. -/
theorem exists_linked_of_same {w' : Written} (hw : WellRead w) (hw' : WellRead w')
    (hsame : (w'.network.addTransitions w'.edges).withoutStopEdges.withoutActions =
      (w.network.addTransitions w.edges).withoutStopEdges.withoutActions)
    {returns' : List (StateId × Transition)}
    (hreturns' : (w'.network.addTransitions w'.edges).returnEdges = .ok returns')
    (h : w.linked = .ok linked) :
    ∃ linked', w'.linked = .ok linked' ∧
      linked'.withoutStopEdges.withoutActions = linked.withoutStopEdges.withoutActions := by
  have hview (net : Network) : net.withoutStopEdges.withoutActions.linkBlocksAndLoops =
      (fun net => net.withoutStopEdges.withoutActions) <$> net.linkBlocksAndLoops := by
    rw [Network.withoutActions_linkBlocksAndLoops, Network.withoutStopEdges,
      Network.viewed_linkBlocksAndLoops State.keepsLinks_withoutStopEdges]
    cases net.linkBlocksAndLoops <;> rfl
  obtain ⟨returned, hreturned, hlinked⟩ := bind_eq_ok.mp h
  obtain ⟨returns, hreturns, rfl⟩ := Network.addReturnEdges_eq_ok.mp hreturned
  have hmap := hview ((w'.network.addTransitions w'.edges).addTransitions returns')
  rw [withoutStopEdges_returned hw' hreturns', hsame, ← withoutStopEdges_returned hw hreturns, hview,
    hlinked] at hmap
  cases hlinked' : ((w'.network.addTransitions w'.edges).addTransitions
      returns').linkBlocksAndLoops with
  | error e =>
    rw [hlinked'] at hmap
    cases hmap
  | ok linked' =>
    rw [hlinked'] at hmap
    refine ⟨linked', ?_, (Except.ok.inj hmap).symm⟩
    exact bind_eq_ok.mpr ⟨_, Network.addReturnEdges_eq_ok.mpr ⟨returns', hreturns', rfl⟩,
      hlinked'⟩

/-! ## Loading what was written -/

/-- Decisions are numbered alike. -/
theorem same_addDecisions (net : Network) (ids : List StateId) :
    (net.addDecisions ids).withoutStopEdges.withoutActions =
      net.withoutStopEdges.withoutActions.addDecisions ids := by
  have hview : (net.addDecisions ids).withoutStopEdges = net.withoutStopEdges.addDecisions ids := by
    refine Network.viewed_addDecisions (fun s decision => ?_) net ids
    cases hstop : s.kind.isRuleStop with
    | true =>
      rw [State.withoutStopEdges_of_stop hstop,
        State.withoutStopEdges_of_stop (s := { s with decision }) hstop]
      rfl
    | false =>
      rw [State.withoutStopEdges_of_not_stop hstop,
        State.withoutStopEdges_of_not_stop (s := { s with decision }) hstop]
  rw [hview, Network.withoutActions_addDecisions]

/-- Before precedence decisions are marked, networks are the same but for rule stop states if they
were linked alike and have the same transitions otherwise. -/
theorem result_same {linked' result' : Network}
    (hsame : linked'.withoutStopEdges.withoutActions = linked.withoutStopEdges.withoutActions)
    (hresult : result.withoutActions = (linked.addDecisions ids).withoutActions)
    (hresult' : result'.withoutActions = (linked'.addDecisions ids).withoutActions)
    {transitions : StateId → List Transition}
    (htransitions : result.withoutStopEdges.TransitionsAre transitions)
    (htransitions' : result'.withoutStopEdges.TransitionsAre transitions)
    (hactions : result'.lexerActions = result.lexerActions) :
    result'.withoutStopEdges = result.withoutStopEdges := by
  have hview {linked result : Network}
      (h : result.withoutActions = (linked.addDecisions ids).withoutActions) :
      result.withoutStopEdges.withoutActions =
        linked.withoutStopEdges.withoutActions.addDecisions ids := by
    rw [← Network.withoutStopEdges_withoutActions, h, Network.withoutStopEdges_withoutActions,
      same_addDecisions]
  have hviews : result'.withoutStopEdges.withoutActions = result.withoutStopEdges.withoutActions := by
    rw [hview hresult', hview hresult, hsame]
  refine Network.eq_of_withoutActions hviews ?_ hactions
  refine keeps_of_transitionsAre _ _ htransitions' htransitions fun k => ?_
  have hk := congrArg (fun net => (Network.state? net k).isSome) hviews
  simpa only [Network.state?_withoutActions, Option.isSome_map] using hk.symm

/-- The transitions that are left of a network that was completed from what was written. -/
theorem transitionsAre_reread (hreread : WellRead (reread w net)) (hnumbered : net.Numbered)
    (hrestates : w.network.Restates net) (hresult : w.network.Restates result)
    {returns : List (StateId × Transition)}
    (hreturns : (w.network.addTransitions net.writtenPairs).returnEdges = .ok returns)
    (h : result.TransitionsAre (completedTransitions (reread w net) returns)) :
    result.withoutStopEdges.TransitionsAre (Network.transitionsFrom net.writtenPairs) := by
  intro k s' hs'
  rw [Option.mem_def, Network.state?_withoutStopEdges] at hs'
  obtain ⟨s, hs, rfl⟩ := Option.map_eq_some_iff.mp hs'
  obtain ⟨read, hread, hsame⟩ := hresult.symm.exists_state? hs
  cases hstop : s.kind.isRuleStop with
  | true =>
    rw [State.withoutStopEdges_of_stop hstop]
    exact (noStopEdges_reread hnumbered hrestates k read hread (hsame.trans hstop)).symm
  | false =>
    rw [State.withoutStopEdges_of_not_stop hstop, h k s hs, completedTransitions,
      transitionsFrom_returns hreread hreturns hread (hsame.trans hstop), List.append_nil]
    rfl

/-- Rule stop states with return transitions only do not mix transitions. -/
theorem Completes.unmixed {returns : List (StateId × Transition)} {count : Nat}
    (h : Completes w returns count net) (hstops : NoStopEdges w)
    (hreturns : (w.network.addTransitions w.edges).returnEdges = .ok returns)
    (hflagged : net.Flagged) {k : StateId} {s : State} (hs : s ∈ net.state? k)
    (hstop : s.kind.isRuleStop) : s.epsilonOnly = true ∨ s.transitions.length ≤ 1 := by
  have hepsilon : s.transitions.all Transition.isEpsilon = true := by
    rw [List.all_eq_true, h.returned hstops hreturns hs hstop]
    intro t ht
    obtain ⟨outermostReturn, hkind⟩ := epsilon_of_mem_returns hreturns t ht
    rw [Transition.isEpsilon, hkind]
    rfl
  have hflag := hflagged k s hs
  rw [State.Flagged, hepsilon, Bool.and_true] at hflag
  cases htransitions : s.transitions with
  | nil => exact Or.inr (Nat.zero_le 1)
  | cons first rest =>
    rw [htransitions] at hflag
    exact Or.inl hflag

/-- Apart from the transitions of rule stop states, a load ends by marking precedence decisions. -/
theorem Loaded.withoutStopEdges_eq (h : Loaded options w linked ids result net) :
    net.withoutStopEdges = result.withoutStopEdges.markPrecedenceDecisions := by
  rw [h.marked, Network.markPrecedenceDecisions_withoutStopEdges]

/-- Apart from those of rule stop states, the transitions before the marks are those that are
written. -/
theorem Loaded.transitionsAre_result (h : Loaded options w linked ids result net) :
    result.withoutStopEdges.TransitionsAre (Network.transitionsFrom net.writtenPairs) := by
  have hnumbered := h.restates.keeps.number.numbered h.wellRead.states.numbered
  have hmarks := result.withoutStopEdges.revises_markPrecedenceDecisions.2.keeps
  rw [← h.withoutStopEdges_eq] at hmarks
  exact (transitionsAre_withoutStopEdges hnumbered).of_keeps (hmarks.comp State.transitions).symm

/-- Loading the units of a loaded network takes the same steps, but for the transitions of rule stop
states that were read. -/
theorem Loaded.exists_reloaded (h : Loaded ⟨verify, false⟩ w linked ids result net)
    (hactions : ActionsRead (linked.addDecisions ids) result) :
    ∃ linked' result' again, Loaded ⟨verify, false⟩ (reread w net) linked' ids result' again ∧
      ActionsRead (linked'.addDecisions ids) result' ∧
      Network.load ⟨verify, false⟩ net.serialize = .ok again ∧
      again.withoutStopEdges = net.withoutStopEdges := by
  obtain ⟨returns, hreturns, hwritten, hrest⟩ := linked_eq_ok h.linkedOk
  have hw := h.wellRead
  have hcompletes := h.completes hactions hreturns
  have hnumbered := h.restates.keeps.number.numbered hw.states.numbered
  obtain ⟨hgrammar, -, hdecisions, -, hmodes, -⟩ := h.tables
  have hreread := hcompletes.wellRead_reread hw hactions.count hreturns
  obtain ⟨returns', hreturns'⟩ := hcompletes.exists_returnEdges hw hreread hreturns
  obtain ⟨linked', hlinked', hsame⟩ := exists_linked_of_same hw hreread
    (hcompletes.reread_same hw hreturns) hreturns' h.linkedOk
  obtain ⟨_, hreturns'', hwritten', hrest'⟩ := linked_eq_ok hlinked'
  obtain rfl := Except.ok.inj (hreturns'.symm.trans hreturns'')
  -- The newest stream has a table of actions, so they are read and not moved into one.
  let result' : Network := { linked'.addDecisions ids with lexerActions := net.lexerActions }
  have hrestates' : w.network.Restates (linked'.addDecisions ids) :=
    hwritten'.restates.trans (restates_addDecisions linked' ids)
  have hactions' : ActionsRead (linked'.addDecisions ids) result' :=
    actionsRead_of_actions _ (h.lexerActions_eq ▸ hactions.count)
      (h.lexerActions_eq ▸ hactions.actions) fun hparser =>
        (h.writable hactions).noActions (hgrammar.trans (hrestates'.grammar.symm.trans hparser))
  have htransitions' : (linked'.addDecisions ids).TransitionsAre
      (completedTransitions (reread w net) returns') :=
    (transitions_linked hreread.transitions hrest').of_keeps
      ((linked'.keeps_addDecisions ids).comp State.transitions)
  have hcompletes' := completes_marked (w := reread w net) hrestates' htransitions' hactions'
  have hresult : result'.withoutStopEdges = result.withoutStopEdges := by
    have hrestates'' := hrestates'.trans (restates_of_withoutActions hactions'.withoutActions)
    exact result_same hsame h.withoutActions rfl h.transitionsAre_result
      (transitionsAre_reread hreread hnumbered h.restates hrestates'' hreturns' htransitions')
      h.lexerActions_eq
  have hagain : result'.markPrecedenceDecisions.withoutStopEdges = net.withoutStopEdges := by
    rw [h.withoutStopEdges_eq, Network.markPrecedenceDecisions_withoutStopEdges, hresult]
  have hflagged := flagged_marked hreread hlinked' hactions'.withoutActions
  have hstops := noStopEdges_reread hnumbered h.restates
  -- The networks differ in rule stop states alone, of which only unmixed transitions are asked.
  have hverified : verify = true → result'.markPrecedenceDecisions.Verified := fun hverify =>
    ((complete_eq_ok.mp h.complete).2 hverify).of_withoutStopEdges hagain fun _ _ hs hstop =>
      hcompletes'.unmixed hstops hreturns' hflagged hs hstop
  have hcomplete := complete_eq_ok.mpr ⟨rfl, hverified⟩
  have hloaded : Loaded ⟨verify, false⟩ (reread w net) linked' ids result'
      result'.markPrecedenceDecisions := by
    refine ⟨hreread, hlinked', h.idCount, fun id hid => ?_, rfl, hcomplete, rfl⟩
    rw [hwritten'.keeps.any_admits]
    exact (hwritten.keeps.any_admits _ _).symm.trans (h.admits id hid)
  refine ⟨linked', result', result'.markPrecedenceDecisions, hloaded, hactions', ?_, hagain⟩
  have hrestated : restated net { w.network with modeStarts := [] } = w.network := by
    rw [restated, hmodes]
  have hnone : linked'.lexerActions = [] :=
    (congrArg Network.lexerActions hwritten'.tables).trans hw.lexerActions
  have hload := load_serialize_eq (h.writable hactions) h.statedRules (by
    rw [hrestated]
    exact hlinked') (h.restates.symm.trans hwritten'.restates) hnone ⟨verify, false⟩
  rw [hload, hdecisions]
  exact hcomplete

/-! ## Writing it again -/

/-- The sets to which written transitions refer, each once, in order of first use. -/
def writtenSets (net : Network) : List IntervalSet :=
  ((writtenEdges net).filterMap fun edge => usedSet? edge.2).eraseDups

/-- Sets are used at the ends of rules or by written transitions. -/
theorem usedSets_eq_writtenSets (h : ∀ s ∈ net.states, s.kind.isRuleStop →
      ∀ t ∈ s.transitions, usedSet? t = none) : usedSets net = writtenSets net := by
  rw [usedSets, writtenSets, writtenEdges]
  congr 1
  generalize net.states = states at h
  induction states with
  | nil => rfl
  | cons s rest ih =>
    obtain ⟨hs, hrest⟩ := List.forall_mem_cons.mp h
    rw [List.flatMap_cons, List.filterMap_append, ih hrest, List.filter_cons]
    cases hstop : s.kind.isRuleStop with
    | true =>
      rw [List.filterMap_eq_nil_iff.mpr (hs hstop)]
      rfl
    | false =>
      rw [Bool.not_false, if_pos rfl, List.flatMap_cons, List.filterMap_append, List.filterMap_map]
      rfl

/-- The transitions of rule stop states are not written. -/
theorem writtenEdges_withoutStopEdges (net : Network) :
    writtenEdges net.withoutStopEdges = writtenEdges net := by
  rw [writtenEdges, writtenEdges, Network.withoutStopEdges, Network.states_viewed]
  induction net.states with
  | nil => rfl
  | cons s rest ih =>
    rw [List.map_cons, List.filter_cons, List.filter_cons, s.kind_withoutStopEdges]
    cases hstop : s.kind.isRuleStop with
    | true => exact ih
    | false =>
      rw [Bool.not_false, if_pos rfl, if_pos rfl, List.flatMap_cons, List.flatMap_cons, ih,
        State.withoutStopEdges_of_not_stop hstop]

/-- Which states have a property is written without regard to transitions of rule stop states. -/
theorem numbersOf_withoutStopEdges {property : State → Bool}
    (h : ∀ s : State, property s.withoutStopEdges = property s) (net : Network) :
    numbersOf net.withoutStopEdges property = numbersOf net property := by
  have hproperty : property ∘ State.withoutStopEdges = property := funext h
  rw [numbersOf, numbersOf, Network.withoutStopEdges, Network.states_viewed, List.filter_map,
    hproperty, List.map_map]
  refine List.map_congr_left fun s _ => ?_
  rw [Function.comp_apply, State.keepsLinks_withoutStopEdges.number]

/-- The section of the states does not tell the transitions of rule stop states. -/
theorem stateSection_withoutStopEdges (revision : Revision) (net : Network) :
    stateSection revision net.withoutStopEdges = stateSection revision net := by
  have hslots : net.withoutStopEdges.slots.toList.flatMap slotValues =
      net.slots.toList.flatMap slotValues := by
    change ((net.slots.map (Option.map State.withoutStopEdges)).toList.flatMap slotValues) = _
    rw [Array.toList_map, List.flatMap_map]
    congr 1
    funext slot
    cases slot with
    | none => rfl
    | some s =>
      rw [Option.map_some, slotValues, slotValues, s.kind_withoutStopEdges,
        State.keepsLinks_withoutStopEdges.rule]
  rw [stateSection, stateSection, hslots, Network.withoutStopEdges, Network.size_viewed]
  congr 3
  · refine numbersOf_withoutStopEdges (fun s => ?_) net
    rw [State.withoutStopEdges]
    split <;> rfl
  · refine numbersOf_withoutStopEdges (fun s => ?_) net
    rw [s.kind_withoutStopEdges]

section

variable {net' : Network} (hsame : net'.withoutStopEdges = net.withoutStopEdges)

include hsame

/-- The values in front of the sets do not tell the transitions of rule stop states. -/
theorem sections_same (revision : Revision) :
    net'.grammar = net.grammar ∧ net'.maxTokenType = net.maxTokenType ∧
      stateSection revision net' = stateSection revision net ∧ ruleSection net' = ruleSection net ∧
      modeSection net' = modeSection net := by
  have hgrammar := congrArg Network.grammar hsame
  have hmax := congrArg Network.maxTokenType hsame
  have hstates := congrArg (stateSection revision) hsame
  have hrules := congrArg ruleSection hsame
  have hmodes := congrArg modeSection hsame
  rw [stateSection_withoutStopEdges, stateSection_withoutStopEdges] at hstates
  exact ⟨hgrammar, hmax, hstates, hrules, hmodes⟩

/-- Networks that are the same but for rule stop states have the same written transitions. -/
theorem writtenEdges_same : writtenEdges net' = writtenEdges net := by
  rw [← writtenEdges_withoutStopEdges, hsame, writtenEdges_withoutStopEdges]

/-- Networks that are the same but for rule stop states are written alike if the sets are. -/
theorem serialize_eq_of_usedSets (hsets : usedSets net' = usedSets net) :
    net'.serialize = net.serialize := by
  obtain ⟨hgrammar, hmax, hstates, hrules, hmodes⟩ := sections_same hsame .newest
  have hdecisions := congrArg decisionSection hsame
  have hactions := congrArg (lexerActionSection .newest) hsame
  change decisionSection net' = decisionSection net at hdecisions
  change lexerActionSection .newest net' = lexerActionSection .newest net at hactions
  have hset : setSection net' = setSection net := by rw [setSection, setSection, hsets]
  have hedges : edgeSection net' = edgeSection net := by
    rw [edgeSection, edgeSection, hsets, writtenEdges_same hsame]
  rw [Network.serialize, Network.serialize, values, values, hgrammar, hmax, hstates, hrules, hmodes,
    hset, hedges, hdecisions, hactions]

/-- In front of the sets stand the same values. -/
theorem exists_values_eq : ∃ before behind behind',
    values .newest net = formatVersion :: (before ++ (setSection net ++ behind)) ∧
      values .newest net' = formatVersion :: (before ++ (setSection net' ++ behind')) := by
  obtain ⟨hgrammar, hmax, hstates, hrules, hmodes⟩ := sections_same hsame .newest
  refine ⟨identifierValues .newest ++ ([net.grammar.code, net.maxTokenType] ++
    (stateSection .newest net ++ (ruleSection net ++ modeSection net))),
    edgeSection net ++ (decisionSection net ++ lexerActionSection .newest net),
    edgeSection net' ++ (decisionSection net' ++ lexerActionSection .newest net'), ?_, ?_⟩
  · simp only [values, List.append_assoc, List.cons_append]
  · simp only [values, List.append_assoc, List.cons_append, hgrammar, hmax, hstates, hrules, hmodes]

/-- The sets are read back from the units, so that they are the same if the units are. -/
theorem usedSets_eq_of_serialize (h : net.Writable) (h' : net'.Writable)
    (hunits : net'.serialize = net.serialize) : usedSets net' = usedSets net := by
  obtain ⟨before, behind, behind', hvalues, hvalues'⟩ := exists_values_eq hsame
  rw [Network.serialize, Network.serialize, hvalues, hvalues'] at hunits
  have htail : before.map encodeUnit ++ ((setSection net').map encodeUnit ++
      behind'.map encodeUnit) = before.map encodeUnit ++ ((setSection net).map encodeUnit ++
        behind.map encodeUnit) := by
    rw [← List.map_append, ← List.map_append, ← List.map_append, ← List.map_append]
    exact List.tail_eq_of_cons_eq hunits
  have hread := reads_sets h' (behind'.map encodeUnit) 1 Nat.one_pos
  rw [List.append_cancel_left htail, reads_sets h _ 1 Nat.one_pos] at hread
  exact (Except.ok.inj (congrArg Prod.fst hread)).symm

end

end Stream

/-- Whatever was loaded without bypass transitions can be written and loaded again, and the result
is the same but for the transitions of rule stop states. It is written as the same units exactly if
every set that was written belongs to a written transition; and it is loaded again from whatever it
is written as. -/
theorem Network.serialize_reloaded {verify : Bool} {units : List UInt16} {net : Network}
    (hload : Network.load ⟨verify, false⟩ units = .ok net) :
    ∃ again, Network.load ⟨verify, false⟩ net.serialize = .ok again ∧
      again.withoutStopEdges = net.withoutStopEdges ∧
      (again.serialize = net.serialize ↔ Stream.usedSets net = Stream.writtenSets net) ∧
      Network.load ⟨verify, false⟩ again.serialize = .ok again := by
  obtain ⟨w, cursor, linked, ids, result, -, hloaded, hyields⟩ := Stream.exists_loaded hload
  have hactions := hloaded.actionsRead_of_yields hyields
  obtain ⟨linked', result', again, hagain, hactions', hreload, hsame⟩ :=
    hloaded.exists_reloaded hactions
  have hnumbered := hloaded.restates.keeps.number.numbered hloaded.wellRead.states.numbered
  have hstops := Stream.noStopEdges_reread hnumbered hloaded.restates
  refine ⟨again, hreload, hsame, ?_, hagain.reload hstops hactions'⟩
  -- The rule stop states have return transitions only, to which no set belongs.
  have hsets : Stream.usedSets again = Stream.writtenSets net := by
    obtain ⟨returns, hreturns, -, -⟩ := Stream.linked_eq_ok hagain.linkedOk
    have hcompletes := hagain.completes hactions' hreturns
    rw [Stream.writtenSets, ← Stream.writtenEdges_same hsame, ← Stream.writtenSets]
    refine Stream.usedSets_eq_writtenSets fun s hs hstop t ht => ?_
    obtain ⟨k, hk⟩ := Network.mem_states.mp hs
    rw [hcompletes.returned hstops hreturns hk hstop] at ht
    obtain ⟨outermostReturn, hkind⟩ := Stream.epsilon_of_mem_returns hreturns t ht
    rw [Stream.usedSet?, hkind]
  rw [← hsets]
  exact ⟨fun hunits => (Stream.usedSets_eq_of_serialize hsame (hloaded.writable hactions)
    (hagain.writable hactions') hunits).symm, fun hused =>
      Stream.serialize_eq_of_usedSets hsame hused.symm⟩

/-- A parser of one rule, whose last state has a transition with a set of its own. -/
def stopSetUnits : List UInt16 :=
  Stream.encode ([3] ++ Stream.identifierValues .newest ++ [1, 5] ++ [2, 2, 0, 7, 0, 0, 0] ++
    [1, 0] ++ [0] ++ [1, 1, 0, 1, 2] ++ [2, 0, 1, 1, 0, 0, 0, 1, 0, 7, 0, 0, 0] ++ [0])

/-- That parser, with or without the transition of its last state. -/
def stopSetParser (stopEdges : List Transition) : Network where
  grammar := .parser
  maxTokenType := 5
  slots := #[
    some ⟨0, some 0, .ruleStart (some 1) false, [.epsilon 1], true, none, false⟩,
    some ⟨1, some 0, .ruleStop, stopEdges, false, none, false⟩]
  decisions := []
  ruleStarts := [0]
  ruleStops := [some 1]
  modeStarts := []
  ruleTokenTypes := []
  lexerActions := []

/-- The transition of the last state leaves its set behind, until the parser is written again. -/
theorem Network.serialize_reloaded_stopSet :
    Network.load ⟨true, false⟩ stopSetUnits =
        .ok (stopSetParser [⟨0, .set ⟨[⟨1, 2⟩]⟩⟩]) ∧
      ∃ again, Network.load ⟨true, false⟩ (stopSetParser [⟨0, .set ⟨[⟨1, 2⟩]⟩⟩]).serialize =
          .ok again ∧
        again.withoutStopEdges = (stopSetParser [⟨0, .set ⟨[⟨1, 2⟩]⟩⟩]).withoutStopEdges ∧
        (again.serialize = (stopSetParser [⟨0, .set ⟨[⟨1, 2⟩]⟩⟩]).serialize ↔
          Stream.usedSets (stopSetParser [⟨0, .set ⟨[⟨1, 2⟩]⟩⟩]) =
            Stream.writtenSets (stopSetParser [⟨0, .set ⟨[⟨1, 2⟩]⟩⟩])) ∧
        Network.load ⟨true, false⟩ again.serialize = .ok again := by
  have hload : Network.load ⟨true, false⟩ stopSetUnits =
      .ok (stopSetParser [⟨0, .set ⟨[⟨1, 2⟩]⟩⟩]) := by decide +kernel
  exact ⟨hload, Network.serialize_reloaded hload⟩

/-- What is written a second time may differ from what was written first: the set of that
transition is no longer written. -/
theorem Network.not_serialize_fixed_of_stopSet :
    ¬ ∀ (units : List UInt16) (net : Network), Network.load ⟨true, false⟩ units = .ok net →
      ∃ again, Network.load ⟨true, false⟩ net.serialize = .ok again ∧
        again.serialize = net.serialize := by
  intro h
  have hload : Network.load ⟨true, false⟩ stopSetUnits =
      .ok (stopSetParser [⟨0, .set ⟨[⟨1, 2⟩]⟩⟩]) := by decide +kernel
  have hreload : Network.load ⟨true, false⟩ (stopSetParser [⟨0, .set ⟨[⟨1, 2⟩]⟩⟩]).serialize =
      .ok (stopSetParser []) := by decide +kernel
  obtain ⟨again, hagain, hfixed⟩ := h stopSetUnits _ hload
  rw [hreload, Except.ok.injEq] at hagain
  subst hagain
  exact absurd hfixed (by decide +kernel)

end TransitionNetwork
