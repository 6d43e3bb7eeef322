import TransitionNetwork.Proofs.Stream.LoadedNetworks

/-!
# Loading a network again

Writing a loaded network and loading what was written gives the same network, state by state and
table by table, provided that its rule stop states have no transitions but those that return from
their rules. The written parts of the states are read back, the written transitions are those of
the network, and what follows from both is found anew by the same steps.
-/

namespace TransitionNetwork

namespace Stream

open Decoder

variable {options : LoadOptions} {w : Written} {linked result net : Network} {ids : List StateId}

/-! ## The loaded network -/

/-- A loaded network has the written parts of the states that were read. -/
theorem Loaded.restates (h : Loaded options w linked ids result net) : w.network.Restates net := by
  obtain ⟨returns, -, hwritten, -⟩ := linked_eq_ok h.linkedOk
  rw [h.marked]
  exact ((hwritten.restates.trans (restates_addDecisions linked ids)).trans
    (restates_of_withoutActions h.withoutActions)).trans
      result.revises_markPrecedenceDecisions.1.restates

/-- Apart from rule stops and lexer actions, the tables are the ones that were read. -/
theorem Loaded.tables (h : Loaded options w linked ids result net) :
    net.grammar = w.network.grammar ∧ net.maxTokenType = w.network.maxTokenType ∧
      net.decisions = ids ∧ net.ruleStarts = w.network.ruleStarts ∧
      net.modeStarts = w.network.modeStarts ∧ net.ruleTokenTypes = w.network.ruleTokenTypes := by
  obtain ⟨returns, -, hwritten, -⟩ := linked_eq_ok h.linkedOk
  have hlinked := hwritten.tables
  have hdecided := linked.tables_addDecisions ids
  have hresult := congrArg Network.tables h.withoutActions
  have hnet := result.revises_markPrecedenceDecisions.1.tables
  rw [← h.marked] at hnet
  rw [Network.tables_withoutActions, Network.tables_withoutActions, hdecided, ← hnet,
    hlinked] at hresult
  have hdecisions : linked.decisions = [] := by
    have hsame := congrArg Network.decisions hlinked
    exact hsame.trans h.wellRead.decisions
  simp only [Network.tables, Network.mk.injEq, true_and, and_true, hdecisions,
    List.nil_append] at hresult
  obtain ⟨hgrammar, hmax, hids, hstarts, -, hmodes, htokens⟩ := hresult
  exact ⟨hgrammar, hmax, hids, hstarts, hmodes, htokens⟩

/-- The decided network has the transitions of the stream and the return transitions. -/
theorem Loaded.transitionsAre_decided (h : Loaded options w linked ids result net)
    {returns : List (StateId × Transition)}
    (hrest : Network.Revises State.withoutKind
      ((w.network.addTransitions w.edges).addTransitions returns) linked) :
    (linked.addDecisions ids).TransitionsAre (completedTransitions w returns) :=
  (transitions_linked h.wellRead.transitions hrest).of_keeps
    ((linked.keeps_addDecisions ids).comp State.transitions)

/-- The actions of a loaded network can be written. -/
theorem Loaded.actionsRead (h : Loaded options w linked ids result net) (hstops : NoStopEdges w)
    (hyields : ∀ property, Yields (lexerActions w.revision (linked.addDecisions ids)) property →
      property result) :
    ActionsRead (linked.addDecisions ids) result := by
  obtain ⟨returns, hreturns, hwritten, hrest⟩ := linked_eq_ok h.linkedOk
  have hdecided := completes_of_transitionsAre
    (hwritten.restates.trans (restates_addDecisions linked ids)) (h.transitionsAre_decided hrest)
  have hnone : (linked.addDecisions ids).lexerActions = [] := by
    have hsame := congrArg Network.lexerActions
      ((linked.tables_addDecisions ids).trans (by rw [hwritten.tables]))
    exact hsame.trans h.wellRead.lexerActions
  refine hyields _ (yields_lexerActions hnone (hdecided.edgeCount h.wellRead hreturns)
    (fun s hs hstop t ht => ?_) (hdecided.writable h.wellRead (by decide) hreturns))
  obtain ⟨k, hk⟩ := Network.mem_states.mp hs
  rw [hdecided.returned hstops hreturns hk hstop] at ht
  exact epsilon_of_mem_returns hreturns t ht

/-- The steps behind the lexer actions leave their table. -/
theorem Loaded.lexerActions_eq (h : Loaded options w linked ids result net) :
    net.lexerActions = result.lexerActions := by
  rw [h.marked]
  rfl

/-- A loaded network completes the stream from which it was read. -/
theorem Loaded.completes (h : Loaded options w linked ids result net)
    (hactions : ActionsRead (linked.addDecisions ids) result)
    {returns : List (StateId × Transition)}
    (hreturns : (w.network.addTransitions w.edges).returnEdges = .ok returns) :
    Completes w returns result.lexerActions.length net := by
  obtain ⟨returns', hreturns', hwritten, hrest⟩ := linked_eq_ok h.linkedOk
  obtain rfl : returns = returns' := Except.ok.inj (hreturns.symm.trans hreturns')
  rw [h.marked]
  exact completes_marked (hwritten.restates.trans (restates_addDecisions linked ids))
    (h.transitionsAre_decided hrest) hactions

/-- A loaded network can be written. -/
theorem Loaded.writable (h : Loaded options w linked ids result net)
    (hactions : ActionsRead (linked.addDecisions ids) result) : net.Writable := by
  obtain ⟨returns, hreturns, hwritten, -⟩ := linked_eq_ok h.linkedOk
  have hrestates := h.restates
  have hcompletes := h.completes hactions hreturns
  have hlexerActions := h.lexerActions_eq
  obtain ⟨hgrammar, hmax, hdecisions, hstarts, hmodes, htokens⟩ := h.tables
  have hread := h.wellRead
  have hadmits {role : StateRole} {id : StateId} (hid : (w.network.kind? id).any role.admits) :
      (net.kind? id).any role.admits := (hrestates.keeps.any_admits _ _).trans hid
  exact {
    toStatesWritable := hread.states.of_keeps hrestates.size hrestates.keeps
    maxTokenType := hmax ▸ hread.maxTokenType
    ruleCount := hstarts ▸ hread.rules.count
    ruleStarts := fun id hid => hadmits (hread.rules.admits id (hstarts ▸ hid))
    tokenCount := fun hlexer => by
      rw [htokens, hstarts]
      exact hread.rules.tokenCount (hgrammar.symm.trans hlexer)
    tokens := htokens ▸ hread.rules.isValue
    noTokens := fun hparser => htokens.trans (hread.rules.noTokens (hgrammar.symm.trans hparser))
    modeCount := hmodes ▸ hread.modeCount
    modes := fun id hid => (hrestates.keeps.isSome id).trans (hread.modes id (hmodes ▸ hid))
    edgeCount := hcompletes.edgeCount hread hreturns
    edges := hcompletes.writable hread hactions.count hreturns
    setCount := (hcompletes.sets hread hreturns).1
    sets := (hcompletes.sets hread hreturns).2
    decisionCount := hdecisions ▸ h.idCount
    decisions := fun id hid => by
      rw [hdecisions] at hid
      apply hadmits
      rw [← hwritten.keeps.any_admits]
      exact h.admits id hid
    actionCount := hlexerActions ▸ hactions.count
    actions := hlexerActions ▸ hactions.actions
    noActions := fun hparser => hlexerActions.trans (hactions.noActions (by
      rw [h.marked] at hparser
      exact hparser)) }

/-! ## Loading it again -/

/-- The states and rules that are written are those that were read. -/
theorem Loaded.statedRules (h : Loaded options w linked ids result net) :
    net.statedRules.linkRuleStops = .ok { w.network with modeStarts := [] } := by
  have hsame : net.statedRules = w.network.statedRules := by
    obtain ⟨hgrammar, hmax, -, hstarts, -, htokens⟩ := h.tables
    have hrestates := h.restates
    refine Network.eq_of_state? ?_ ?_ fun k => ?_
    · simp only [Network.tables, Network.statedRules, Network.stated, hgrammar, hmax, hstarts,
        htokens]
    · exact (net.size_stated.trans hrestates.size).trans w.network.size_stated.symm
    · change net.stated.state? k = w.network.stated.state? k
      rw [Network.state?_stated, Network.state?_stated]
      exact hrestates.keeps k
  rw [hsame]
  exact h.wellRead.rulesLinked

/-- Changed transitions leave the states that they left. -/
theorem transitionsFrom_map (f : Transition → Transition) (edges : List (StateId × Transition))
    (k : StateId) :
    Network.transitionsFrom (edges.map fun edge => (edge.1, f edge.2)) k =
      (Network.transitionsFrom edges k).map f := by
  rw [Network.transitionsFrom, Network.transitionsFrom, List.filter_map, List.map_map,
    List.map_map]
  rfl

/-- Networks with the same transitions up to actions differ in actions only. -/
theorem withoutActions_addTransitions_congr {net : Network}
    {edges edges' : List (StateId × Transition)}
    (h : ∀ k, (net.state? k).isSome →
      (Network.transitionsFrom edges' k).map Transition.withoutAction =
        (Network.transitionsFrom edges k).map Transition.withoutAction) :
    (net.addTransitions edges').withoutActions = (net.addTransitions edges).withoutActions := by
  rw [Network.withoutActions_addTransitions, Network.withoutActions_addTransitions,
    Network.addTransitions_eq_modifyEach, Network.addTransitions_eq_modifyEach]
  apply Network.modifyEach_congr
  intro k s hs
  have hlive : (net.state? k).isSome := by
    rw [Network.state?_withoutActions] at hs
    obtain ⟨s', hs', -⟩ := Option.map_eq_some_iff.mp hs
    rw [hs']
    rfl
  have hk := h k hlive
  rw [← transitionsFrom_map, ← transitionsFrom_map] at hk
  have hfold := congrArg (List.foldl State.addTransition s) hk
  rwa [Network.transitionsFrom, Network.transitionsFrom, List.foldl_map, List.foldl_map] at hfold

/-- Linking gives the same network up to actions. -/
theorem withoutActions_linked (w : Written) :
    Network.withoutActions <$> w.linked =
      (w.network.addTransitions w.edges).withoutActions.addReturnEdges >>=
        Network.linkBlocksAndLoops := by
  rw [Network.withoutActions_addReturnEdges, Written.linked]
  cases (w.network.addTransitions w.edges).addReturnEdges with
  | error e => rfl
  | ok net => exact (Network.withoutActions_linkBlocksAndLoops net).symm

/-- Linking succeeds as well from the same network up to actions. -/
theorem exists_linked_of_withoutActions {w' : Written}
    (hsame : (w'.network.addTransitions w'.edges).withoutActions =
      (w.network.addTransitions w.edges).withoutActions) (h : w.linked = .ok linked) :
    ∃ linked', w'.linked = .ok linked' ∧ linked'.withoutActions = linked.withoutActions := by
  have hmap := withoutActions_linked w'
  rw [hsame, ← withoutActions_linked, h] at hmap
  cases hlinked' : w'.linked with
  | error e =>
    rw [hlinked'] at hmap
    cases hmap
  | ok linked' =>
    rw [hlinked'] at hmap
    exact ⟨linked', rfl, Except.ok.inj hmap⟩

/-- What is loaded from the units of a loaded network, up to its transitions. -/
def reread (w : Written) (net : Network) : Written := ⟨.newest, w.network, net.writtenPairs⟩

/-- The written transitions of a loaded network are those that were read, up to actions. -/
theorem Completes.transitionsFrom_writtenPairs {returns : List (StateId × Transition)}
    {count : Nat} (h : Completes w returns count net) (hw : WellRead w) (hstops : NoStopEdges w)
    (hreturns : (w.network.addTransitions w.edges).returnEdges = .ok returns) {k : StateId}
    (hlive : (w.network.state? k).isSome) :
    List.Forall₂ (Transition.Renumbered count) (Network.transitionsFrom w.edges k)
      (Network.transitionsFrom net.writtenPairs k) := by
  rw [Stream.transitionsFrom_writtenPairs (h.restates.keeps.number.numbered hw.states.numbered)]
  obtain ⟨s, hs⟩ := Option.isSome_iff_exists.mp ((h.restates.keeps.isSome k).trans hlive)
  obtain ⟨s', hs', hsame⟩ := h.exists_state? hs
  rw [hs, Option.toList_some, List.flatMap_singleton]
  cases hstop : s.kind.isRuleStop with
  | true =>
    rw [hstops k s' hs' (hsame.trans hstop)]
    exact List.Forall₂.nil
  | false => exact h.written hw hreturns hs hstop

/-- All transitions of a loaded network are written ones and return transitions. -/
theorem Completes.transitionsAre {returns : List (StateId × Transition)} {count : Nat}
    (h : Completes w returns count net) (hw : WellRead w) (hstops : NoStopEdges w)
    (hreturns : (w.network.addTransitions w.edges).returnEdges = .ok returns) :
    net.TransitionsAre (completedTransitions (reread w net) returns) := by
  intro k s hs
  rw [completedTransitions, reread, Stream.transitionsFrom_writtenPairs
    (h.restates.keeps.number.numbered hw.states.numbered), Option.mem_def.mp hs,
    Option.toList_some, List.flatMap_singleton]
  cases hstop : s.kind.isRuleStop with
  | true => exact h.returned hstops hreturns hs hstop
  | false =>
    obtain ⟨s', hs', hsame⟩ := h.exists_state? hs
    rw [transitionsFrom_returns hw hreturns hs' (hsame.trans hstop), List.append_nil]
    rfl

/-- Two networks with the same states up to actions have the same transitions if these are given
by the numbers of the states. -/
theorem keeps_of_transitionsAre (net net' : Network) {transitions : StateId → List Transition}
    (h : net.TransitionsAre transitions) (h' : net'.TransitionsAre transitions)
    (hlive : ∀ k, (net'.state? k).isSome = (net.state? k).isSome) :
    Network.Keeps State.transitions net net' := by
  intro k
  have hk := hlive k
  cases hs : net.state? k with
  | none =>
    rw [hs, Option.isSome_none, Option.isSome_eq_false_iff, Option.isNone_iff_eq_none] at hk
    rw [hk]
  | some s =>
    obtain ⟨s', hs'⟩ := Option.isSome_iff_exists.mp (hk.trans (by rw [hs]; rfl))
    rw [hs', Option.map_some, Option.map_some, h k s hs, h' k s' hs']

/-- Loading the units of a loaded network takes the same steps. -/
theorem Loaded.reload (h : Loaded options w linked ids result net) (hstops : NoStopEdges w)
    (hactions : ActionsRead (linked.addDecisions ids) result) :
    Network.load options net.serialize = .ok net := by
  obtain ⟨returns, hreturns, -, -⟩ := linked_eq_ok h.linkedOk
  have hcompletes := h.completes hactions hreturns
  -- The transitions that are read differ in their actions at most, so linking succeeds again.
  have hsame : ((reread w net).network.addTransitions (reread w net).edges).withoutActions =
      (w.network.addTransitions w.edges).withoutActions := by
    exact withoutActions_addTransitions_congr fun k hk => map_withoutAction_of_renumbered
      (hcompletes.transitionsFrom_writtenPairs h.wellRead hstops hreturns hk)
  obtain ⟨linked', hlinked', hlinkedSame⟩ := exists_linked_of_withoutActions hsame h.linkedOk
  obtain ⟨returns', hreturns', hwritten', hrest'⟩ := linked_eq_ok hlinked'
  rw [← Network.returnEdges_withoutActions, hsame, Network.returnEdges_withoutActions, hreturns,
    Except.ok.injEq] at hreturns'
  subst hreturns'
  obtain ⟨-, -, hdecisions, -, hmodes, -⟩ := h.tables
  have hrestated : restated net { w.network with modeStarts := [] } = w.network := by
    rw [restated, hmodes]
  have hnone : linked'.lexerActions = [] := by
    have hlexer := congrArg Network.lexerActions hwritten'.tables
    exact hlexer.trans h.wellRead.lexerActions
  have hlinkedAgain : Written.linked ⟨.newest, restated net { w.network with modeStarts := [] },
      net.writtenPairs⟩ = .ok linked' := by
    rw [hrestated]
    exact hlinked'
  have hload := load_serialize_eq (h.writable hactions) h.statedRules hlinkedAgain
    (h.restates.symm.trans hwritten'.restates) hnone options
  have hresult : { linked'.addDecisions net.decisions with lexerActions := net.lexerActions } =
      result := by
    refine Network.eq_of_withoutActions ?_ ?_ h.lexerActions_eq
    · change (linked'.addDecisions net.decisions).withoutActions = _
      rw [h.withoutActions, Network.withoutActions_addDecisions, hlinkedSame, hdecisions,
        Network.withoutActions_addDecisions]
    · have hmarks := result.revises_markPrecedenceDecisions.2.keeps
      rw [← h.marked] at hmarks
      have hdecided' := restates_addDecisions linked' net.decisions
      refine keeps_of_transitionsAre (linked'.addDecisions net.decisions) _
        ((transitions_linked (w := reread w net) h.wellRead.transitions hrest').of_keeps
          ((linked'.keeps_addDecisions net.decisions).comp State.transitions))
        ((hcompletes.transitionsAre h.wellRead hstops hreturns).of_keeps
          (hmarks.comp State.transitions).symm) fun k => ?_
      rw [← hmarks.isSome, h.restates.keeps.isSome, hdecided'.keeps.isSome,
        hwritten'.keeps.isSome]
      rfl
  rw [hload, hresult]
  exact h.complete

/-- The transitions that the units state; none if the units cannot be read that far. -/
def statedEdges (units : List UInt16) : List (StateId × Transition) :=
  match (written.runOn units).1 with
  | .ok w => w.edges
  | .error _ => []

/-- No rule stop state of a network has a transition that the units state. -/
def StatesNoStopEdges (units : List UInt16) (net : Network) : Prop :=
  ∀ edge ∈ statedEdges units, (net.kind? edge.1).any StateKind.isRuleStop = false

instance (units : List UInt16) (net : Network) : Decidable (StatesNoStopEdges units net) :=
  inferInstanceAs (Decidable (∀ edge ∈ statedEdges units, _))

/-- If the units state no transition of a rule stop state, then none is read. -/
theorem noStopEdges_of_statesNoStopEdges {units : List UInt16} {cursor : Cursor}
    (h : StatesNoStopEdges units net) (hwritten : written.runOn units = (.ok w, cursor))
    (hrestates : w.network.Restates net) : NoStopEdges w := by
  intro k s hs hstop
  rw [Network.transitionsFrom, List.map_eq_nil_iff, List.filter_eq_nil_iff]
  intro edge hedge hk
  have hnone := h edge (by rwa [statedEdges, hwritten])
  obtain ⟨s', hs'⟩ := Option.isSome_iff_exists.mp ((hrestates.keeps.isSome k).trans (by
    rw [Option.mem_def.mp hs]
    rfl))
  have htype := hrestates.keeps.type k
  rw [hs', Option.mem_def.mp hs, Option.map_some, Option.map_some, Option.some.injEq] at htype
  rw [of_decide_eq_true hk, Network.kind?, hs', Option.map_some, Option.any_some,
    StateKind.isRuleStop_eq, htype, ← StateKind.isRuleStop_eq, hstop] at hnone
  cases hnone

end Stream

/-- A network that was loaded without bypass transitions is loaded again from the units that it
is written as, whatever the revision and the grammar type of the stream that it came from. -/
theorem Network.load_serialize {verify : Bool} {units : List UInt16} {net : Network}
    (hload : Network.load ⟨verify, false⟩ units = .ok net)
    (hstops : Stream.StatesNoStopEdges units net) :
    Network.load ⟨verify, false⟩ net.serialize = .ok net := by
  obtain ⟨w, cursor, linked, ids, result, hwritten, hloaded, hyields⟩ :=
    Stream.exists_loaded hload
  have hnone := Stream.noStopEdges_of_statesNoStopEdges hstops hwritten hloaded.restates
  exact hloaded.reload hnone (hloaded.actionsRead hnone hyields)

/-- A lexer in the earliest revision: a hole, a block, a call, an action that its transition still
describes and a label with the end of the input. -/
def oldLexerUnits : List UInt16 :=
  Stream.encode ([3] ++ Stream.identifierValues .base ++ [0, 2] ++
    [12, 6, 65535, 2, 0, 7, 0, 1, 0, 1, 0, 0, 3, 0, 7, 8, 0, 2, 1, 7, 1, 1, 1, 1, 0] ++
    [0] ++ [2, 1, 1, 8, 2] ++ [1, 0] ++ [1, 1, 1, 97, 122] ++
    [9, 0, 1, 1, 0, 0, 0, 1, 6, 1, 0, 0, 0, 6, 3, 1, 0, 0, 0, 3, 11, 3, 8, 1, 0, 11, 4, 7, 0, 0, 0,
      4, 7, 6, 0, 3, 1, 7, 2, 1, 0, 0, 0, 8, 10, 1, 0, 0, 0, 10, 9, 5, 0, 0, 1] ++ [2, 0, 6])

/-- The network of that lexer. -/
def oldLexer : Network where
  grammar := .lexer
  maxTokenType := 2
  slots := #[
    some ⟨0, none, .tokenStart, [.epsilon 1], true, some 0, false⟩,
    some ⟨1, some 0, .ruleStart (some 2) false, [.epsilon 6], true, none, false⟩,
    some ⟨2, some 0, .ruleStop, [], false, none, false⟩,
    some ⟨3, some 0, .basic, [⟨8, .rule 1 0 11⟩], true, none, false⟩,
    some ⟨4, some 0, .basic, [⟨7, .action 0 (some 0) false⟩], true, none, false⟩,
    none,
    some ⟨6, some 0, .blockStart .basic (some 7), [.epsilon 3], true, some 1, false⟩,
    some ⟨7, some 0, .blockEnd (some 6), [.epsilon 2], true, none, false⟩,
    some ⟨8, some 1, .ruleStart (some 9) false, [.epsilon 10], true, none, false⟩,
    some ⟨9, some 1, .ruleStop, [.epsilon 11], true, none, false⟩,
    some ⟨10, some 1, .basic, [.atom 9 (-1)], false, none, false⟩,
    some ⟨11, some 0, .basic, [⟨4, .set ⟨[⟨-1, -1⟩, ⟨97, 122⟩]⟩⟩], false, none, false⟩]
  decisions := [0, 6]
  ruleStarts := [1, 8]
  ruleStops := [some 2, some 9]
  modeStarts := [0]
  ruleTokenTypes := [1, 2]
  lexerActions := [.custom 0 3]

/-- The lexer is loaded again, with its action in the table. -/
theorem Network.load_serialize_oldLexer :
    Network.load ⟨true, false⟩ oldLexerUnits = .ok oldLexer ∧
      Stream.StatesNoStopEdges oldLexerUnits oldLexer ∧
      Network.load ⟨true, false⟩ oldLexer.serialize = .ok oldLexer := by
  have hload : Network.load ⟨true, false⟩ oldLexerUnits = .ok oldLexer := by decide +kernel
  have hstops : Stream.StatesNoStopEdges oldLexerUnits oldLexer := by decide +kernel
  exact ⟨hload, hstops, Network.load_serialize hload hstops⟩

end TransitionNetwork
