import TransitionNetwork.Load
import TransitionNetwork.Proofs.Network.DerivedParts
import TransitionNetwork.Proofs.Stream.StatesRead

/-!
# Reading written networks back

The units of a network that can be written are read section by section: the written parts of the
states, the rules with their last states found anew, the modes, the sets, the transitions that do
not leave rule stop states, the decisions and the lexer actions. What loading makes of the units
is therefore determined by what it makes of these parts.
-/

namespace TransitionNetwork

namespace Network

/-- Networks that can be written: besides the states, every number fits into a unit, references
are to states of the right kind, the sets that transitions refer to can be written, also those of
rule stop states, and only lexers have token types of rules and lexer actions. -/
structure Writable (net : Network) : Prop extends net.StatesWritable where
  maxTokenType : Stream.IsValue net.maxTokenType
  ruleCount : Stream.IsValue net.ruleStarts.length
  ruleStarts : ∀ id ∈ net.ruleStarts, (net.kind? id).any StateRole.ruleStart.admits
  tokenCount : net.grammar = .lexer → net.ruleTokenTypes.length = net.ruleStarts.length
  tokens : ∀ token ∈ net.ruleTokenTypes, Stream.IsValue token
  noTokens : net.grammar = .parser → net.ruleTokenTypes = []
  modeCount : Stream.IsValue net.modeStarts.length
  modes : ∀ id ∈ net.modeStarts, (net.state? id).isSome
  edgeCount : Stream.IsValue (Stream.writtenEdges net).length
  edges : ∀ s ∈ net.states, s.kind.isRuleStop = false → ∀ t ∈ s.transitions, t.Writable net
  setCount : Stream.IsValue (Stream.usedSets net).length
  sets : ∀ used ∈ Stream.usedSets net, used.Writable
  decisionCount : Stream.IsValue net.decisions.length
  decisions : ∀ id ∈ net.decisions, (net.kind? id).any StateRole.decision.admits
  actionCount : Stream.IsValue net.lexerActions.length
  actions : ∀ action ∈ net.lexerActions, action.Writable
  noActions : net.grammar = .parser → net.lexerActions = []

/-- The states, the first states of the rules and the token types that the sections hold. -/
def statedRules (net : Network) : Network :=
  { net.stated with ruleStarts := net.ruleStarts, ruleTokenTypes := net.ruleTokenTypes }

/-- The transitions that are written, each with the number of its source state. -/
def writtenPairs (net : Network) : List (StateId × Transition) :=
  (Stream.writtenEdges net).map fun edge => (edge.1.number, edge.2)

/-- The same grammar type, slots and written parts of the states. -/
structure Restates (net net' : Network) : Prop where
  grammar : net'.grammar = net.grammar
  size : net'.slots.size = net.slots.size
  keeps : Keeps State.written net net'

/-- What restates a network that restates another restates that one. -/
theorem Restates.trans {net net' net'' : Network} (h : Restates net net')
    (h' : Restates net' net'') : Restates net net'' :=
  ⟨h'.grammar.trans h.grammar, h'.size.trans h.size, h.keeps.trans h'.keeps⟩

/-- Restating is symmetric. -/
theorem Restates.symm {net net' : Network} (h : Restates net net') : Restates net' net :=
  ⟨h.grammar.symm, h.size.symm, h.keeps.symm⟩

/-- A state ends a rule in both networks or in none. -/
theorem Restates.exists_state? {net net' : Network} (h : Restates net net') {k : StateId}
    {s : State} (hs : net.state? k = some s) :
    ∃ s', net'.state? k = some s' ∧ s'.kind.isRuleStop = s.kind.isRuleStop := by
  obtain ⟨s', hs', htype⟩ := h.symm.keeps.type.exists_of_state? hs
  exact ⟨s', hs', by rw [StateKind.isRuleStop_eq, ← htype, ← StateKind.isRuleStop_eq]⟩

/-- Steps that leave the tables and the written parts of states restate the network. -/
theorem Revises.restates {net net' : Network} (h : Revises State.written net net') :
    Restates net net' := by
  have hgrammar := congrArg Network.grammar h.tables
  exact ⟨hgrammar, h.size, h.keeps⟩

/-- The states as they are written restate the network. -/
theorem restates_stated (net : Network) : Restates net net.stated := by
  refine ⟨rfl, net.size_stated, fun k => ?_⟩
  rw [state?_stated, Option.map_map]
  exact Option.map_congr fun s _ => s.written_written

end Network

open Stream.Decoder

namespace Stream

/-! ## Rules and modes -/

/-- What is read of a rule. -/
def ruleOf (net : Network) (entry : StateId × RuleIndex) : StateId × Option TokenType :=
  match net.grammar with
  | .lexer => (entry.1, some ((net.ruleTokenType? entry.2).getD Token.eof))
  | .parser => (entry.1, none)

/-- A token type of a rule, of which the end of the input is written as absent. -/
theorem reads_tokenType {token : TokenType} (h : IsValue token) :
    Reads int [if token = Token.eof then absent else token] token := by
  split
  next heof =>
    subst heof
    exact Reads.int_absent
  next => exact Reads.int h

/-- A unit can hold the token of a rule, or what stands for none. -/
theorem isValue_ruleTokenType {net : Network} (h : net.Writable) (rule : RuleIndex) :
    IsValue ((net.ruleTokenType? rule).getD Token.eof) := by
  rw [Network.ruleTokenType?]
  cases htoken : net.ruleTokenTypes[rule]? with
  | none => decide
  | some token => exact h.tokens token (List.mem_of_getElem? htoken)

/-- A rule with its first state and, in a lexer, its token type. -/
theorem reads_ruleEntry {net base : Network} (h : net.Writable) (hbase : net.Restates base)
    {entry : StateId × RuleIndex} (hentry : entry.1 ∈ net.ruleStarts) :
    Reads (ruleEntry base) (ruleValues net entry.2 entry.1) (ruleOf net entry) := by
  have hadmits := h.ruleStarts entry.1 hentry
  rw [← hbase.keeps.any_admits] at hadmits
  have hlive := Network.isSome_of_any_kind? hadmits
  have hstart : Reads (stateAs base .ruleStart) [natValue entry.1] entry.1 :=
    (Reads.int (isValue_of_isSome (by rw [hbase.size]; exact h.size) hlive)).bind_end
      (Reads.ofResult (Network.resolveAs_eq_ok.mpr ⟨rfl, hadmits⟩))
  rw [ruleEntry, ruleValues, ruleOf, hbase.grammar]
  cases net.grammar with
  | lexer =>
    apply hstart.bind
    exact (reads_tokenType (isValue_ruleTokenType h entry.2)).bind_end (Reads.pure _)
  | parser => exact hstart.bind_end (Reads.pure _)

/-- The first states of the rules are read as they were. -/
theorem map_ruleOf (net : Network) :
    (net.ruleStarts.zipIdx.map (ruleOf net)).map Prod.fst = net.ruleStarts := by
  have hfst : Prod.fst ∘ ruleOf net = Prod.fst := by
    funext entry
    rw [Function.comp_apply, ruleOf]
    cases net.grammar <;> rfl
  rw [List.map_map, hfst, List.zipIdx_map_fst]

/-- The tokens of the rules are read as they were. -/
theorem filterMap_ruleOf {net : Network} (h : net.Writable) :
    (net.ruleStarts.zipIdx.map (ruleOf net)).filterMap Prod.snd = net.ruleTokenTypes := by
  cases hgrammar : net.grammar with
  | lexer =>
    have hsnd : Prod.snd ∘ ruleOf net =
        fun entry => some ((net.ruleTokenType? entry.2).getD Token.eof) := by
      funext entry
      rw [Function.comp_apply, ruleOf, hgrammar]
    rw [List.filterMap_map, hsnd, List.filterMap_eq_map']
    refine List.ext_getElem ?_ fun i hi hi' => ?_
    · rw [List.length_map, List.length_zipIdx, h.tokenCount hgrammar]
    · rw [List.getElem_map, List.getElem_zipIdx, Nat.zero_add, Network.ruleTokenType?,
        List.getElem?_eq_getElem hi']
      rfl
  | parser =>
    have hsnd : Prod.snd ∘ ruleOf net = fun _ => none := by
      funext entry
      rw [Function.comp_apply, ruleOf, hgrammar]
    rw [List.filterMap_map, hsnd, h.noTokens hgrammar, List.filterMap_eq_nil_iff]
    exact fun _ _ => rfl

/-- The rules, with their last states found anew. -/
theorem reads_rules {net base : Network} (h : net.Writable)
    (hbase : net.statedRules.linkRuleStops = .ok base) :
    Reads (rules net.stated) (ruleSection net) base := by
  have hcount : IsValue net.ruleStarts.zipIdx.length := by
    rw [List.length_zipIdx]
    exact h.ruleCount
  have hentries := Reads.counted hcount fun entry hentry =>
    reads_ruleEntry h net.restates_stated (List.fst_mem_of_mem_zipIdx (x := entry) hentry)
  rw [List.length_zipIdx] at hentries
  apply hentries.bind_end
  rw [map_ruleOf, filterMap_ruleOf h]
  exact Reads.ofResult hbase

/-- The modes. -/
theorem reads_modes {net base : Network} (h : net.Writable) (hbase : net.Restates base) :
    Reads (modes base) (modeSection net) { base with modeStarts := net.modeStarts } := by
  refine (reads_listValues h.modeCount fun start hstart => ?_).bind_end (Reads.pure _)
  have hlive : (base.state? start).isSome := (hbase.keeps.isSome start).trans (h.modes start hstart)
  exact (Reads.int (isValue_of_isSome (by rw [hbase.size]; exact h.size) hlive)).bind_end
    (Reads.ofResult (resolve_natValue hlive))

/-! ## Sets and transitions -/

/-- Whatever return transitions do not have is found at written transitions only. -/
theorem length_filterMap_le {net : Network} {β : Type} {f : Transition → Option β}
    (h : ∀ s ∈ net.states, s.kind.isRuleStop → ∀ t ∈ s.transitions, f t = none) :
    ((net.states.flatMap State.transitions).filterMap f).length ≤ (writtenEdges net).length := by
  rw [writtenEdges]
  generalize net.states = states at h
  induction states with
  | nil => exact Nat.le_refl 0
  | cons s rest ih =>
    obtain ⟨hs, hrest⟩ := List.forall_mem_cons.mp h
    have hle := ih hrest
    rw [List.flatMap_cons, List.filterMap_append, List.length_append, List.filter_cons]
    cases hstop : s.kind.isRuleStop with
    | true =>
      rw [List.filterMap_eq_nil_iff.mpr (hs hstop), List.length_nil, Nat.zero_add]
      exact hle
    | false =>
      have hown := List.length_filterMap_le f s.transitions
      rw [Bool.not_false, if_pos rfl, List.flatMap_cons, List.length_append, List.length_map]
      exact Nat.add_le_add hown hle

/-- Which transitions can be written depends on the written parts of the states. -/
theorem writable_of_restates {net base : Network} (hbase : net.Restates base) {t : Transition}
    (h : t.Writable net) : t.Writable base := by
  obtain ⟨target, kind⟩ := t
  obtain ⟨htarget, hkind⟩ := h
  refine ⟨(hbase.keeps.isSome target).trans htarget, ?_⟩
  cases kind with
  | rule callee level follow =>
    obtain ⟨hstart, hcallee, hlevel, hfollow⟩ := hkind
    exact ⟨(hbase.keeps.any_admits _ _).trans hstart, hcallee, hlevel,
      (hbase.keeps.isSome follow).trans hfollow⟩
  | _ => exact hkind

/-- A set can be written if a transition that refers to it can. -/
theorem writable_of_usedSet? {net : Network} {t : Transition} {used : IntervalSet}
    (h : t.Writable net) (hused : usedSet? t = some used) : used.Writable := by
  obtain ⟨-, hkind⟩ := h
  rw [usedSet?] at hused
  generalize t.kind = kind at hused hkind
  cases kind with
  | set label =>
    cases hused
    exact hkind
  | notSet excluded =>
    cases hused
    exact hkind
  | _ => cases hused

/-- The section of the sets is read as the sets that are used. -/
theorem reads_sets {net : Network} (h : net.Writable) :
    Reads (counted intervalSet) (setSection net) (usedSets net) := by
  have hsets := Reads.counted (f := id) h.setCount fun used hused =>
    reads_intervalSet (h.sets used hused)
  rwa [List.map_id] at hsets

/-- The written transitions, in any network with the same written parts of the states. -/
theorem reads_edges {net base : Network} (h : net.Writable) (hbase : net.Restates base) :
    Reads (counted (edge base (usedSets net))) (edgeSection net) net.writtenPairs := by
  refine Reads.counted (f := fun entry => (entry.1.number, entry.2)) h.edgeCount fun entry hentry => ?_
  obtain ⟨s, hs, hentry⟩ := List.mem_flatMap.mp hentry
  obtain ⟨t, ht, rfl⟩ := List.mem_map.mp hentry
  obtain ⟨hs, hstop⟩ := List.mem_filter.mp hs
  obtain ⟨k, hk⟩ := Network.mem_states.mp hs
  have hlive : (base.state? s.number).isSome := by
    rw [hbase.keeps.isSome, h.numbered k s hk, hk]
    rfl
  refine reads_edge (by rw [hbase.size]; exact h.size) h.setCount
    (writable_of_restates hbase (h.edges s hs (by simpa using hstop) t ht)) (fun used hused => ?_) hlive
  exact List.mem_eraseDups.mpr (List.mem_filterMap.mpr ⟨t, List.mem_flatMap.mpr ⟨s, hs, ht⟩, hused⟩)

/-! ## Whole streams -/

/-- The decoder of a stream up to its transitions, behind the version. -/
def writtenBehindVersion : Decoder Written := do
  let revision ← revision
  let net ← header
  let net ← states revision net
  let net ← rules net
  let network ← modes net
  let sets ← counted intervalSet
  let edges ← counted (edge network sets)
  return { revision, network, edges }

/-- The decoder of a network behind the version. -/
def networkBehindVersion : Decoder Network := do
  let w ← writtenBehindVersion
  let net ← ofResult w.linked
  let net ← decisions net
  lexerActions w.revision net

/-- A network is read behind the version. -/
theorem network_eq : network = version >>= fun _ => networkBehindVersion := by
  simp only [network, written, networkBehindVersion, writtenBehindVersion, bind_assoc]

/-- The network whose written transitions are still to be added. -/
def restated (net base : Network) : Network := { base with modeStarts := net.modeStarts }

/-- Linking rule stops leaves the written parts of the states. -/
theorem restates_of_linkRuleStops {net base : Network}
    (hbase : net.statedRules.linkRuleStops = .ok base) : net.Restates base := by
  have hlinked := Network.ruleStopsLinked hbase
  have hgrammar := congrArg Network.grammar hlinked.tables
  exact net.restates_stated.trans ⟨hgrammar, hlinked.size, hlinked.keeps⟩

/-- Up to the transitions, every section is read back. -/
theorem reads_written {net base : Network} (h : net.Writable)
    (hbase : net.statedRules.linkRuleStops = .ok base) :
    Reads writtenBehindVersion
      (identifierValues .newest ++ [net.grammar.code, net.maxTokenType] ++
        stateSection .newest net ++ ruleSection net ++ modeSection net ++ setSection net ++
        edgeSection net)
      ⟨.newest, restated net base, net.writtenPairs⟩ := by
  have hrestates := restates_of_linkRuleStops hbase
  simp only [List.append_assoc]
  refine reads_revision.bind ((reads_header net h.maxTokenType).bind
    ((reads_states h.toStatesWritable).bind ((reads_rules h hbase).bind
      ((reads_modes h hrestates).bind ((reads_sets h).bind ?_)))))
  exact (reads_edges h (hrestates.trans ⟨rfl, rfl, Network.Keeps.refl _ _⟩)).bind_end
    (Reads.pure _)

/-- The decisions, in any network with the same written parts of the states. -/
theorem reads_decisions {net linked : Network} (h : net.Writable) (hlinked : net.Restates linked) :
    Reads (decisions linked) (decisionSection net) (linked.addDecisions net.decisions) := by
  refine (reads_stateIds (by rw [hlinked.size]; exact h.size) h.decisionCount
    fun id hid => ?_).bind_end (Reads.pure _)
  rw [hlinked.keeps.any_admits]
  exact h.decisions id hid

/-- The lexer actions; a parser has none. -/
theorem reads_lexerActions {net decided : Network} (h : net.Writable)
    (hgrammar : decided.grammar = net.grammar) (hactions : decided.lexerActions = []) :
    Reads (lexerActions .newest decided) (lexerActionSection .newest net)
      { decided with lexerActions := net.lexerActions } := by
  obtain ⟨grammar, maxTokenType, slots, decisions, starts, stops, modes, tokens, actions⟩ := decided
  change grammar = net.grammar at hgrammar
  change actions = [] at hactions
  subst hgrammar hactions
  rw [lexerActions, lexerActionSection]
  cases hnet : net.grammar with
  | parser =>
    rw [h.noActions hnet]
    exact Reads.pure _
  | lexer =>
    have hentries := Reads.counted (f := id) h.actionCount fun action haction =>
      reads_lexerAction (h.actions action haction)
    rw [List.map_id] at hentries
    exact hentries.bind_end (Reads.pure _)

/-- What loading makes of a written network, given what the written transitions make of the
written parts of its states. -/
theorem load_serialize_eq {net base linked : Network} (h : net.Writable)
    (hbase : net.statedRules.linkRuleStops = .ok base)
    (hlinked : Written.linked ⟨.newest, restated net base, net.writtenPairs⟩ = .ok linked)
    (hrestates : net.Restates linked) (hactions : linked.lexerActions = [])
    (options : LoadOptions) :
    Network.load options net.serialize =
      { linked.addDecisions net.decisions with lexerActions := net.lexerActions }.complete
        options := by
  have hdecided := linked.tables_addDecisions net.decisions
  let result : Network :=
    { linked.addDecisions net.decisions with lexerActions := net.lexerActions }
  have hsections : Reads networkBehindVersion (values .newest net).tail result := by
    change Reads _ (_ ++ decisionSection net ++ lexerActionSection .newest net) _
    rw [List.append_assoc]
    refine (reads_written h hbase).bind ((Reads.ofResult hlinked).bind_nil
      ((reads_decisions h hrestates).bind (reads_lexerActions h ?_ ?_)))
    · exact (congrArg Network.grammar hdecided).trans hrestates.grammar
    · exact (congrArg Network.lexerActions hdecided).trans hactions
  have hversion : version.runFrom (Cursor.start net.serialize) =
      (.ok (), ⟨(values .newest net).tail.map encodeUnit ++ [], 1⟩) := by
    rw [List.append_nil]
    rfl
  have hdecoded : network.runFrom (Cursor.start net.serialize) =
      (.ok result, ⟨[], 1 + (values .newest net).tail.length⟩) := by
    rw [network_eq, runFrom_bind, hversion]
    exact hsections [] 1 Nat.one_pos
  rw [Network.load, runOn_eq_runFrom, Network.loader, runFrom_bind, hdecoded]
  rfl

end Stream

end TransitionNetwork
