import TransitionNetwork.Proofs.Stream.NetworksRead
import TransitionNetwork.Proofs.Stream.StatesYield

/-!
# What the sections of a stream yield

Whatever a stream holds, the part of a network that is read before its transitions, and the
transitions themselves, consist of numbers that fit into units and of references to states of
the right kinds. It follows that the network that they are loaded into can be written.
-/

namespace TransitionNetwork

namespace Stream

open Decoder

/-! ## Rules and modes -/

/-- What is known of a rule that was read. -/
def RuleEntryRead (net : Network) (entry : StateId × Option TokenType) : Prop :=
  (net.kind? entry.1).any StateRole.ruleStart.admits ∧
    (net.grammar = .lexer → entry.2.isSome) ∧ (∀ token ∈ entry.2, IsValue token) ∧
    (net.grammar = .parser → entry.2 = none)

/-- What is known of a rule holds of each rule that is read. -/
theorem yields_ruleEntry (net : Network) : Yields (ruleEntry net) (RuleEntryRead net) := by
  refine (Yields.int.bind fun _ _ => Yields.ofResult fun _ h =>
    (Network.resolveAs_eq_ok.mp h).2).bind fun start hstart => ?_
  cases hgrammar : net.grammar with
  | lexer =>
    refine Yields.int.bind fun token htoken => Yields.pure ⟨hstart, fun _ => rfl, ?_, fun h => ?_⟩
    · rintro _ ⟨⟩
      exact htoken
    · rw [hgrammar] at h
      cases h
  | parser =>
    refine Yields.pure ⟨hstart, fun h => ?_, ?_, fun _ => rfl⟩
    · rw [hgrammar] at h
      cases h
    · rintro _ ⟨⟩

/-- What is known of the tables of the rules, with the states that they refer to. -/
structure RulesRead (net : Network) (starts : List StateId) (tokens : List TokenType) : Prop where
  count : IsValue starts.length
  admits : ∀ id ∈ starts, (net.kind? id).any StateRole.ruleStart.admits
  tokenCount : net.grammar = .lexer → tokens.length = starts.length
  isValue : ∀ token ∈ tokens, IsValue token
  noTokens : net.grammar = .parser → tokens = []

/-- The section of the rules fills the tables of the rules, and then links the rule stops. -/
theorem yields_rules (net : Network) :
    Yields (rules net) fun base => ∃ starts tokens, RulesRead net starts tokens ∧
      { net with ruleStarts := starts, ruleTokenTypes := tokens }.linkRuleStops = .ok base := by
  refine (Yields.counted (yields_ruleEntry net)).bind fun entries hentries =>
    Yields.ofResult fun base hbase => ⟨_, _, ?_, hbase⟩
  obtain ⟨hcount, hentries⟩ := hentries
  refine ⟨by rw [List.length_map]; exact hcount, fun id hid => ?_, fun hgrammar => ?_,
    fun token htoken => ?_, fun hgrammar => ?_⟩
  · obtain ⟨entry, hentry, rfl⟩ := List.mem_map.mp hid
    exact (hentries entry hentry).1
  · rw [List.length_map, List.filterMap_length_eq_length]
    exact fun entry hentry => (hentries entry hentry).2.1 hgrammar
  · obtain ⟨entry, hentry, htoken⟩ := List.mem_filterMap.mp htoken
    exact (hentries entry hentry).2.2.1 token htoken
  · rw [List.filterMap_eq_nil_iff]
    exact fun entry hentry => (hentries entry hentry).2.2.2 hgrammar

/-- The section of the modes fills the table of their first states. -/
theorem yields_modes (net : Network) :
    Yields (modes net) fun result => ∃ starts : List StateId, IsValue starts.length ∧
      (∀ id ∈ starts, (net.state? id).isSome) ∧ result = { net with modeStarts := starts } :=
  (Yields.counted (Yields.int.bind fun _ _ => Yields.ofResult fun _ h =>
    (Network.resolve_eq_ok.mp h).2)).bind fun starts hstarts =>
      Yields.pure ⟨starts, hstarts.1, hstarts.2, rfl⟩

/-! ## Sets and transitions -/

/-- The bounds of intervals are values of units. -/
theorem yields_interval : Yields interval fun i => IsValue i.start ∧ IsValue i.stop :=
  Yields.int.bind fun _ hstart => Yields.int.bind fun _ hstop => .pure ⟨hstart, hstop⟩

/-- A set that is read can be written. -/
theorem yields_intervalSet : Yields intervalSet IntervalSet.Writable := by
  refine Yields.count.bind fun size _ => Yields.int.bind fun eof _ =>
    (Yields.repeated fun _ => yields_interval).bind fun intervals hintervals => Yields.pure ?_
  refine ⟨IntervalSet.Canonical.ofIntervals _, IntervalSet.bounds_ofIntervals fun i hi => ?_⟩
  have hread : ∀ i ∈ intervals, -1 ≤ i.start ∧ i.stop ≤ 65533 := by
    intro i hi
    obtain ⟨k, hk⟩ := List.getElem?_of_mem hi
    obtain ⟨hstart, hstop⟩ := hintervals.2 k i hk
    exact ⟨hstart.1, hstop.2⟩
  split at hi
  · rcases List.mem_cons.mp hi with rfl | hi
    · decide
    · exact hread i hi
  · exact hread i hi

/-- A number that is accepted as natural is the one that was read. -/
theorem natural_eq_ok {what : Referent} {number : Int} {n : Nat}
    (h : natural what number = .ok n) : number = n := by
  rw [natural] at h
  split at h <;> cases h
  lia

/-- Whatever values a transition is built from, it can be written. -/
theorem writable_of_transition {net : Network} {sets : List IntervalSet} {entry : EdgeEntry}
    {t : Transition} (hsets : ∀ s ∈ sets, s.Writable) (hfirst : IsValue entry.first)
    (hsecond : IsValue entry.second) (hthird : IsValue entry.third)
    (h : transition net sets entry = .ok t) : t.Writable net := by
  -- The mark of the end of the input takes the place of the first value.
  have hlabel : IsValue (if entry.third ≠ 0 then Token.eof else entry.first) := by
    split
    · decide
    · exact hfirst
  have hset : ∀ s, transition.set sets entry.first = .ok s → s.Writable := fun s hs =>
    hsets s (mem_of_set_eq_ok hs)
  have hnatural {what : Referent} {number : Int} (hnumber : IsValue number) {n : Nat}
      (hn : natural what number = .ok n) : IsValue n := natural_eq_ok hn ▸ hnumber
  rw [transition] at h
  split at h
  · cases h
  next type _ =>
    obtain ⟨target, htarget, h⟩ := bind_eq_ok.mp h
    have hlive := (Network.resolve_eq_ok.mp htarget).2
    cases type with
    | epsilon =>
      cases h
      exact ⟨hlive, rfl⟩
    | range =>
      cases h
      exact ⟨hlive, hlabel, hsecond⟩
    | rule =>
      obtain ⟨start, hstart, h⟩ := bind_eq_ok.mp h
      obtain ⟨callee, hcallee, h⟩ := bind_eq_ok.mp h
      cases h
      have hadmits := (Network.resolveAs_eq_ok.mp hstart).2
      exact ⟨Network.isSome_of_any_kind? hadmits, hadmits, hnatural hsecond hcallee, hthird, hlive⟩
    | predicate =>
      obtain ⟨owner, howner, h⟩ := bind_eq_ok.mp h
      obtain ⟨index, hindex, h⟩ := bind_eq_ok.mp h
      cases h
      exact ⟨hlive, hnatural hfirst howner, hnatural hsecond hindex⟩
    | atom =>
      cases h
      exact ⟨hlive, hlabel⟩
    | action =>
      obtain ⟨owner, howner, h⟩ := bind_eq_ok.mp h
      cases h
      exact ⟨hlive, hnatural hfirst howner, isValue_of_mem_optionalIndex hsecond⟩
    | set =>
      obtain ⟨label, hfound, h⟩ := bind_eq_ok.mp h
      cases h
      exact ⟨hlive, hset label hfound⟩
    | notSet =>
      obtain ⟨excluded, hfound, h⟩ := bind_eq_ok.mp h
      cases h
      exact ⟨hlive, hset excluded hfound⟩
    | wildcard =>
      cases h
      exact ⟨hlive, trivial⟩
    | precedence =>
      cases h
      exact ⟨hlive, hfirst⟩

/-- A transition that is read leaves a state and can be written in the network. -/
theorem yields_edge {net : Network} {sets : List IntervalSet} (hsets : ∀ s ∈ sets, s.Writable) :
    Yields (edge net sets) fun edge => (net.state? edge.1).isSome ∧ edge.2.Writable net := by
  have hentry : Yields edgeEntry fun entry =>
      IsValue entry.first ∧ IsValue entry.second ∧ IsValue entry.third :=
    Yields.int.bind fun _ _ => Yields.int.bind fun _ _ => Yields.int.bind fun _ _ =>
      Yields.int.bind fun first hfirst => Yields.int.bind fun second hsecond =>
        Yields.int.bind fun third hthird => Yields.pure ⟨hfirst, hsecond, hthird⟩
  refine hentry.bind fun entry ⟨hfirst, hsecond, hthird⟩ => (Yields.ofResult fun t ht =>
    writable_of_transition hsets hfirst hsecond hthird ht).bind fun t ht =>
      (Yields.ofResult fun _ h => (Network.resolve_eq_ok.mp h).2).bind fun source hsource =>
        Yields.pure ⟨hsource, ht⟩

/-! ## Streams up to their transitions -/

/-- What is known of a stream that was read up to its transitions: its states can be written and
have no transitions yet, the last states of the rules follow from the states, references are to
states of the right kind, and the transitions can be written. -/
structure WellRead (w : Written) : Prop where
  states : w.network.StatesWritable
  rulesLinked : w.network.statedRules.linkRuleStops = .ok { w.network with modeStarts := [] }
  maxTokenType : IsValue w.network.maxTokenType
  rules : RulesRead w.network w.network.ruleStarts w.network.ruleTokenTypes
  modeCount : IsValue w.network.modeStarts.length
  modes : ∀ id ∈ w.network.modeStarts, (w.network.state? id).isSome
  transitions : ∀ k, ∀ s ∈ w.network.state? k, s.transitions = []
  decisions : w.network.decisions = []
  lexerActions : w.network.lexerActions = []
  edgeCount : IsValue w.edges.length
  edges : ∀ edge ∈ w.edges, (w.network.state? edge.1).isSome ∧ edge.2.Writable w.network

/-- Behind the revision the decoder is inside the stream. -/
theorem yields_revision : Yields revision fun _ => True := by
  refine ((Yields.repeated (P := fun _ _ => True) fun _ => Yields.unit.bind fun _ _ =>
    Yields.pure trivial).bind fun _ _ => Yields.pure (P := fun _ => True) trivial).bind
      fun found _ => ?_
  split
  · exact Yields.pure trivial
  · exact Yields.throw _ _

/-- The header begins a network without states, whose vocabulary is the value of a unit. -/
theorem yields_header :
    Yields header fun net => IsValue net.maxTokenType ∧ net.stated.tables = net.tables := by
  apply Yields.int.bind
  intro code _
  split
  · exact Yields.throw _ _
  · exact Yields.int.bind fun maxTokenType h => Yields.pure ⟨h, rfl⟩

/-- The states and rules that were read are the ones that are written of what they become. -/
theorem statedRules_of_linkRuleStops {made base : Network} {starts : List StateId}
    {tokens : List TokenType} (hown : ∀ k, ∀ s ∈ made.state? k, s.written = s)
    (htables : made.stated.tables = made.tables)
    (h : { made with ruleStarts := starts, ruleTokenTypes := tokens }.linkRuleStops = .ok base) :
    base.statedRules = { made with ruleStarts := starts, ruleTokenTypes := tokens } := by
  have hlinked := Network.ruleStopsLinked h
  refine Network.eq_of_state? ?_ ?_ fun k => ?_
  · have hbase := hlinked.tables
    simp only [Network.tables, Network.stated, Network.statedRules, Network.mk.injEq,
      true_and] at hbase htables ⊢
    obtain ⟨hgrammar, hmax, -, hstarts, -, htokens, -⟩ := hbase
    obtain ⟨hdecisions, -, hstops, hmodes, -, hactions⟩ := htables
    exact ⟨hgrammar, hmax, hdecisions, hstarts, hstops, hmodes, htokens, hactions⟩
  · exact base.size_stated.trans hlinked.size
  · have hk := hlinked.keeps k
    change base.stated.state? k = made.state? k
    rw [Network.state?_stated, hk]
    change (made.state? k).map State.written = made.state? k
    cases hs : made.state? k with
    | none => rfl
    | some s => exact congrArg some (hown k s hs)

/-- What is known of a stream holds of each that is read up to its transitions. -/
theorem yields_writtenBehindVersion : Yields writtenBehindVersion WellRead := by
  refine yields_revision.bind fun revision _ => yields_header.bind fun net hnet =>
    (yields_states revision net).bind fun made hmade => (yields_rules made).bind fun base hbase =>
      (yields_modes base).bind fun network hnetwork => (Yields.counted yields_intervalSet).bind
        fun sets hsets => (Yields.counted (yields_edge hsets.2)).bind fun edges hedges =>
          Yields.pure ?_
  obtain ⟨hmax, hheader⟩ := hnet
  obtain ⟨hwritable, hown, hmade⟩ := hmade
  obtain ⟨starts, tokens, hrules, hbase⟩ := hbase
  obtain ⟨modes, hmodeCount, hmodes, rfl⟩ := hnetwork
  have hlinked := Network.ruleStopsLinked hbase
  have hstated : made.stated.tables = made.tables := by
    simp only [Network.tables, Network.stated, Network.mk.injEq, true_and] at hmade hheader ⊢
    obtain ⟨-, -, hdecisions, hstarts, hstops, hmodes, htokens, hactions⟩ := hmade
    rw [hdecisions, hstarts, hstops, hmodes, htokens, hactions]
    exact hheader
  have hsame := statedRules_of_linkRuleStops hown hstated hbase
  have htables := hlinked.tables
  simp only [Network.tables, Network.stated, Network.mk.injEq, true_and] at htables hstated hmade
  obtain ⟨hgrammar, hmaxSame, hdecisions, rfl, hnoModes, rfl, hactions⟩ := htables
  obtain ⟨hmadeDecisions, -, -, hmadeModes, -, hmadeActions⟩ := hstated
  refine ⟨hwritable.of_keeps hlinked.size hlinked.keeps, ?_, ?_, ?_, hmodeCount, hmodes, ?_, ?_, ?_,
    hedges.1, hedges.2⟩
  · change base.statedRules.linkRuleStops = _
    have hmodeless : { base with modeStarts := [] } = base := by
      rw [hmadeModes, ← hnoModes]
    rw [hsame, hbase, ← hmodeless]
  · change IsValue base.maxTokenType
    rw [hmaxSame, hmade.2.1]
    exact hmax
  · refine ⟨hrules.count, fun id hid => ?_, fun h => hrules.tokenCount (hgrammar.symm.trans h),
      hrules.isValue, fun h => hrules.noTokens (hgrammar.symm.trans h)⟩
    exact (hlinked.keeps.any_admits _ _).trans (hrules.admits id hid)
  · intro k s hs
    obtain ⟨s', hs', hrest⟩ := hlinked.rest.exists_of_state? hs
    have htransitions : s.withoutKind.transitions = s'.withoutKind.transitions :=
      congrArg State.transitions hrest
    apply htransitions.trans
    change s'.transitions = []
    rw [← hown k s' hs']
    rfl
  · exact hdecisions.trans hmadeDecisions.symm
  · exact hactions.trans hmadeActions.symm

/-- The version is behind every cursor that follows it. -/
theorem position_of_version {units : List UInt16} {next : Cursor}
    (h : version.runFrom (Cursor.start units) = (.ok (), next)) : 0 < next.position := by
  obtain ⟨found, behind, hint, h⟩ := runFrom_bind_eq_ok h
  have hbehind : 0 < behind.position := by
    cases units with
    | nil => cases hint
    | cons unit rest =>
      cases hint
      exact Nat.one_pos
  split at h
  · cases h
  · cases h
    exact hbehind

/-- Every stream that is read up to its transitions is well read. -/
theorem wellRead_of_runOn {units : List UInt16} {w : Written} {cursor : Cursor}
    (h : written.runOn units = (.ok w, cursor)) : 0 < cursor.position ∧ WellRead w := by
  obtain ⟨_, next, hversion, hrest⟩ := runFrom_bind_eq_ok
    (d := version) (f := fun _ => writtenBehindVersion) h
  exact yields_writtenBehindVersion next cursor w (position_of_version hversion) hrest

/-! ## Decisions and lexer actions -/

/-- A lexer action that is read can be written. -/
theorem yields_lexerAction : Yields lexerAction LexerAction.Writable := by
  apply Yields.int.bind
  intro code _
  split
  · exact Yields.throw _ _
  next command _ =>
    refine Yields.int.bind fun first hfirst => Yields.int.bind fun second hsecond =>
      Yields.pure ?_
    have hzero := isValue_zero
    cases command <;> exact ⟨by assumption, by assumption⟩

end Stream

end TransitionNetwork
