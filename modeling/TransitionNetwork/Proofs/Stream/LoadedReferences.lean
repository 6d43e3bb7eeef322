import TransitionNetwork.Proofs.Network.BypassReferences
import TransitionNetwork.Proofs.Stream.LoadedNetworks

/-!
# References of loaded networks

What a stream refers to is checked as it is read, and return transitions continue where calls do.
So every loaded network is well referenced, whether its structure is verified or not, and whether
its rules are given bypass transitions or not.
-/

namespace TransitionNetwork

namespace Stream

open Decoder

variable {w : Written}

/-- Apart from the links that a stream holds, the written part of a kind refers to no state. -/
theorem leadsBack_written {net : Network} {kind : StateKind}
    (hlink : kind.type.hasLink →
      ∃ id, kind.writtenLink? = some id ∧ (net.state? id).isSome) :
    kind.written.LeadsBack net := by
  rcases kind with _ | _ | _ | ⟨_ | _ | _, _⟩ | _ | _ | _ | _ | loopBack | _
  case blockStart.plus =>
    rintro _ ⟨⟩
  case starLoopEntry =>
    rintro _ ⟨⟩
  case loopEnd => exact hlink rfl
  all_goals trivial

/-- Before blocks and loops are linked, loop ends lead to states and no other kind leads back. -/
theorem leadsBack_of_wellRead (hw : WellRead w) :
    ∀ s ∈ w.network.states, s.kind.LeadsBack w.network := by
  intro s hs
  obtain ⟨k, hk⟩ := Network.mem_states.mp hs
  have hkeeps : Network.Keeps (fun s => s.kind.withRuleStop 0) w.network.statedRules
      { w.network with modeStarts := [] } :=
    Network.keeps_linkRuleStops hw.rulesLinked fun _ s => by cases hkind : s.kind <;>
      simp only [State.mapKind, StateKind.withRuleStop, hkind]
  obtain ⟨stated, hstated, hsame⟩ := hkeeps.exists_of_state? hk
  change w.network.stated.state? k = some stated at hstated
  rw [Network.state?_stated, hk, Option.map_some, Option.some.injEq] at hstated
  subst hstated
  obtain ⟨-, -, hback⟩ := (StateKind.refersAlike_withRuleStop 0).congr w.network hsame
  exact hback.mpr (leadsBack_written (hw.states.link k s hk))

/-- A transition that can be written leads to a state of the right kind. -/
theorem refers_of_writable {net : Network} {t : Transition} (h : t.Writable net) :
    t.Refers net := by
  refine ⟨h.1, fun follow hfollow => ?_⟩
  obtain ⟨target, kind⟩ := t
  cases kind with
  | rule rule precedence next =>
    cases hfollow
    exact ⟨h.2.1, h.2.2.2.2⟩
  | _ => cases hfollow

/-- The transitions of a linked network lead to states of the one that was read. -/
theorem refers_linked (hw : WellRead w) {linked : Network} {returns : List (StateId × Transition)}
    (hreturns : (w.network.addTransitions w.edges).returnEdges = .ok returns)
    (hrest : Network.Revises State.withoutKind
      ((w.network.addTransitions w.edges).addTransitions returns) linked) :
    ∀ s ∈ linked.states, ∀ t ∈ s.transitions, t.Refers w.network := by
  have hread : ∀ k, ∀ t ∈ Network.transitionsFrom w.edges k, t.Refers w.network := by
    intro k t ht
    obtain ⟨edge, hedge, rfl⟩ := List.mem_map.mp ht
    exact refers_of_writable (hw.edges edge (List.mem_of_mem_filter hedge)).2
  intro s hs t ht
  obtain ⟨k, hk⟩ := Network.mem_states.mp hs
  rw [transitions_linked hw.transitions hrest k s hk] at ht
  rcases List.mem_append.mp ht with ht | ht
  · exact hread k t ht
  · -- A return transition leads to where a call continues, and calls no rule itself.
    obtain ⟨edge, hedge, rfl⟩ := List.mem_map.mp ht
    have hedge := List.mem_of_mem_filter hedge
    obtain ⟨-, -, outermost, hkind⟩ := Network.mem_returnEdges hreturns hedge
    obtain ⟨caller, hcaller, call, hcall, hfollow⟩ :=
      Network.follow_of_mem_returnEdges hreturns hedge
    obtain ⟨i, hi⟩ := Network.mem_states.mp hcaller
    have hcalls := Network.TransitionsAre.addTransitions hw.transitions w.edges i caller hi
    rw [hcalls] at hcall
    have hlive := ((hread i call hcall).call _ hfollow).2
    exact Transition.refers_of_follow?_eq_none hlive (by rw [Transition.follow?, hkind])

/-- Block starts of a linked network have their block ends, and loops lead back. -/
theorem refers_of_linked (hw : WellRead w) {linked : Network} (h : w.linked = .ok linked) :
    ∀ s ∈ linked.states, s.kind.EndsBlock linked ∧ s.kind.LeadsBack linked := by
  obtain ⟨returned, hreturned, hlink⟩ := bind_eq_ok.mp h
  obtain ⟨returns, -, rfl⟩ := Network.addReturnEdges_eq_ok.mp hreturned
  have hwritten := (Network.keeps_addTransitions w.network w.edges).keeps.trans
    (Network.keeps_addTransitions (w.network.addTransitions w.edges) returns).keeps
  have hkinds := (w.network.keeps_kind_addTransitions w.edges).trans
    ((w.network.addTransitions w.edges).keeps_kind_addTransitions returns)
  refine Network.refers_linkBlocksAndLoops hlink (hwritten.number.numbered hw.states.numbered) ?_
  intro s hs
  obtain ⟨k, hk⟩ := Network.mem_states.mp hs
  obtain ⟨s₀, hs₀, hsame⟩ := hkinds.exists_of_state? hk
  rw [hsame]
  exact (leadsBack_of_wellRead hw s₀ (Network.mem_states.mpr ⟨k, hs₀⟩)).mono (.of_written hwritten)

/-- A linked network is well referenced. -/
theorem wellReferenced_linked (hw : WellRead w) {linked : Network} (h : w.linked = .ok linked) :
    linked.WellReferenced := by
  obtain ⟨returns, hreturns, hwritten, hrest⟩ := linked_eq_ok h
  have hretains : Network.Retains w.network linked := .of_written hwritten.keeps
  have hnumbered := hwritten.keeps.number.numbered hw.states.numbered
  have hkinds := refers_of_linked hw h
  have hstarts := congrArg Network.ruleStarts hwritten.tables
  have hstops := congrArg Network.ruleStops hwritten.tables
  have hmodes := congrArg Network.modeStarts hwritten.tables
  have hdecisions := (congrArg Network.decisions hwritten.tables).trans hw.decisions
  change linked.ruleStops = w.network.ruleStops at hstops
  change linked.decisions = [] at hdecisions
  exact {
    numbered := hnumbered
    blocks := fun s hs => (hkinds s hs).1
    loops := fun s hs => (hkinds s hs).2
    transitions := fun s hs t ht => (refers_linked hw hreturns hrest s hs t ht).mono hretains
    ruleStarts := fun id hid => hretains.admits .ruleStart (hw.rules.admits id (hstarts ▸ hid))
    ruleStops := fun rule stop hrule => by
      rw [Network.ruleStop?, hstops] at hrule
      obtain ⟨s, hs, hstop, hsrule⟩ := exists_of_ruleStop? hw hrule
      exact hretains.ruleStop hs hstop hsrule
    modeStarts := fun id hid => hretains.isSome (hw.modes id (hmodes ▸ hid))
    decisions := fun id hid => by
      rw [hdecisions] at hid
      cases hid }

/-- After linking, loading without bypass transitions changes nothing by which states refer to each
other. -/
theorem Loaded.keeps_referring {options : LoadOptions} {linked result net : Network}
    {ids : List StateId} (h : Loaded options w linked ids result net) :
    Network.Keeps State.referring linked net := by
  have hresult : Network.Keeps State.referring (linked.addDecisions ids) result := by
    intro k
    have hsame := congrArg (fun net => (net.state? k).map State.referring) h.withoutActions
    simpa only [Network.state?_withoutActions, Option.map_map, Function.comp_def,
      State.referring_withoutActions] using hsame
  rw [h.marked]
  exact (((linked.keeps_addDecisions ids).comp State.referring).trans hresult).trans
    result.keeps_markPrecedenceDecisions

/-- A network that was loaded without bypass transitions is well referenced. -/
theorem Loaded.wellReferenced {options : LoadOptions} {linked result net : Network}
    {ids : List StateId} (h : Loaded options w linked ids result net) : net.WellReferenced := by
  have hlinked := wellReferenced_linked h.wellRead h.linkedOk
  have hnone : linked.decisions = [] := by
    obtain ⟨returns, -, hwritten, -⟩ := linked_eq_ok h.linkedOk
    exact (congrArg Network.decisions hwritten.tables).trans h.wellRead.decisions
  have hkeeps := h.keeps_referring
  have htables := congrArg Network.tables h.withoutActions
  rw [Network.tables_withoutActions, Network.tables_withoutActions, linked.tables_addDecisions,
    hnone] at htables
  simp only [Network.tables, Network.mk.injEq, List.nil_append] at htables
  obtain ⟨-, -, -, hids, hstarts, hstops, hmodes, -⟩ := htables
  rw [h.marked] at hkeeps ⊢
  exact hlinked.of_keeps hkeeps hstarts hstops hmodes fun id hid => h.admits id (hids ▸ hid)

end Stream

namespace Network

/-- Every loaded network can be loaded without bypass transitions, and only a parser may have been
given them afterwards. -/
theorem exists_plain_of_load {options : LoadOptions} {units : List UInt16} {net : Network}
    (h : load options units = .ok net) :
    ∃ plain, load ⟨options.verify, false⟩ units = .ok plain ∧
      (net = plain ∨ plain.grammar = .parser ∧ plain.addBypasses = .ok net) := by
  obtain ⟨last, hlast⟩ : ∃ last, (loader options).runFrom (Stream.Cursor.start units) =
      (.ok net, last) := ⟨_, Prod.ext h rfl⟩
  obtain ⟨result, final, hnetwork, hcomplete⟩ := Stream.Decoder.runFrom_bind_eq_ok hlast
  rw [Stream.Decoder.runFrom_ofResult, Prod.mk.injEq] at hcomplete
  obtain ⟨_, hverify, hcomplete⟩ := bind_eq_ok.mp hcomplete.1
  refine ⟨result.markPrecedenceDecisions, ?_, ?_⟩
  · change ((loader ⟨options.verify, false⟩).runFrom (Stream.Cursor.start units)).1 = _
    rw [loader, Stream.Decoder.runFrom_bind, hnetwork]
    exact bind_eq_ok.mpr ⟨_, hverify, rfl⟩
  · split at hcomplete
    next hbypass =>
      obtain ⟨bypassed, hbypassed, hcomplete⟩ := bind_eq_ok.mp hcomplete
      obtain ⟨_, -, hcomplete⟩ := bind_eq_ok.mp hcomplete
      cases hcomplete
      exact Or.inr ⟨hbypass.2, hbypassed⟩
    · cases hcomplete
      exact Or.inl rfl

/-- Every loaded network can be loaded without bypass transitions, and may have been given them
afterwards. -/
theorem exists_load_of_load {options : LoadOptions} {units : List UInt16} {net : Network}
    (h : load options units = .ok net) :
    ∃ plain, load ⟨options.verify, false⟩ units = .ok plain ∧
      (net = plain ∨ plain.addBypasses = .ok net) := by
  obtain ⟨plain, hplain, hnet⟩ := exists_plain_of_load h
  exact ⟨plain, hplain, hnet.imp_right And.right⟩

/-- In a loaded network every slot holds nothing or the state of its number, and every number by
which the network refers to a state names one of the right kind, under all options. -/
theorem wellReferenced_of_load {options : LoadOptions} {units : List UInt16} {net : Network}
    (h : load options units = .ok net) : net.WellReferenced := by
  obtain ⟨plain, hplain, hnet⟩ := exists_load_of_load h
  obtain ⟨w, cursor, linked, ids, result, -, hloaded, -⟩ := Stream.exists_loaded hplain
  rcases hnet with rfl | hbypasses
  · exact hloaded.wellReferenced
  · exact hloaded.wellReferenced.of_addBypasses hbypasses

/-- The option of bypass transitions makes no difference to lexers. -/
theorem load_of_lexer {options : LoadOptions} {units : List UInt16} {net : Network}
    (h : load options units = .ok net) (hlexer : net.grammar = .lexer) :
    load ⟨options.verify, false⟩ units = .ok net := by
  obtain ⟨plain, hplain, rfl | ⟨hparser, hbypasses⟩⟩ := exists_plain_of_load h
  · exact hplain
  · have hsame := grammar_addBypasses (wellReferenced_of_load hplain) hbypasses
    rw [hlexer, hparser] at hsame
    cases hsame

end Network

/-- A parser of two rules. The first one calls the second, which has precedence levels and a loop at
its end. -/
def loopParserUnits : List UInt16 :=
  Stream.encode ([3] ++ Stream.identifierValues .newest ++ [1, 2] ++
    [13, 2, 0, 7, 0, 1, 0, 2, 1, 7, 1, 1, 1, 1, 1, 10, 1, 5, 1, 10, 1, 1, 8, 1, 12, 1, 12, 9, 1] ++
    [0] ++ [1, 3] ++ [2, 0, 3] ++ [0] ++ [0] ++
    [12, 0, 2, 1, 0, 0, 0, 2, 1, 3, 3, 1, 0, 3, 5, 1, 0, 0, 0, 5, 6, 5, 1, 0, 0, 6, 7, 1, 0, 0, 0,
      7, 8, 1, 0, 0, 0, 7, 11, 1, 0, 0, 0, 8, 9, 1, 0, 0, 0, 9, 10, 5, 2, 0, 0, 10, 12, 1, 0, 0, 0,
      12, 7, 1, 0, 0, 0, 11, 4, 1, 0, 0, 0] ++ [2, 7, 8])

/-- With its bypasses that parser has three more states for each rule. -/
theorem Network.wellReferenced_of_load_loopParser :
    ∃ net, Network.load ⟨true, true⟩ loopParserUnits = .ok net ∧ net.slots.size = 19 ∧
      net.WellReferenced := by
  have hload : ((Network.load ⟨true, true⟩ loopParserUnits).toOption.map (·.slots.size)) =
      some 19 := by decide +kernel
  obtain ⟨net, hnet, hsize⟩ := Option.map_eq_some_iff.mp hload
  have hok := eq_ok_of_toOption hnet
  exact ⟨net, hok, hsize, Network.wellReferenced_of_load hok⟩

end TransitionNetwork
