import TransitionNetwork.Proofs.Network.DerivedParts

/-!
# References

A network refers to its states by number: transitions to the states that they lead to and continue
in, kinds to the other states of a block or a loop, and the tables to the first and last states of
rules, to lexer modes and to decisions. It is well referenced if every such number names a state,
and one of the right kind. What refers to a state goes on to do so as long as states only change
in other respects than their types and rules.
-/

namespace TransitionNetwork

/-- The block that a kind of state begins ends in a block end. -/
def StateKind.EndsBlock (net : Network) : StateKind → Prop
  | blockStart _ stop =>
    ∃ id, stop = some id ∧ (net.kind? id).any StateRole.blockEnd.admits
  | _ => True

/-- A loop end is linked to a state. A kind that opens a loop is linked, if at all, to a state that
closes loops of the same sort. -/
def StateKind.LeadsBack (net : Network) : StateKind → Prop
  | blockStart (.plus loopBack) _ => ∀ id ∈ loopBack, net.kind? id = some .plusLoopBack
  | starLoopEntry loopBack _ => ∀ id ∈ loopBack, net.kind? id = some .starLoopBack
  | loopEnd loopBack => ∃ id, loopBack = some id ∧ (net.state? id).isSome
  | _ => True

/-- A transition leads to a state. If it calls a rule, that is the first state of a rule, and the
state to continue in exists as well. -/
structure Transition.Refers (net : Network) (t : Transition) : Prop where
  target : (net.state? t.target).isSome
  call : ∀ follow ∈ t.follow?,
    (net.kind? t.target).any StateKind.isRuleStart ∧ (net.state? follow).isSome

/-- A transition to a state refers to nothing else if it calls no rule. -/
theorem Transition.refers_of_follow?_eq_none {net : Network} {t : Transition}
    (hlive : (net.state? t.target).isSome) (hnone : t.follow? = none) : t.Refers net := by
  refine ⟨hlive, fun follow hfollow => ?_⟩
  rw [hnone] at hfollow
  cases hfollow

namespace Network

/-- Every slot holds nothing or the state of its number, and every number by which the network
refers to a state names one of the right kind. -/
structure WellReferenced (net : Network) : Prop where
  numbered : net.Numbered
  blocks : ∀ s ∈ net.states, s.kind.EndsBlock net
  loops : ∀ s ∈ net.states, s.kind.LeadsBack net
  transitions : ∀ s ∈ net.states, ∀ t ∈ s.transitions, t.Refers net
  ruleStarts : ∀ id ∈ net.ruleStarts, (net.kind? id).any StateKind.isRuleStart
  ruleStops : ∀ rule stop, net.ruleStop? rule = some stop →
    ∃ s, net.state? stop = some s ∧ s.kind.isRuleStop ∧ s.rule = some rule
  modeStarts : ∀ id ∈ net.modeStarts, (net.state? id).isSome
  decisions : ∀ id ∈ net.decisions, (net.kind? id).any StateKind.isDecision

/-- The kind of a slot has a property if a state is there whose kind has it. -/
theorem any_kind?_iff {net : Network} {k : StateId} {property : StateKind → Bool} :
    (net.kind? k).any property ↔ ∃ s, net.state? k = some s ∧ property s.kind := by
  rw [kind?, Option.any_map, Option.any_eq_true]

/-! ## Retained states -/

/-- Every state is still there, with its type and its rule. -/
def Retains (net net' : Network) : Prop :=
  ∀ k s, net.state? k = some s →
    ∃ s', net'.state? k = some s' ∧ s'.kind.type = s.kind.type ∧ s'.rule = s.rule

namespace Retains

variable {net net' : Network}

/-- Steps that keep types and rules retain the states. -/
theorem of_keeps (h : Keeps (fun s => (s.kind.type, s.rule)) net net') : Retains net net' := by
  intro k s hs
  obtain ⟨s', hs', hsame⟩ := h.symm.exists_of_state? hs
  rw [Prod.mk.injEq] at hsame
  exact ⟨s', hs', hsame.1.symm, hsame.2.symm⟩

/-- A later step that keeps the written parts of the states retains them. -/
theorem of_written (h : Keeps State.written net net') : Retains net net' := by
  refine of_keeps ?_
  have hpart : (fun s : State => (s.kind.type, s.rule)) =
      fun s => (s.written.kind.type, s.written.rule) := by
    funext s
    exact congrArg (·, s.rule) s.kind.type_written.symm
  rw [hpart]
  exact h.comp fun s => (s.kind.type, s.rule)

/-- A retained state is still there. -/
theorem isSome (h : Retains net net') {k : StateId} (hk : (net.state? k).isSome) :
    (net'.state? k).isSome := by
  obtain ⟨s, hs⟩ := Option.isSome_iff_exists.mp hk
  obtain ⟨s', hs', -⟩ := h k s hs
  rw [hs']
  rfl

/-- A property of kinds that depends on types is retained. -/
theorem any (h : Retains net net') {property : StateKind → Bool}
    (hproperty : ∀ kind kind' : StateKind, kind.type = kind'.type → property kind = property kind')
    {k : StateId} (hk : (net.kind? k).any property) : (net'.kind? k).any property := by
  obtain ⟨s, hs, hany⟩ := any_kind?_iff.mp hk
  obtain ⟨s', hs', htype, -⟩ := h k s hs
  exact any_kind?_iff.mpr ⟨s', hs', by rwa [hproperty s'.kind s.kind htype]⟩

/-- A retained state can play the roles that it could play. -/
theorem admits (h : Retains net net') (role : StateRole) {k : StateId}
    (hk : (net.kind? k).any role.admits) : (net'.kind? k).any role.admits :=
  h.any (fun _ _ htype => StateKind.admits_of_type htype role) hk

/-- A rule stop state is retained as one of the same rule. -/
theorem ruleStop (h : Retains net net') {k : StateId} {s : State} {rule : RuleIndex}
    (hs : net.state? k = some s) (hstop : s.kind.isRuleStop) (hrule : s.rule = some rule) :
    ∃ s', net'.state? k = some s' ∧ s'.kind.isRuleStop ∧ s'.rule = some rule := by
  obtain ⟨s', hs', htype, hsame⟩ := h k s hs
  refine ⟨s', hs', ?_, hsame.trans hrule⟩
  rwa [StateKind.isRuleStop_eq, htype, ← StateKind.isRuleStop_eq]

/-- The kinds that close loops are nothing but types. -/
theorem kind?_eq (h : Retains net net') {k : StateId} {kind : StateKind}
    (honly : ∀ kind' : StateKind, kind'.type = kind.type → kind' = kind)
    (hk : net.kind? k = some kind) : net'.kind? k = some kind := by
  obtain ⟨s, hs, rfl⟩ := kind?_eq_some.mp hk
  obtain ⟨s', hs', htype, -⟩ := h k s hs
  exact kind?_eq_some.mpr ⟨s', hs', honly s'.kind htype⟩

end Retains

end Network

/-- One kind has the type of what closes star loops. -/
theorem StateKind.eq_starLoopBack {kind : StateKind} (h : kind.type = .starLoopBack) :
    kind = starLoopBack := by
  rcases kind with _ | _ | _ | ⟨_ | _ | _, _⟩ | _ | _ | _ | _ | _ | _ <;> first | rfl | cases h

/-- One kind has the type of what closes plus loops. -/
theorem StateKind.eq_plusLoopBack {kind : StateKind} (h : kind.type = .plusLoopBack) :
    kind = plusLoopBack := by
  rcases kind with _ | _ | _ | ⟨_ | _ | _, _⟩ | _ | _ | _ | _ | _ | _ <;> first | rfl | cases h

section

variable {net net' : Network}

/-- The end of a block is one in every network that retains the states. -/
theorem StateKind.EndsBlock.mono (h : Network.Retains net net') {kind : StateKind}
    (hkind : kind.EndsBlock net) : kind.EndsBlock net' := by
  cases kind with
  | blockStart block stop =>
    obtain ⟨id, hstop, hadmits⟩ := hkind
    exact ⟨id, hstop, h.admits _ hadmits⟩
  | _ => trivial

/-- Links of loops are right in every network that retains the states. -/
theorem StateKind.LeadsBack.mono (h : Network.Retains net net') {kind : StateKind}
    (hkind : kind.LeadsBack net) : kind.LeadsBack net' := by
  rcases kind with _ | _ | _ | ⟨_ | _ | loopBack, _⟩ | _ | _ | _ | _ | _ | _
  case blockStart.plus =>
    exact fun id hid => h.kind?_eq (fun _ => StateKind.eq_plusLoopBack) (hkind id hid)
  case starLoopEntry =>
    exact fun id hid => h.kind?_eq (fun _ => StateKind.eq_starLoopBack) (hkind id hid)
  case loopEnd =>
    obtain ⟨id, hback, hlive⟩ := hkind
    exact ⟨id, hback, h.isSome hlive⟩
  all_goals trivial

/-- A change of kinds that lets each kind refer to what it referred to. -/
structure StateKind.RefersAlike (change : StateKind → StateKind) : Prop where
  type : ∀ kind, (change kind).type = kind.type
  endsBlock : ∀ net kind, (change kind).EndsBlock net ↔ kind.EndsBlock net
  leadsBack : ∀ net kind, (change kind).LeadsBack net ↔ kind.LeadsBack net

/-- Kinds that are changed into the same kind refer to the same. -/
theorem StateKind.RefersAlike.congr {change : StateKind → StateKind} (h : RefersAlike change)
    (net : Network) {kind kind' : StateKind} (hsame : change kind = change kind') :
    kind.type = kind'.type ∧ (kind.EndsBlock net ↔ kind'.EndsBlock net) ∧
      (kind.LeadsBack net ↔ kind'.LeadsBack net) := by
  rw [← h.type kind, ← h.endsBlock net kind, ← h.leadsBack net kind, hsame, h.type, h.endsBlock,
    h.leadsBack]
  exact ⟨rfl, Iff.rfl, Iff.rfl⟩

/-- Linking a rule to its end leaves the links of blocks and loops. -/
theorem StateKind.refersAlike_withRuleStop (stop : StateId) :
    RefersAlike (withRuleStop stop) := by
  refine ⟨fun kind => ?_, fun net kind => ?_, fun net kind => ?_⟩ <;> cases kind <;> rfl

/-- Linking the end of a block to its beginning leaves the other links of blocks and loops. -/
theorem StateKind.refersAlike_withBlockStart (start : StateId) :
    RefersAlike (withBlockStart start) := by
  refine ⟨fun kind => ?_, fun net kind => ?_, fun net kind => ?_⟩ <;> cases kind <;> rfl

/-- Marking a precedence decision leaves the links of blocks and loops. -/
theorem StateKind.refersAlike_decidingPrecedence : RefersAlike decidingPrecedence := by
  refine ⟨fun kind => ?_, fun net kind => ?_, fun net kind => ?_⟩ <;> cases kind <;> rfl

/-- The references of a transition are right in every network that retains the states. -/
theorem Transition.Refers.mono (h : Network.Retains net net') {t : Transition} (ht : t.Refers net) :
    t.Refers net' where
  target := h.isSome ht.target
  call follow hfollow :=
    ⟨h.admits .ruleStart (ht.call follow hfollow).1, h.isSome (ht.call follow hfollow).2⟩

end

namespace Network

/-! ## Return transitions -/

/-- Adding transitions keeps the kinds of states. -/
theorem keeps_kind_addTransitions (net : Network) (edges : List (StateId × Transition)) :
    Keeps State.kind net (net.addTransitions edges) := by
  rw [addTransitions_eq_modifyEach]
  exact Keeps.modifyEach fun _ _ _ => rfl

/-- A return transition leads to the state in which some call continues. -/
theorem follow_of_mem_returnEdges {net : Network} {edges : List (StateId × Transition)}
    (h : net.returnEdges = .ok edges) {edge : StateId × Transition} (hedge : edge ∈ edges) :
    ∃ s ∈ net.states, ∃ t ∈ s.transitions, edge.2.target ∈ t.follow? := by
  obtain ⟨found, hfound, h⟩ := bind_eq_ok.mp h
  cases h
  obtain ⟨found', hmem, hsome⟩ := List.mem_filterMap.mp hedge
  obtain ⟨t, ht, hreturn⟩ := exists_of_mem_mapM_ok hfound hmem
  obtain ⟨s, hs, ht⟩ := List.mem_flatMap.mp ht
  refine ⟨s, hs, t, ht, ?_⟩
  rw [id_eq] at hsome
  subst hsome
  obtain ⟨target, kind⟩ := t
  cases kind with
  | rule rule precedence follow =>
    obtain ⟨callee, -, hreturn⟩ := bind_eq_ok.mp hreturn
    split at hreturn
    · cases hreturn
    · dsimp only at hreturn
      split at hreturn
      · cases hreturn
      · cases hreturn
        rfl
  | _ => cases hreturn

/-! ## Blocks and loops -/

/-- Each block end that is claimed is one. -/
theorem blockEnds_of_claims {net claimed : Network} {pairs : List (StateId × StateId)}
    (h : pairs.foldlM claimBlockEnd net = .ok claimed) :
    ∀ pair ∈ pairs, (net.kind? pair.2).any StateRole.blockEnd.admits := by
  induction pairs generalizing net with
  | nil => exact fun _ hpair => (List.not_mem_nil hpair).elim
  | cons first rest ih =>
    rw [List.foldlM_cons] at h
    obtain ⟨next, hnext, hrest⟩ := bind_eq_ok.mp h
    have hkeeps : Keeps State.written net next := by
      rw [claimBlockEnd_eq_ok hnext]
      exact (Revises.modifyEach fun _ _ s => s.written_mapKind
        (s.kind.written_withBlockStart _)).keeps
    refine List.forall_mem_cons.mpr ⟨?_, fun pair hpair => ?_⟩
    · obtain ⟨stop, hstop, hclaim⟩ := bind_eq_ok.mp hnext
      rw [requireState] at hstop
      split at hstop
      next hfound =>
        cases hstop
        refine any_kind?_iff.mpr ⟨stop, hfound, ?_⟩
        split at hclaim
        next hkind => rw [hkind]; rfl
        · cases hclaim
        · cases hclaim
      · cases hstop
    · rw [← hkeeps.any_admits]
      exact ih hrest pair hpair

/-- Before blocks are linked, every block start knows its block end if the links can be made. -/
theorem endsBlock_of_claims {net claimed : Network} {pairs : List (Option (StateId × StateId))}
    (hpairs : net.states.mapM blockPair? = .ok pairs)
    (hclaims : (pairs.filterMap id).foldlM claimBlockEnd net = .ok claimed) :
    ∀ s ∈ net.states, s.kind.EndsBlock net := by
  intro s hs
  obtain ⟨pair, hpair, hfound⟩ := exists_of_mem_of_mapM_ok hpairs hs
  rw [blockPair?] at hfound
  cases hkind : s.kind with
  | blockStart block stop =>
    rw [hkind] at hfound
    cases stop with
    | none => cases hfound
    | some last =>
      cases hfound
      have hmem : (s.number, last) ∈ pairs.filterMap id := List.mem_filterMap.mpr ⟨_, hpair, rfl⟩
      exact ⟨last, rfl, blockEnds_of_claims hclaims _ hmem⟩
  | _ => trivial

/-- Linking a loop leaves the type of a state. -/
theorem type_withLoopBack (id : StateId) (kind : StateKind) :
    (kind.withLoopBack id).type = kind.type := by
  rcases kind with _ | _ | _ | ⟨_ | _ | _, _⟩ | _ | _ | _ | _ | _ | _ <;> rfl

/-- Linking a loop leaves the ends of blocks right. -/
theorem endsBlock_withLoopBack {net : Network} {id : StateId} {kind : StateKind} :
    (kind.withLoopBack id).EndsBlock net ↔ kind.EndsBlock net := by
  rcases kind with _ | _ | _ | ⟨_ | _ | _, _⟩ | _ | _ | _ | _ | _ | _ <;> rfl

/-- A kind that is linked to the state that closes its loop leads back there. -/
theorem leadsBack_withLoopBack {net : Network} {closing opening kind : StateKind} {id : StateId}
    (hcloses : closes closing opening) (htype : kind.type = opening.type)
    (hclosing : net.kind? id = some closing) : (kind.withLoopBack id).LeadsBack net := by
  rcases kind with _ | _ | _ | ⟨_ | _ | _, _⟩ | _ | _ | _ | _ | _ | _
  case blockStart.plus =>
    rintro _ ⟨⟩
    rcases opening with _ | _ | _ | ⟨_ | _ | _, _⟩ | _ | _ | _ | _ | _ | _ <;> cases htype
    cases closing <;> first | exact hclosing | cases hcloses
  case starLoopEntry =>
    rintro _ ⟨⟩
    rcases opening with _ | _ | _ | ⟨_ | _ | _, _⟩ | _ | _ | _ | _ | _ | _ <;> cases htype
    cases closing <;> first | exact hclosing | cases hcloses
  case loopEnd =>
    rcases opening with _ | _ | _ | ⟨_ | _ | _, _⟩ | _ | _ | _ | _ | _ | _ <;> cases htype
    cases closing <;> cases hcloses
  all_goals trivial

/-- What holds of a state while links are made: it has the type of the state that was in its slot
before, and refers to states of that network. -/
structure LinkedFrom (net : Network) (k : StateId) (s : State) : Prop where
  type : ∃ s₀, net.state? k = some s₀ ∧ s.kind.type = s₀.kind.type
  block : s.kind.EndsBlock net
  loop : s.kind.LeadsBack net

/-- Linking what opens a loop to a state that closes it. -/
theorem LinkedFrom.withLoopBack {net : Network} (hnumbered : net.Numbered)
    {pair : StateId × StateId} (hpair : pair ∈ net.states.flatMap net.closedLoops) {s : State}
    (hs : net.LinkedFrom pair.1 s) :
    net.LinkedFrom pair.1 (s.mapKind (.withLoopBack pair.2)) := by
  obtain ⟨⟨opening, hopening, htype⟩, hblock, -⟩ := hs
  obtain ⟨closing, hclosing, hpair⟩ := List.mem_flatMap.mp hpair
  obtain ⟨t, ht, rfl⟩ := List.mem_map.mp hpair
  obtain ⟨-, hcloses⟩ := List.mem_filter.mp ht
  obtain ⟨found, hfound, hcloses⟩ := any_kind?_iff.mp hcloses
  obtain ⟨i, hi⟩ := mem_states.mp hclosing
  cases hopening.symm.trans hfound
  have hkind : net.kind? closing.number = some closing.kind :=
    kind?_eq_some.mpr ⟨closing, by rwa [hnumbered i closing hi], rfl⟩
  exact ⟨⟨opening, hopening, (type_withLoopBack _ s.kind).trans htype⟩,
    endsBlock_withLoopBack.mpr hblock, leadsBack_withLoopBack hcloses htype hkind⟩

/-- Once blocks and loops are linked, every block start has its block end, and what opens a loop
leads back to what closes it, provided that loop ends were linked before and nothing else was. -/
theorem refers_linkBlocksAndLoops {net net' : Network} (h : net.linkBlocksAndLoops = .ok net')
    (hnumbered : net.Numbered) (hback : ∀ s ∈ net.states, s.kind.LeadsBack net) :
    ∀ s ∈ net'.states, s.kind.EndsBlock net' ∧ s.kind.LeadsBack net' := by
  have hretains : Retains net net' := .of_written (revises_linkBlocksAndLoops h).1.keeps
  obtain ⟨pairs, hpairs, h⟩ := bind_eq_ok.mp h
  obtain ⟨claimed, hclaims, h⟩ := bind_eq_ok.mp h
  cases h
  have hclaimed : Keeps (fun s => s.kind.withBlockStart 0) net claimed := by
    refine (Revises.foldlM (fun net net' pair hpair => ?_) hclaims).keeps
    rw [claimBlockEnd_eq_ok hpair]
    refine Revises.modifyEach fun _ _ s => ?_
    cases hkind : s.kind <;> simp [State.mapKind, StateKind.withBlockStart, hkind]
  have hstart : ∀ k, ∀ s ∈ claimed.state? k, net.LinkedFrom k s := by
    intro k s hs
    obtain ⟨s₀, hs₀, hsame⟩ := hclaimed.exists_of_state? hs
    obtain ⟨htype, hends, hleads⟩ := (StateKind.refersAlike_withBlockStart 0).congr net hsame
    have hmem : s₀ ∈ net.states := mem_states.mpr ⟨k, hs₀⟩
    exact ⟨⟨s₀, hs₀, htype⟩, hends.mpr (endsBlock_of_claims hpairs hclaims s₀ hmem),
      hleads.mpr (hback s₀ hmem)⟩
  intro s hs
  obtain ⟨k, hk⟩ := mem_states.mp hs
  rw [link_eq_modifyEach] at hk
  obtain ⟨hlinked, -⟩ := forall_modifyEach Prod.fst
    (fun pair : StateId × StateId => State.mapKind (.withLoopBack pair.2))
    (Q := fun _ _ => True) hstart
    (fun pair hpair s hs => ⟨hs.withLoopBack hnumbered hpair, trivial⟩) k s hk
  exact ⟨hlinked.block.mono hretains, hlinked.loop.mono hretains⟩

end Network

/-! ## Later steps -/

/-- The part of a state by which it refers to other states, and others to it. -/
structure Referring where
  number : StateId
  rule : Option RuleIndex
  kind : StateKind
  /-- Where the transitions lead and continue. -/
  transitions : List (StateId × Option StateId)

/-- What a state refers to. Whether it decides on precedence makes no difference. -/
def State.referring (s : State) : Referring where
  number := s.number
  rule := s.rule
  kind := s.kind.decidingPrecedence
  transitions := s.transitions.map fun t => (t.target, t.follow?)

/-- Where a call continues is seen in the view without actions. -/
theorem Transition.follow?_withoutAction (t : Transition) :
    t.withoutAction.follow? = t.follow? := by
  obtain ⟨target, kind⟩ := t
  cases kind <;> rfl

/-- What is dropped with the actions of a state refers to nothing. -/
theorem State.referring_withoutActions (s : State) : s.withoutActions.referring = s.referring := by
  rw [referring, referring, withoutActions, List.map_map]
  congr 1
  apply List.map_congr_left
  intro t _
  rw [Function.comp_apply, t.follow?_withoutAction]
  rfl

namespace Network

variable {net net' : Network}

/-- Steps that keep the references of states retain the states. -/
theorem Retains.of_referring (h : Keeps State.referring net net') : Retains net net' := by
  refine of_keeps ?_
  have hpart : (fun s : State => (s.kind.type, s.rule)) =
      fun s => (s.referring.kind.type, s.referring.rule) := by
    funext s
    exact congrArg (·, s.rule) (StateKind.refersAlike_decidingPrecedence.type s.kind).symm
  rw [hpart]
  exact h.comp fun r => (r.kind.type, r.rule)

/-- Marking precedence decisions keeps the references of states. -/
theorem keeps_markPrecedenceDecisions (net : Network) :
    Keeps State.referring net net.markPrecedenceDecisions := by
  refine Keeps.mapStates fun s _ => ?_
  split
  · cases hkind : s.kind <;> simp only [State.referring, State.mapKind,
      StateKind.decidingPrecedence, hkind]
  · rfl

/-- A network stays well referenced if its states go on to refer to the same and the tables do,
apart from decisions. -/
theorem WellReferenced.of_keeps (h : net.WellReferenced) (hkeeps : Keeps State.referring net net')
    (hstarts : net'.ruleStarts = net.ruleStarts) (hstops : net'.ruleStops = net.ruleStops)
    (hmodes : net'.modeStarts = net.modeStarts)
    (hdecisions : ∀ id ∈ net'.decisions, (net.kind? id).any StateKind.isDecision) :
    net'.WellReferenced := by
  have hretains : Retains net net' := .of_referring hkeeps
  have hstem : ∀ s' ∈ net'.states, ∃ s ∈ net.states, s'.referring = s.referring := by
    intro s' hs'
    obtain ⟨k, hk⟩ := mem_states.mp hs'
    obtain ⟨s, hs, hsame⟩ := hkeeps.exists_of_state? hk
    exact ⟨s, mem_states.mpr ⟨k, hs⟩, hsame⟩
  have hkind (s' : State) (hs' : s' ∈ net'.states) :
      s'.kind.EndsBlock net' ∧ s'.kind.LeadsBack net' := by
    obtain ⟨s, hs, hsame⟩ := hstem s' hs'
    obtain ⟨-, hends, hback⟩ :=
      StateKind.refersAlike_decidingPrecedence.congr net (congrArg Referring.kind hsame)
    exact ⟨(hends.mpr (h.blocks s hs)).mono hretains, (hback.mpr (h.loops s hs)).mono hretains⟩
  exact {
    numbered := (hkeeps.comp Referring.number).numbered h.numbered
    blocks := fun s hs => (hkind s hs).1
    loops := fun s hs => (hkind s hs).2
    transitions := fun s' hs' t' ht' => by
      obtain ⟨s, hs, hsame⟩ := hstem s' hs'
      have hsame := congrArg Referring.transitions hsame
      -- Some transition of the state before refers to the same.
      have hmem : (t'.target, t'.follow?) ∈ s.referring.transitions :=
        hsame ▸ List.mem_map_of_mem ht'
      obtain ⟨t, ht, href⟩ := List.mem_map.mp hmem
      obtain ⟨htarget, hfollow⟩ := Prod.mk.inj href
      have hrefers := (h.transitions s hs t ht).mono hretains
      exact ⟨htarget ▸ hrefers.target, fun follow hf => htarget ▸ hrefers.call follow (hfollow ▸ hf)⟩
    ruleStarts := fun id hid => hretains.admits .ruleStart (h.ruleStarts id (hstarts ▸ hid))
    ruleStops := fun rule stop hrule => by
      rw [ruleStop?, hstops] at hrule
      obtain ⟨s, hs, hstop, hsrule⟩ := h.ruleStops rule stop hrule
      exact hretains.ruleStop hs hstop hsrule
    modeStarts := fun id hid => hretains.isSome (h.modeStarts id (hmodes ▸ hid))
    decisions := fun id hid => hretains.admits .decision (hdecisions id hid) }

end Network

end TransitionNetwork
