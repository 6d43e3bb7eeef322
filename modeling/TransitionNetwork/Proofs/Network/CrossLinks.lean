import Mathlib.Data.Set.CoeSort
import Mathlib.Logic.Equiv.Defs
import TransitionNetwork.Proofs.Network.BypassReferences
import TransitionNetwork.Proofs.Network.Verified

/-!
# Cross-links in pairs

The first state of a block is linked to the last one exactly if the last one is linked to the first,
what closes a loop leads back to the state that is linked to it, and only states in the table of
rules are linked to the last states of rules. The first and last states of blocks are paired by
links as soon as no block end is claimed twice, and a bypass adds one more pair. What it turns away
from the entry of a star loop leads to the end of a block instead, which verification refuses of
the state that closes a star loop.

In a verified network the links are complete. So the first and last states of blocks correspond to
each other one to one, and so do rules and their first states.
-/

namespace TransitionNetwork

namespace Network

/-- The last state of the block that a state begins. -/
def blockStop? (net : Network) (id : StateId) : Option StateId :=
  (net.kind? id).bind StateKind.blockStop?

/-- The first state of the block that a state ends. -/
def blockStart? (net : Network) (id : StateId) : Option StateId :=
  (net.kind? id).bind StateKind.blockStart?

/-- The states that begin blocks, of whatever sort. -/
def blockStarts (net : Network) : Set StateId :=
  {id | ∃ block stop, net.kind? id = some (.blockStart block stop)}

/-- The states that end blocks. -/
def blockEnds (net : Network) : Set StateId := {id | ∃ start, net.kind? id = some (.blockEnd start)}

/-- The states that begin rules. -/
def ruleStartStates (net : Network) : Set StateId :=
  {id | ∃ stop hasPrecedence, net.kind? id = some (.ruleStart stop hasPrecedence)}

/-- Links between the first and last states of blocks are mutual. -/
def BlocksPaired (net : Network) : Prop :=
  ∀ first last, net.blockStop? first = some last ↔ net.blockStart? last = some first

/-- A transition leads back to a state that opens a loop, or to the end of a block instead of the
entry of a star loop. -/
def LeadsBackTo (net : Network) (id : StateId) (opening : StateKind) (t : Transition) : Prop :=
  t.target = id ∨ opening.isStarLoopEntry ∧ t.target ∈ net.blockEnds

/-- A state that opens a loop is linked, if at all, to a state with a transition that leads back. -/
def LoopsClosed (net : Network) : Prop :=
  ∀ k, ∀ s ∈ net.state? k, s.kind.isLoopEnd = false → ∀ back ∈ s.kind.loopBack?,
    ∃ closing ∈ net.state? back, ∃ t ∈ closing.transitions, net.LeadsBackTo k s.kind t

/-- The states that are linked to last states of rules are in the table of rules. -/
def RuleStopsListed (net : Network) : Prop :=
  ∀ k, ∀ s ∈ net.state? k, s.kind.ruleStop?.isSome → k ∈ net.ruleStarts

/-- The links of a network, complete or not, stand in pairs. -/
structure CrossLinked (net : Network) : Prop where
  blocks : net.BlocksPaired
  loops : net.LoopsClosed
  rules : net.RuleStopsListed

/-- The states that end blocks are those that can play this role. -/
theorem mem_blockEnds {net : Network} {id : StateId} :
    id ∈ net.blockEnds ↔ (net.kind? id).any StateRole.blockEnd.admits := by
  rw [Option.any_eq_true]
  constructor
  · rintro ⟨start, hkind⟩
    exact ⟨_, hkind, rfl⟩
  · rintro ⟨kind, hkind, hadmits⟩
    cases kind with
    | blockEnd start => exact ⟨start, hkind⟩
    | _ => cases hadmits

/-- The states that begin rules are those whose kind tells so. -/
theorem mem_ruleStartStates {net : Network} {id : StateId} :
    id ∈ net.ruleStartStates ↔ (net.kind? id).any StateKind.isRuleStart := by
  rw [Option.any_eq_true]
  constructor
  · rintro ⟨stop, hasPrecedence, hkind⟩
    exact ⟨_, hkind, rfl⟩
  · rintro ⟨kind, hkind, hstart⟩
    cases kind with
    | ruleStart stop hasPrecedence => exact ⟨stop, hasPrecedence, hkind⟩
    | _ => cases hstart

/-- A link that is a kept part of the states is kept. -/
theorem Keeps.bind_kind? {net net' : Network} {f : StateKind → Option StateId}
    (h : Keeps (fun s => f s.kind) net net') (k : StateId) :
    (net'.kind? k).bind f = (net.kind? k).bind f := by
  have hk := congrArg Option.join (h k)
  rw [← Option.bind_id_eq_join, ← Option.bind_id_eq_join, Option.bind_map, Option.bind_map] at hk
  rw [kind?, kind?, Option.bind_map, Option.bind_map]
  exact hk

/-- A link is found in the state that holds it. -/
theorem bind_kind?_eq_some {net : Network} {f : StateKind → Option StateId} {k id : StateId} :
    (net.kind? k).bind f = some id ↔ ∃ s, net.state? k = some s ∧ f s.kind = some id := by
  rw [kind?, Option.bind_map, Option.bind_eq_some_iff]
  rfl

/-! ## Rules -/

/-- Letting a rule end in a state changes only the state in which the rule begins. -/
theorem state?_of_setRuleStop {net : Network} {rule : RuleIndex} {stop k : StateId} {s : State}
    (hs : (net.setRuleStop rule stop).state? k = some s) :
    k ∈ net.ruleStarts ∨ net.state? k = some s := by
  rw [setRuleStop] at hs
  split at hs
  next start hstart =>
    rw [state?_modifyState] at hs
    split at hs
    next hk => exact Or.inl (hk ▸ List.mem_of_getElem? hstart)
    next hk => exact Or.inr hs
  next => exact Or.inr hs

/-- Letting a listed rule end in a state adds no link to a state outside of the table. -/
theorem RuleStopsListed.setRuleStop {net : Network} (h : net.RuleStopsListed) (rule : RuleIndex)
    (stop : StateId) : (net.setRuleStop rule stop).RuleStopsListed := by
  have hstarts := congrArg Network.ruleStarts (net.tables_setRuleStop rule stop)
  change (net.setRuleStop rule stop).ruleStarts = net.ruleStarts at hstarts
  intro k s hs hsome
  rw [hstarts]
  exact (state?_of_setRuleStop hs).elim id fun hs => h k s hs hsome

/-- Steps that keep the links to last states and the table keep them listed. -/
theorem RuleStopsListed.of_keeps {net net' : Network} (h : net.RuleStopsListed)
    (hkeeps : Keeps (fun s => s.kind.ruleStop?) net net') (hstarts : net'.ruleStarts = net.ruleStarts) :
    net'.RuleStopsListed := by
  intro k s' hs' hsome
  obtain ⟨s, hs, hsame⟩ := hkeeps.exists_of_state? hs'
  rw [hstarts]
  exact h k s hs (hsame ▸ hsome)

/-- Linking rule stops links only states in the table of rules, if none was linked before. -/
theorem ruleStopsListed_of_linkRuleStops {net net' : Network} (h : net.linkRuleStops = .ok net')
    (hnone : ∀ k, ∀ s ∈ net.state? k, s.kind.ruleStop? = none) : net'.RuleStopsListed := by
  obtain ⟨stops, -, h⟩ := bind_eq_ok.mp h
  cases h
  refine List.foldlRecOn stops _ ?_ fun net hnet stop _ => hnet.setRuleStop stop.1 stop.2
  intro k s hs hsome
  rw [hnone k s hs] at hsome
  cases hsome

/-! ## Blocks -/

/-- A block whose pair is computed has its own number in it, and the end to which it is linked. -/
theorem blockPair?_eq_ok {s : State} {pair : Option (StateId × StateId)}
    (h : blockPair? s = .ok pair) : pair = s.kind.blockStop?.map (s.number, ·) := by
  rw [blockPair?] at h
  cases hkind : s.kind with
  | blockStart block stop =>
    rw [hkind] at h
    cases stop <;> cases h
    rfl
  | _ =>
    rw [hkind] at h
    cases h
    rfl

/-- The pairs of the first and last states of blocks are those of the links from first states. -/
theorem mem_blockPairs {net : Network} (hnumbered : net.Numbered)
    {pairs : List (Option (StateId × StateId))} (hpairs : net.states.mapM blockPair? = .ok pairs)
    {first last : StateId} :
    (first, last) ∈ pairs.filterMap id ↔ net.blockStop? first = some last := by
  rw [List.mem_filterMap, blockStop?, bind_kind?_eq_some]
  constructor
  · rintro ⟨pair, hpair, hsome⟩
    obtain ⟨s, hs, hfound⟩ := exists_of_mem_mapM_ok hpairs hpair
    obtain ⟨k, hk⟩ := mem_states.mp hs
    rw [id_eq, blockPair?_eq_ok hfound, Option.map_eq_some_iff] at hsome
    obtain ⟨stop, hstop, hsame⟩ := hsome
    cases hsame
    exact ⟨s, hnumbered k s hk ▸ hk, hstop⟩
  · rintro ⟨s, hs, hstop⟩
    obtain ⟨pair, hpair, hfound⟩ := exists_of_mem_of_mapM_ok hpairs (mem_states.mpr ⟨first, hs⟩)
    refine ⟨pair, hpair, ?_⟩
    rw [blockPair?_eq_ok hfound, hstop, hnumbered first s hs]
    rfl

/-- A claim links a block end that was not linked, and no other. -/
theorem blockStart?_claimBlockEnd {net net' : Network} {pair : StateId × StateId}
    (h : net.claimBlockEnd pair = .ok net') :
    net.blockStart? pair.2 = none ∧
      ∀ k, net'.blockStart? k = if pair.2 = k then some pair.1 else net.blockStart? k := by
  rw [claimBlockEnd_eq_ok h]
  obtain ⟨stop, hstop, h⟩ := bind_eq_ok.mp h
  rw [requireState] at hstop
  split at hstop
  next hfound =>
    cases hstop
    split at h
    next hkind =>
      have hlink (k : StateId) : (net.link .withBlockStart [(pair.2, pair.1)]).state? k =
          if pair.2 = k then (net.state? k).map (State.mapKind (.withBlockStart pair.1))
          else net.state? k := net.state?_modifyState pair.2 k _
      refine ⟨?_, fun k => ?_⟩
      · rw [blockStart?, kind?, hfound, Option.map_some, Option.bind_some, hkind]
        rfl
      · rw [blockStart?, kind?, hlink]
        split
        next hk =>
          subst hk
          rw [hfound, Option.map_some, Option.map_some, Option.bind_some, State.mapKind, hkind]
          rfl
        next => rfl
    · cases h
    · cases h
  · cases hstop

/-- Claims link block ends to the block starts that claim them. -/
theorem blockStart?_claims {net claimed : Network} {pairs : List (StateId × StateId)}
    (h : pairs.foldlM claimBlockEnd net = .ok claimed) {first last : StateId} :
    claimed.blockStart? last = some first ↔
      net.blockStart? last = some first ∨ (first, last) ∈ pairs := by
  induction pairs generalizing net with
  | nil =>
    rw [List.foldlM_nil] at h
    cases h
    simp
  | cons pair rest ih =>
    rw [List.foldlM_cons] at h
    obtain ⟨next, hnext, hrest⟩ := bind_eq_ok.mp h
    obtain ⟨hfree, hnext⟩ := blockStart?_claimBlockEnd hnext
    have hstep : next.blockStart? last = some first ↔
        net.blockStart? last = some first ∨ (first, last) = pair := by
      rw [hnext]
      split
      next hlast =>
        rw [← hlast, hfree, Option.some.injEq]
        exact ⟨fun h => Or.inr (h ▸ rfl), fun h => h.elim (fun h => (by cases h)) fun h => h ▸ rfl⟩
      next hlast =>
        have hother : (first, last) ≠ pair := fun h => hlast (h ▸ rfl)
        exact (or_iff_left hother).symm
    rw [ih hrest, hstep, List.mem_cons, or_assoc]

/-- Claims keep every part of the kinds apart from the links from block ends. -/
theorem keeps_claims {γ : Type} (part : StateKind → γ)
    (hpart : ∀ start kind, part (StateKind.withBlockStart start kind) = part kind)
    {net claimed : Network} {pairs : List (StateId × StateId)}
    (h : pairs.foldlM claimBlockEnd net = .ok claimed) :
    Keeps (fun s => part s.kind) net claimed := by
  refine (Revises.foldlM (fun net net' pair hpair => ?_) h).keeps
  rw [claimBlockEnd_eq_ok hpair]
  exact Revises.modifyEach fun pair _ s => hpart pair.2 s.kind

/-- Claims pair the first and last states of blocks. -/
theorem blocksPaired_of_claims {net claimed : Network} {pairs : List (Option (StateId × StateId))}
    (hnumbered : net.Numbered) (hpairs : net.states.mapM blockPair? = .ok pairs)
    (hclaims : (pairs.filterMap id).foldlM claimBlockEnd net = .ok claimed)
    (hnone : ∀ last first, net.blockStart? last ≠ some first) : claimed.BlocksPaired := by
  have hkeeps := keeps_claims StateKind.blockStop? (fun _ kind => by cases kind <;> rfl)
    hclaims
  intro first last
  rw [blockStart?_claims hclaims, or_iff_right (hnone last first), mem_blockPairs hnumbered hpairs]
  exact iff_of_eq (congrArg (· = some last) (hkeeps.bind_kind? first))

/-- Steps that keep both links of blocks keep them mutual. -/
theorem BlocksPaired.of_keeps {net net' : Network} (h : net.BlocksPaired)
    (hstops : Keeps (fun s => s.kind.blockStop?) net net')
    (hstarts : Keeps (fun s => s.kind.blockStart?) net net') : net'.BlocksPaired := by
  intro first last
  have hpaired := h first last
  rwa [blockStop?, blockStart?, ← hstops.bind_kind?, ← hstarts.bind_kind?] at hpaired

/-! ## Loops -/

/-- Linking a loop leaves the ends of blocks. -/
theorem blockStop?_withLoopBack (back : StateId) (kind : StateKind) :
    (kind.withLoopBack back).blockStop? = kind.blockStop? := by
  rcases kind with _ | _ | _ | ⟨_ | _ | _, _⟩ | _ | _ | _ | _ | _ | _ <;> rfl

/-- Linking a loop leaves the beginnings of blocks. -/
theorem blockStart?_withLoopBack (back : StateId) (kind : StateKind) :
    (kind.withLoopBack back).blockStart? = kind.blockStart? := by
  rcases kind with _ | _ | _ | ⟨_ | _ | _, _⟩ | _ | _ | _ | _ | _ | _ <;> rfl

/-- Linking a loop leaves the ends of rules. -/
theorem ruleStop?_withLoopBack (back : StateId) (kind : StateKind) :
    (kind.withLoopBack back).ruleStop? = kind.ruleStop? := by
  rcases kind with _ | _ | _ | ⟨_ | _ | _, _⟩ | _ | _ | _ | _ | _ | _ <;> rfl

/-- A state that is linked to a closing one is linked to that or as it was. -/
theorem loopBack?_withLoopBack {id back : StateId} {kind : StateKind}
    (h : (kind.withLoopBack id).loopBack? = some back) :
    back = id ∨ kind.loopBack? = some back := by
  rcases kind with _ | _ | _ | ⟨_ | _ | _, _⟩ | _ | _ | _ | _ | _ | _ <;>
    cases h <;> exact Or.inl rfl

/-- A state that is linked to one that closes its loop is linked to one that leads back. -/
theorem exists_of_mem_closedLoops {net : Network} (hnumbered : net.Numbered) {k back : StateId}
    (h : (k, back) ∈ net.states.flatMap net.closedLoops) :
    ∃ closing, net.state? back = some closing ∧ ∃ t ∈ closing.transitions, t.target = k := by
  obtain ⟨closing, hclosing, h⟩ := List.mem_flatMap.mp h
  obtain ⟨t, ht, hpair⟩ := List.mem_map.mp h
  obtain ⟨i, hi⟩ := mem_states.mp hclosing
  cases hpair
  exact ⟨closing, hnumbered i closing hi ▸ hi, t, (List.mem_filter.mp ht).1, rfl⟩

/-- What opens a loop is linked to a state that leads back, if only loop ends were linked before. -/
theorem loopsClosed_linkBlocksAndLoops {net net' : Network} (h : net.linkBlocksAndLoops = .ok net')
    (hnumbered : net.Numbered)
    (hnone : ∀ k, ∀ s ∈ net.state? k, s.kind.isLoopEnd = false → s.kind.loopBack? = none) :
    net'.LoopsClosed := by
  have htransitions := (revises_linkBlocksAndLoops h).2.keeps.comp State.transitions
  obtain ⟨pairs, hpairs, h⟩ := bind_eq_ok.mp h
  obtain ⟨claimed, hclaims, h⟩ := bind_eq_ok.mp h
  cases h
  have hclaimed := keeps_claims (fun kind => (kind.isLoopEnd, kind.loopBack?))
    (fun _ kind => by cases kind <;> rfl) hclaims
  intro k s hs hopening back hback
  rw [link_eq_modifyEach] at hs
  obtain ⟨hlinked, -⟩ := forall_modifyEach Prod.fst
    (fun pair : StateId × StateId => State.mapKind (.withLoopBack pair.2))
    (P := fun k s => s.kind.isLoopEnd = false → ∀ back ∈ s.kind.loopBack?,
      (k, back) ∈ net.states.flatMap net.closedLoops) (Q := fun _ _ => True)
    (fun k s hs hopening back hback => by
      obtain ⟨s₀, hs₀, hsame⟩ := hclaimed.exists_of_state? hs
      rw [Prod.mk.injEq] at hsame
      rw [hsame.2, hnone k s₀ hs₀ (hsame.1 ▸ hopening)] at hback
      cases hback)
    (fun pair hpair s hs => ⟨fun hopening back hback => by
      rcases loopBack?_withLoopBack hback with rfl | hback
      · exact hpair
      · exact hs (by rwa [← StateKind.isLoopEnd_withLoopBack]) back hback, trivial⟩) k s hs
  obtain ⟨closing, hclosing, t, ht, htarget⟩ :=
    exists_of_mem_closedLoops hnumbered (hlinked hopening back hback)
  obtain ⟨closing', hclosing', hsame⟩ := htransitions.symm.exists_of_state? hclosing
  exact ⟨closing', hclosing', t, by rwa [← show closing.transitions = closing'.transitions from hsame],
    Or.inl htarget⟩

/-! ## Linked networks -/

/-- Once blocks and loops are linked, links stand in pairs, provided that of these links only those
from block starts and loop ends were made before. -/
theorem crossLinked_linkBlocksAndLoops {net net' : Network} (h : net.linkBlocksAndLoops = .ok net')
    (hnumbered : net.Numbered) (hrules : net.RuleStopsListed)
    (hblocks : ∀ k, ∀ s ∈ net.state? k, s.kind.blockStart? = none)
    (hloops : ∀ k, ∀ s ∈ net.state? k, s.kind.isLoopEnd = false → s.kind.loopBack? = none) :
    net'.CrossLinked := by
  have hclosed := loopsClosed_linkBlocksAndLoops h hnumbered hloops
  have hstarts := congrArg Network.ruleStarts (revises_linkBlocksAndLoops h).1.tables
  obtain ⟨pairs, hpairs, h⟩ := bind_eq_ok.mp h
  obtain ⟨claimed, hclaims, h⟩ := bind_eq_ok.mp h
  cases h
  refine ⟨?_, hclosed, ?_⟩
  · have hpaired : claimed.BlocksPaired :=
      blocksPaired_of_claims hnumbered hpairs hclaims fun last first hfirst => by
        obtain ⟨s, hs, hstart⟩ := bind_kind?_eq_some.mp hfirst
        rw [hblocks last s hs] at hstart
        cases hstart
    exact hpaired.of_keeps (Keeps.modifyEach fun _ _ s => blockStop?_withLoopBack _ s.kind)
      (Keeps.modifyEach fun _ _ s => blockStart?_withLoopBack _ s.kind)
  · have hclaimed := keeps_claims StateKind.ruleStop? (fun _ kind => by cases kind <;> rfl)
      hclaims
    exact hrules.of_keeps (hclaimed.trans (Keeps.modifyEach fun _ _ s =>
      ruleStop?_withLoopBack _ s.kind)) hstarts

/-! ## Later steps -/

/-- Kinds that differ only in whether they decide on precedence have the same other parts. -/
theorem eq_of_decidingPrecedence {γ : Type} {part : StateKind → γ}
    (hpart : ∀ kind : StateKind, part kind.decidingPrecedence = part kind) {kind kind' : StateKind}
    (h : kind.decidingPrecedence = kind'.decidingPrecedence) : part kind = part kind' := by
  rw [← hpart kind, h, hpart]

/-- A transition that leads back does so in every network that retains the states. -/
theorem LeadsBackTo.mono {net net' : Network} (h : Retains net net') {id : StateId}
    {opening : StateKind} {t : Transition} (ht : net.LeadsBackTo id opening t) :
    net'.LeadsBackTo id opening t := by
  refine ht.imp_right fun ⟨hentry, hend⟩ => ⟨hentry, ?_⟩
  rw [mem_blockEnds] at hend ⊢
  exact h.admits .blockEnd hend

/-- Steps that keep the references of states keep loops closed. -/
theorem LoopsClosed.of_keeps {net net' : Network} (h : net.LoopsClosed)
    (hkeeps : Keeps State.referring net net') : net'.LoopsClosed := by
  have hretains : Retains net net' := .of_referring hkeeps
  intro k s' hs' hopening back hback
  obtain ⟨s, hs, hsame⟩ := hkeeps.exists_of_state? hs'
  have hkind : s.kind.decidingPrecedence = s'.kind.decidingPrecedence :=
    (congrArg Referring.kind hsame).symm
  have hloop : s.kind.isLoopEnd = s'.kind.isLoopEnd :=
    eq_of_decidingPrecedence (fun kind => by cases kind <;> rfl) hkind
  have hlink : s.kind.loopBack? = s'.kind.loopBack? :=
    eq_of_decidingPrecedence (fun kind => by cases kind <;> rfl) hkind
  have hentry : s.kind.isStarLoopEntry = s'.kind.isStarLoopEntry :=
    eq_of_decidingPrecedence (fun kind => by cases kind <;> rfl) hkind
  obtain ⟨closing, hclosing, t, ht, hleads⟩ := h k s hs (hloop ▸ hopening) back (hlink ▸ hback)
  obtain ⟨closing', hclosing', hsame⟩ := hkeeps.symm.exists_of_state? hclosing
  have hmem : (t.target, t.follow?) ∈ closing'.referring.transitions :=
    hsame ▸ List.mem_map_of_mem ht
  obtain ⟨t', ht', href⟩ := List.mem_map.mp hmem
  refine ⟨closing', hclosing', t', ht', ?_⟩
  have hleads := hleads.mono hretains
  rw [LeadsBackTo, (Prod.mk.inj href).1, ← hentry]
  exact hleads

/-- Links stay in pairs if the states go on to refer to the same and the table of rules is kept. -/
theorem CrossLinked.of_keeps {net net' : Network} (h : net.CrossLinked)
    (hkeeps : Keeps State.referring net net') (hstarts : net'.ruleStarts = net.ruleStarts) :
    net'.CrossLinked := by
  have hkinds {γ : Type} {part : StateKind → γ}
      (hpart : ∀ kind : StateKind, part kind.decidingPrecedence = part kind) :
      Keeps (fun s => part s.kind) net net' := by
    have hsame := hkeeps.comp fun r => part r.kind
    simpa only [State.referring, hpart] using hsame
  exact ⟨h.blocks.of_keeps (hkinds fun kind => by cases kind <;> rfl)
    (hkinds fun kind => by cases kind <;> rfl), h.loops.of_keeps hkeeps,
    h.rules.of_keeps (hkinds fun kind => by cases kind <;> rfl) hstarts⟩

/-! ## Bypasses -/

section

variable {net net' : Network} {rule : RuleIndex} {start stop : StateId} {token : TokenType}
  {first : State} {body : List Transition}

/-- A bypass adds the states of a block and one more, and keeps the kinds of all others. -/
theorem Bypassed.kind?_eq_ite (h : Bypassed net net' rule start stop token first body) (k : StateId) :
    net'.kind? k =
      if k = net.nextId then some (.blockStart .basic (some (net.nextId + 1)))
      else if k = net.nextId + 1 then some (.blockEnd (some net.nextId))
      else if k = net.nextId + 2 then some .basic else net.kind? k := by
  split
  next hk =>
    obtain ⟨s, hs, -, -, hkind, -⟩ := h.opening
    rw [kind?, hk, hs, Option.map_some, hkind]
  split
  next hk =>
    rw [kind?, hk, h.closing]
    rfl
  split
  next hk =>
    rw [kind?, hk, h.choice]
    rfl
  next hopening hclosing hchoice =>
    cases hs : net.state? k with
    | some s => rw [h.kind?_eq hs, kind?, hs, Option.map_some]
    | none =>
      have hnone : net'.state? k = none := by
        rcases Nat.lt_or_ge k net.nextId with hlt | hge
        · have hne : k ≠ start := by
            rintro rfl
            cases hs.symm.trans h.found
          refine Option.eq_none_iff_forall_ne_some.mpr fun s' hs' => ?_
          have hrel := h.others k hlt hne
          rw [hs, hs'] at hrel
          cases hrel
        · exact state?_eq_none (by rw [h.size]; lia)
      rw [kind?, kind?, hs, hnone]

/-- The states behind the others are of kinds of their own. -/
theorem Bypassed.kind_cases (h : Bypassed net net' rule start stop token first body) {k : StateId}
    {s' : State} (hs' : net'.state? k = some s') :
    (∃ s, net.state? k = some s ∧ s.kind = s'.kind) ∨
      s'.kind = .blockStart .basic (some (net.nextId + 1)) ∨
      s'.kind = .blockEnd (some net.nextId) ∨ s'.kind = .basic := by
  have hkind : some s'.kind = net'.kind? k := by rw [kind?, hs', Option.map_some]
  rw [h.kind?_eq_ite] at hkind
  split_ifs at hkind
  · exact Or.inr (Or.inl (Option.some.inj hkind))
  · exact Or.inr (Or.inr (Or.inl (Option.some.inj hkind)))
  · exact Or.inr (Or.inr (Or.inr (Option.some.inj hkind)))
  · exact Or.inl (kind?_eq_some.mp hkind.symm)

/-- A bypass adds one pair to those of the first and last states of blocks. -/
theorem BlocksPaired.of_bypassed (hnet : net.BlocksPaired)
    (h : Bypassed net net' rule start stop token first body) : net'.BlocksPaired := by
  have hbehind {k : StateId} (hk : net.nextId ≤ k) (f : StateKind → Option StateId) :
      (net.kind? k).bind f = none := by
    rw [kind?, state?_eq_none hk]
    rfl
  have hstops (k : StateId) : net'.blockStop? k =
      if k = net.nextId then some (net.nextId + 1) else net.blockStop? k := by
    rw [blockStop?, blockStop?, h.kind?_eq_ite]
    split_ifs <;> first | rfl | exact (hbehind (by lia) _).symm
  have hstarts (k : StateId) : net'.blockStart? k =
      if k = net.nextId + 1 then some net.nextId else net.blockStart? k := by
    rw [blockStart?, blockStart?, h.kind?_eq_ite]
    split_ifs <;> first | lia | rfl | exact (hbehind (by lia) _).symm
  intro opening closing
  rw [hstops, hstarts]
  have hpaired := hnet opening closing
  split_ifs with hopening hclosing hclosing
  · rw [hopening, hclosing]
    exact iff_of_true rfl rfl
  · rw [← hpaired, blockStop?, hbehind (by lia)]
    exact iff_of_false (fun h => hclosing (Option.some.inj h).symm)
      (Option.some_ne_none _).symm
  · rw [hpaired, blockStart?, hbehind (by lia)]
    exact iff_of_false (Option.some_ne_none _).symm fun h => hopening (Option.some.inj h).symm
  · exact hpaired

/-- The bypass of a rule links no state to the end of a rule. -/
theorem RuleStopsListed.of_bypassed (hnet : net.RuleStopsListed)
    (h : Bypassed net net' rule start stop token first body) : net'.RuleStopsListed := by
  intro k s' hs' hsome
  rw [h.ruleStarts_eq]
  rcases h.kind_cases hs' with ⟨s, hs, hkind⟩ | hkind | hkind | hkind
  · exact hnet k s hs (hkind ▸ hsome)
  all_goals
    rw [hkind] at hsome
    cases hsome

end

end Network

/-- A kind that opens a loop leads back, if at all, to a state that closes loops. -/
theorem StateKind.LeadsBack.exists_closing {net : Network} {kind : StateKind}
    (h : kind.LeadsBack net) (hopening : kind.isLoopEnd = false) {back : StateId}
    (hback : kind.loopBack? = some back) :
    (kind.isStarLoopEntry ∧ net.kind? back = some .starLoopBack) ∨
      (kind.isPlusBlockStart ∧ net.kind? back = some .plusLoopBack) := by
  rcases kind with _ | _ | _ | ⟨_ | _ | _, _⟩ | _ | _ | _ | _ | _ | _
  case blockStart.plus => exact Or.inr ⟨rfl, h back hback⟩
  case starLoopEntry => exact Or.inl ⟨rfl, h back hback⟩
  case loopEnd => cases hopening
  all_goals cases hback

/-- The opening of a plus loop does not matter for precedence loops. -/
theorem StateKind.shapesLoop_eq_false_of_isPlusBlockStart {kind : StateKind}
    (h : kind.isPlusBlockStart) : kind.shapesLoop = false := by
  cases kind <;> first | rfl | cases h

namespace Network

/-- What leads back to a state that opens a loop goes on to do so when a bypass is added, or leads
to the end of the added block if the loop stands at the end of the rule. -/
theorem LoopsClosed.of_bypassAdded {net net' : Network} {rule : RuleIndex} {start stop : StateId}
    {token : TokenType} {first : State} {body : List Transition} (hnet : net.LoopsClosed)
    (hreferenced : net.WellReferenced)
    (h : BypassAdded net net' rule start stop token first body) : net'.LoopsClosed := by
  intro k s' hs' hopening back hback
  rcases h.kind_cases hs' with ⟨s, hs, hkind⟩ | hkind | hkind | hkind
  case inr.inl | inr.inr.inl | inr.inr.inr =>
    rw [hkind] at hback
    cases hback
  rw [← hkind] at hopening hback ⊢
  obtain ⟨closing, hclosing, t, ht, hleads⟩ := hnet k s hs hopening back hback
  have hsort := (hreferenced.loops s (mem_states.mpr ⟨k, hs⟩)).exists_closing hopening hback
  -- What closes a loop is no first state of a rule, so its transitions stay with it.
  have hne : back ≠ start := by
    rintro rfl
    have hrule := h.isRuleStart
    have hfound : net.kind? back = some first.kind := by rw [kind?, h.found, Option.map_some]
    rcases hsort with ⟨-, hclose⟩ | ⟨-, hclose⟩ <;>
    · rw [Option.some.inj (hfound.symm.trans hclose)] at hrule
      cases hrule
  obtain ⟨closing', hclosing', hredirected⟩ := h.redirected hclosing hne
  obtain ⟨t', ht', hturned⟩ := exists_of_mem_forall₂ hredirected.transitions.flip ht
  refine ⟨closing', hclosing', t', ht', ?_⟩
  rcases hturned with rfl | ⟨htarget, rfl⟩
  · exact hleads.mono h.retains
  · refine Or.inr ⟨?_, _, by rw [kind?, h.closing]; rfl⟩
    rcases hleads with hk | ⟨hentry, -⟩
    · obtain ⟨ending, hending, hshapes⟩ := h.endsBody.exists_state? hreferenced
      rw [← htarget, hk, hs, Option.some.injEq] at hending
      subst hending
      refine hsort.elim And.left fun hplus => ?_
      rw [StateKind.shapesLoop_eq_false_of_isPlusBlockStart hplus.1] at hshapes
      cases hshapes
    · exact hentry

/-- The bypass of one rule keeps the links in pairs. -/
theorem CrossLinked.of_addBypass {net net' : Network} (hnet : net.CrossLinked)
    (hreferenced : net.WellReferenced) {rule : RuleIndex} (h : net.addBypass rule = .ok net') :
    net'.CrossLinked := by
  obtain ⟨start, stop, token, first, body, hadded⟩ := exists_bypassAdded hreferenced h
  exact ⟨hnet.blocks.of_bypassed hadded.toBypassed, hnet.loops.of_bypassAdded hreferenced hadded,
    hnet.rules.of_bypassed hadded.toBypassed⟩

/-- Bypasses of all rules keep the links in pairs. -/
theorem CrossLinked.of_addBypasses {net net' : Network} (hnet : net.CrossLinked)
    (hreferenced : net.WellReferenced) (h : net.addBypasses = .ok net') : net'.CrossLinked := by
  refine (foldlM_addBypass (P := fun reached => reached.WellReferenced ∧ reached.CrossLinked) ?_ h
    ⟨hreferenced.withTokenTypes _, hnet.of_keeps (Keeps.refl _ net) rfl⟩).2
  rintro reached next rule ⟨hreached, hlinked⟩ hnext
  exact ⟨hreached.of_addBypass hnext, hlinked.of_addBypass hreached hnext⟩

end Network

end TransitionNetwork
