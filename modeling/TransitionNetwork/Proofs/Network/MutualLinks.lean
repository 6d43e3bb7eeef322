import TransitionNetwork.Proofs.Network.CrossLinks

/-!
# Complete links of verified networks

If links stand in pairs and verification finds none missing, the first and last states of blocks
correspond to each other one to one, a star loop is closed by a state that leads to its entry alone,
and a plus loop by one that leads to its first state, among others. The first states of rules
correspond to the rules, and each is linked to the last state that the table of rules holds.
-/

namespace TransitionNetwork

/-- Links in both directions between two sets, none of which is missing, make them correspond to
each other one to one. -/
theorem exists_equiv_of_links {α β : Type} {s : Set α} {t : Set β} {f : α → Option β}
    {g : β → Option α} (hf : ∀ a ∈ s, ∃ b ∈ t, f a = some b) (hg : ∀ b ∈ t, ∃ a ∈ s, g b = some a)
    (hmutual : ∀ a b, f a = some b ↔ g b = some a) :
    ∃ pairs : s ≃ t, (∀ a : s, f a = some ↑(pairs a)) ∧ ∀ b : t, g b = some ↑(pairs.symm b) := by
  choose forth hforth hf using hf
  choose back hback hg using hg
  let pairs : s ≃ t :=
    { toFun := fun a => ⟨forth a a.2, hforth a a.2⟩
      invFun := fun b => ⟨back b b.2, hback b b.2⟩
      left_inv := fun a => Subtype.ext (Option.some.inj
        ((hg _ (hforth a a.2)).symm.trans ((hmutual a _).mp (hf a a.2))))
      right_inv := fun b => Subtype.ext (Option.some.inj
        ((hf _ (hback b b.2)).symm.trans ((hmutual _ b).mpr (hg b b.2)))) }
  exact ⟨pairs, fun a => hf a a.2, fun b => hg b b.2⟩

namespace StateKind

/-- What opens a loop is not the state behind it. -/
theorem isLoopEnd_of_opens {kind : StateKind} (h : kind.isStarLoopEntry ∨ kind.isPlusBlockStart) :
    kind.isLoopEnd = false := by
  cases kind <;> first | rfl | (rcases h with h | h <;> cases h)

/-- A kind opens one sort of loops at most. -/
theorem not_opens_both {kind : StateKind} (hentry : kind.isStarLoopEntry)
    (hstart : kind.isPlusBlockStart) : False := by
  cases kind with
  | starLoopEntry => cases hstart
  | _ => cases hentry

end StateKind

namespace Network

/-- The first and last states of blocks are linked to each other one to one, and what opens a loop
is linked to what closes it and leads back. -/
structure MutuallyLinked (net : Network) : Prop where
  blocks : ∃ ends : net.blockStarts ≃ net.blockEnds,
    (∀ first : net.blockStarts, net.blockStop? first = some ↑(ends first)) ∧
      ∀ last : net.blockEnds, net.blockStart? last = some ↑(ends.symm last)
  starLoops : ∀ entry s, net.state? entry = some s → s.kind.isStarLoopEntry →
    ∃ back closing t, s.kind.loopBack? = some back ∧ net.state? back = some closing ∧
      closing.kind = .starLoopBack ∧ closing.transitions = [t] ∧ t.target = entry
  plusLoops : ∀ start s, net.state? start = some s → s.kind.isPlusBlockStart →
    ∃ back closing, s.kind.loopBack? = some back ∧ net.state? back = some closing ∧
      closing.kind = .plusLoopBack ∧ ∃ t ∈ closing.transitions, t.target = start

/-- Rules correspond to their first states one to one, and each first state is linked to the last
state of its rule. -/
structure RulesPaired (net : Network) : Prop where
  starts : ∃ starts : Fin net.ruleCount ≃ net.ruleStartStates,
    ∀ rule : Fin net.ruleCount, net.ruleStart? rule = some ↑(starts rule)
  stops : ∀ rule < net.ruleCount, ∃ start first stop last,
    net.ruleStart? rule = some start ∧ net.state? start = some first ∧
      first.kind.ruleStop? = some stop ∧ net.ruleStop? rule = some stop ∧
      net.state? stop = some last ∧ last.kind = .ruleStop ∧ last.rule = some rule
  distinct : ∀ rule < net.ruleCount, ∀ other < net.ruleCount, rule ≠ other →
    net.ruleStart? rule ≠ net.ruleStart? other ∧ net.ruleStop? rule ≠ net.ruleStop? other

section

variable {net : Network} (hreferenced : net.WellReferenced) (hverified : net.Verified)

include hreferenced hverified

/-! ## Blocks and loops -/

/-- Every first state of a block has a last one, and every last state a first one. -/
theorem exists_equiv_blocks (hpaired : net.BlocksPaired) :
    ∃ ends : net.blockStarts ≃ net.blockEnds,
      (∀ first : net.blockStarts, net.blockStop? first = some ↑(ends first)) ∧
        ∀ last : net.blockEnds, net.blockStart? last = some ↑(ends.symm last) := by
  refine exists_equiv_of_links ?_ ?_ hpaired
  · rintro first ⟨block, stop, hkind⟩
    obtain ⟨s, hs, hkind'⟩ := kind?_eq_some.mp hkind
    have hends := hreferenced.blocks s (mem_states.mpr ⟨first, hs⟩)
    rw [hkind'] at hends
    obtain ⟨last, rfl, hadmits⟩ := hends
    exact ⟨last, mem_blockEnds.mpr hadmits, by rw [blockStop?, hkind]; rfl⟩
  · rintro last ⟨start, hkind⟩
    obtain ⟨s, hs, hkind'⟩ := kind?_eq_some.mp hkind
    obtain ⟨first, rfl⟩ := Option.isSome_iff_exists.mp
      (hverified.isSome_of_blockEnd (mem_states.mpr ⟨last, hs⟩) hkind')
    have hstart : net.blockStart? last = some first := by
      rw [blockStart?, hkind]
      rfl
    refine ⟨first, ?_, hstart⟩
    obtain ⟨s, hs, hstop⟩ := bind_kind?_eq_some.mp ((hpaired first last).mpr hstart)
    cases hk : s.kind with
    | blockStart block stop => exact ⟨block, stop, kind?_eq_some.mpr ⟨s, hs, hk⟩⟩
    | _ =>
      rw [hk] at hstop
      cases hstop

/-- A state that opens a loop is linked to one that closes loops of the same sort and leads back. -/
theorem exists_closing (hclosed : net.LoopsClosed) {k : StateId} {s : State}
    (hs : net.state? k = some s) (hopens : s.kind.isStarLoopEntry ∨ s.kind.isPlusBlockStart) :
    ∃ back closing, s.kind.loopBack? = some back ∧ net.state? back = some closing ∧
      (s.kind.isStarLoopEntry ∧ closing.kind = .starLoopBack ∨
        s.kind.isPlusBlockStart ∧ closing.kind = .plusLoopBack) ∧
      ∃ t ∈ closing.transitions, net.LeadsBackTo k s.kind t := by
  have hmem : s ∈ net.states := mem_states.mpr ⟨k, hs⟩
  have hopening : s.kind.isLoopEnd = false := StateKind.isLoopEnd_of_opens hopens
  obtain ⟨back, hback⟩ := Option.isSome_iff_exists.mp (hverified.isSome_loopBack? hmem hopens)
  obtain ⟨closing, hclosing, t, ht, hleads⟩ := hclosed k s hs hopening back hback
  have hkind : net.kind? back = some closing.kind := by rw [kind?, hclosing, Option.map_some]
  have hsort := (hreferenced.loops s hmem).exists_closing hopening hback
  rw [hkind, Option.some.injEq, Option.some.injEq] at hsort
  exact ⟨back, closing, hback, hclosing, hsort, t, ht, hleads⟩

/-- A star loop is closed by a state whose only transition leads to its entry. -/
theorem exists_starLoopBack (hclosed : net.LoopsClosed) {entry : StateId} {s : State}
    (hs : net.state? entry = some s) (hentry : s.kind.isStarLoopEntry) :
    ∃ back closing t, s.kind.loopBack? = some back ∧ net.state? back = some closing ∧
      closing.kind = .starLoopBack ∧ closing.transitions = [t] ∧ t.target = entry := by
  obtain ⟨back, closing, hback, hclosing, hsort, t, ht, hleads⟩ :=
    exists_closing hreferenced hverified hclosed hs (Or.inl hentry)
  have hkind : closing.kind = .starLoopBack := hsort.elim And.right fun ⟨hplus, _⟩ =>
    (StateKind.not_opens_both hentry hplus).elim
  obtain ⟨only, honly, hleadsTo⟩ :=
    hverified.exists_of_starLoopBack (mem_states.mpr ⟨back, hclosing⟩) hkind
  rw [honly, List.mem_singleton] at ht
  subst ht
  -- The one transition leads to an entry, so that a bypass cannot have turned it.
  refine ⟨back, closing, t, hback, hclosing, hkind, honly, hleads.resolve_right ?_⟩
  rintro ⟨-, start, hend⟩
  rw [hend] at hleadsTo
  cases hleadsTo

/-- A plus loop is closed by a state with a transition to its first state. -/
theorem exists_plusLoopBack (hclosed : net.LoopsClosed) {start : StateId} {s : State}
    (hs : net.state? start = some s) (hstart : s.kind.isPlusBlockStart) :
    ∃ back closing, s.kind.loopBack? = some back ∧ net.state? back = some closing ∧
      closing.kind = .plusLoopBack ∧ ∃ t ∈ closing.transitions, t.target = start := by
  obtain ⟨back, closing, hback, hclosing, hsort, t, ht, hleads⟩ :=
    exists_closing hreferenced hverified hclosed hs (Or.inr hstart)
  have hkind : closing.kind = .plusLoopBack := hsort.elim
    (fun ⟨hentry, _⟩ => (StateKind.not_opens_both hentry hstart).elim) And.right
  exact ⟨back, closing, hback, hclosing, hkind, t, ht,
    hleads.resolve_right fun ⟨hentry, _⟩ => StateKind.not_opens_both hentry hstart⟩

/-- Links that stand in pairs are mutual in a verified network. -/
theorem CrossLinked.mutuallyLinked (h : net.CrossLinked) : net.MutuallyLinked where
  blocks := exists_equiv_blocks hreferenced hverified h.blocks
  starLoops _ _ hs hentry := exists_starLoopBack hreferenced hverified h.loops hs hentry
  plusLoops _ _ hs hstart := exists_plusLoopBack hreferenced hverified h.loops hs hstart

/-! ## Rules -/

/-- A rule begins in a state that is linked to the last state of the rule. -/
theorem exists_ruleStates {rule : RuleIndex} {start : StateId}
    (hstart : net.ruleStart? rule = some start) :
    start ∈ net.ruleStartStates ∧ ∃ first stop last, net.state? start = some first ∧
      first.kind.ruleStop? = some stop ∧ net.ruleStop? rule = some stop ∧
      net.state? stop = some last ∧ last.kind = .ruleStop ∧ last.rule = some rule := by
  have hkind := hreferenced.ruleStarts start (List.mem_of_getElem? hstart)
  obtain ⟨first, hfirst, hpaired⟩ := hverified.rules rule start hstart
  have hisStart : first.kind.isRuleStart := by
    rwa [kind?, hfirst, Option.map_some, Option.any_some] at hkind
  obtain ⟨stop, hstop⟩ := Option.isSome_iff_exists.mp
    (hverified.isSome_ruleStop? (mem_states.mpr ⟨start, hfirst⟩) hisStart)
  have htable := hpaired.symm.trans hstop
  obtain ⟨last, hlast, hisStop, hrule⟩ := hreferenced.ruleStops rule stop htable
  refine ⟨mem_ruleStartStates.mpr hkind, first, stop, last, hfirst, hstop, htable, hlast, ?_, hrule⟩
  cases hk : last.kind with
  | ruleStop => rfl
  | _ =>
    rw [hk] at hisStop
    cases hisStop

omit hverified in
/-- Rules that end in the same state are the same. -/
theorem eq_of_ruleStop? {rule other : RuleIndex} {stop : StateId}
    (hrule : net.ruleStop? rule = some stop) (hother : net.ruleStop? other = some stop) :
    rule = other := by
  obtain ⟨s, hs, -, hsame⟩ := hreferenced.ruleStops rule stop hrule
  obtain ⟨s', hs', -, hsame'⟩ := hreferenced.ruleStops other stop hother
  cases hs.symm.trans hs'
  exact Option.some.inj (hsame.symm.trans hsame')

/-- Rules that begin in the same state are the same, as they end in the same state. -/
theorem eq_of_ruleStart? {rule other : RuleIndex} {start : StateId}
    (hrule : net.ruleStart? rule = some start) (hother : net.ruleStart? other = some start) :
    rule = other := by
  obtain ⟨-, first, stop, -, hfirst, hstop, hends, -⟩ := exists_ruleStates hreferenced hverified hrule
  obtain ⟨-, first', stop', -, hfirst', hstop', hends', -⟩ :=
    exists_ruleStates hreferenced hverified hother
  cases hfirst.symm.trans hfirst'
  cases hstop.symm.trans hstop'
  exact eq_of_ruleStop? hreferenced hends hends'

omit hreferenced in
/-- Every first state of a rule is in the table of rules. -/
theorem exists_ruleStart? (hlisted : net.RuleStopsListed) {start : StateId}
    (hstart : start ∈ net.ruleStartStates) :
    ∃ rule < net.ruleCount, net.ruleStart? rule = some start := by
  obtain ⟨first, hfirst, hkind⟩ := any_kind?_iff.mp (mem_ruleStartStates.mp hstart)
  have hlinked := hverified.isSome_ruleStop? (mem_states.mpr ⟨start, hfirst⟩) hkind
  obtain ⟨rule, hrule⟩ := List.getElem?_of_mem (hlisted start first hfirst hlinked)
  exact ⟨rule, (List.getElem?_eq_some_iff.mp hrule).1, hrule⟩

/-- With links in pairs, the rules of a verified network are paired with their first and last
states. -/
theorem CrossLinked.rulesPaired (h : net.CrossLinked) : net.RulesPaired := by
  have hstarts (rule : RuleIndex) (hrule : rule < net.ruleCount) :
      ∃ start, net.ruleStart? rule = some start := ⟨_, List.getElem?_eq_getElem hrule⟩
  refine ⟨?_, fun rule hrule => ?_, fun rule hrule other hother hne => ⟨fun hsame => hne ?_,
    fun hsame => hne ?_⟩⟩
  · choose start hstart using fun rule : Fin net.ruleCount => hstarts rule rule.isLt
    let starts : Fin net.ruleCount → net.ruleStartStates := fun rule =>
      ⟨start rule, (exists_ruleStates hreferenced hverified (hstart rule)).1⟩
    have hbijective : Function.Bijective starts := by
      refine ⟨fun rule other hsame => ?_, fun ⟨id, hid⟩ => ?_⟩
      · have hsame : start rule = start other := congrArg Subtype.val hsame
        exact Fin.ext (eq_of_ruleStart? hreferenced hverified (hstart rule) (hsame ▸ hstart other))
      · obtain ⟨rule, hlt, hrule⟩ := exists_ruleStart? hverified h.rules hid
        exact ⟨⟨rule, hlt⟩, Subtype.ext (Option.some.inj ((hstart ⟨rule, hlt⟩).symm.trans hrule))⟩
    exact ⟨Equiv.ofBijective starts hbijective, hstart⟩
  · obtain ⟨start, hstart⟩ := hstarts rule hrule
    obtain ⟨-, first, stop, last, hstates⟩ := exists_ruleStates hreferenced hverified hstart
    exact ⟨start, first, stop, last, hstart, hstates⟩
  · obtain ⟨start, hstart⟩ := hstarts rule hrule
    exact eq_of_ruleStart? hreferenced hverified hstart (hsame.symm.trans hstart)
  · obtain ⟨start, hstart⟩ := hstarts rule hrule
    obtain ⟨-, -, stop, -, -, -, hstop, -⟩ := exists_ruleStates hreferenced hverified hstart
    exact eq_of_ruleStop? hreferenced hstop (hsame.symm.trans hstop)

end

end Network

end TransitionNetwork
