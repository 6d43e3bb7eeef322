import Mathlib.Data.List.Find
import TransitionNetwork.Proofs.Network.Bypassed

/-!
# References in networks with bypasses

A bypass refers to its own block, to the body of its rule and to where that body ends, which is a
rule stop state or the entry of a precedence loop. No transition that calls a rule leads there, so
the transitions that are turned towards the end of the block call none, and a well referenced
network stays one.
-/

namespace TransitionNetwork

/-- Whether a kind of state matters for what is the entry of a precedence loop. -/
def StateKind.shapesLoop (kind : StateKind) : Bool :=
  kind.isStarLoopEntry || kind.isLoopEnd || kind.isRuleStop

/-- The kinds that matter are those of entries of star loops, loop ends and ends of rules. -/
theorem StateKind.shapesLoop_iff {kind : StateKind} :
    kind.shapesLoop ↔ kind.isStarLoopEntry ∨ kind.isLoopEnd ∨ kind.isRuleStop := by
  rw [shapesLoop, Bool.or_eq_true, Bool.or_eq_true, or_assoc]

/-- The first state of a rule does not matter for precedence loops. -/
theorem StateKind.shapesLoop_eq_false {kind : StateKind} (h : kind.isRuleStart) :
    kind.shapesLoop = false := by
  cases kind <;> first | rfl | cases h

namespace Network

/-! ## Precedence loops -/

/-- A state is the entry of a precedence loop if its last transition leads to a loop end that goes
straight to a rule stop state. -/
theorem isPrecedenceLoopEntry_iff {net : Network} {s : State} :
    net.isPrecedenceLoopEntry s ↔ s.kind.isStarLoopEntry ∧ ∃ t ∈ s.transitions.getLast?,
      ∃ loopEnd, net.state? t.target = some loopEnd ∧ loopEnd.kind.isLoopEnd ∧
        loopEnd.epsilonOnly ∧ ∃ u ∈ loopEnd.transitions.head?,
          (net.kind? u.target).any StateKind.isRuleStop := by
  simp only [isPrecedenceLoopEntry, Bool.and_eq_true, Option.any_eq_true, Option.bind_eq_some_iff,
    Option.mem_def, and_assoc]
  constructor
  · rintro ⟨hkind, loopEnd, ⟨t, ht, hloopEnd⟩, hisEnd, hepsilon, kind, ⟨u, hu, hstop⟩, hisStop⟩
    exact ⟨hkind, t, ht, loopEnd, hloopEnd, hisEnd, hepsilon, u, hu, kind, hstop, hisStop⟩
  · rintro ⟨hkind, t, ht, loopEnd, hloopEnd, hisEnd, hepsilon, u, hu, kind, hstop, hisStop⟩
    exact ⟨hkind, loopEnd, ⟨t, ht, hloopEnd⟩, hisEnd, hepsilon, kind, ⟨u, hu, hstop⟩, hisStop⟩

/-- The entry of a precedence loop is of a kind that matters. -/
theorem shapesLoop_of_isPrecedenceLoopEntry {net : Network} {s : State}
    (h : net.isPrecedenceLoopEntry s) : s.kind.shapesLoop :=
  StateKind.shapesLoop_iff.mpr (Or.inl (isPrecedenceLoopEntry_iff.mp h).1)

/-- The states of loops at the ends of rules stem from another network, where their transitions may
have led to `old` instead of `new`, and `new` is no such state. -/
structure LoopsStem (net net' : Network) (old new : StateId) : Prop where
  states : ∀ k s', net'.state? k = some s' → s'.kind.shapesLoop →
    ∃ s, net.state? k = some s ∧ s.Redirected old new s'
  new : ∀ kind, net'.kind? new = some kind → kind.shapesLoop = false

namespace LoopsStem

variable {net net' : Network} {old new : StateId}

/-- A transition to a state of such a loop was not turned. -/
theorem eq_of_redirected (h : LoopsStem net net' old new) {t t' : Transition}
    (ht : t.Redirected old new t') {kind : StateKind} (hkind : net'.kind? t'.target = some kind)
    (hshapes : kind.shapesLoop) : t' = t := by
  rcases ht with rfl | ⟨-, rfl⟩
  · rfl
  · rw [h.new kind hkind] at hshapes
    cases hshapes

/-- A state whose turned form is the entry of a precedence loop was one before. -/
theorem isPrecedenceLoopEntry (h : LoopsStem net net' old new) {s s' : State}
    (hs : s.Redirected old new s') (hentry : net'.isPrecedenceLoopEntry s') :
    net.isPrecedenceLoopEntry s := by
  obtain ⟨hkind, t', ht', loopEnd', hloopEnd', hisEnd, hepsilon, u', hu', hstop⟩ :=
    isPrecedenceLoopEntry_iff.mp hentry
  obtain ⟨stop', hstop', hisStop⟩ := any_kind?_iff.mp hstop
  have hshapesEnd := StateKind.shapesLoop_iff.mpr (Or.inr (Or.inl hisEnd))
  have hshapesStop := StateKind.shapesLoop_iff.mpr (Or.inr (Or.inr hisStop))
  obtain ⟨t, ht, hredirected⟩ := exists_head?_of_forall₂
    (List.forall₂_reverse_iff.mpr hs.transitions) (List.head?_reverse ▸ ht')
  obtain rfl := h.eq_of_redirected hredirected (kind?_eq_some.mpr ⟨loopEnd', hloopEnd', rfl⟩)
    hshapesEnd
  obtain ⟨loopEnd, hloopEnd, hends⟩ := h.states _ loopEnd' hloopEnd' hshapesEnd
  obtain ⟨u, hu, hredirected⟩ := exists_head?_of_forall₂ hends.transitions hu'
  obtain rfl := h.eq_of_redirected hredirected (kind?_eq_some.mpr ⟨stop', hstop', rfl⟩)
    hshapesStop
  obtain ⟨stop, hstop, hstops⟩ := h.states _ stop' hstop' hshapesStop
  refine isPrecedenceLoopEntry_iff.mpr ⟨hs.kind ▸ hkind, t', List.head?_reverse ▸ ht, loopEnd,
    hloopEnd, hends.kind ▸ hisEnd, hends.epsilonOnly ▸ hepsilon, u', hu, ?_⟩
  exact any_kind?_iff.mpr ⟨stop, hstop, hstops.kind ▸ hisStop⟩

/-- The entry of a precedence loop stems from one. -/
theorem exists_entry (h : LoopsStem net net' old new) {k : StateId} {s' : State}
    (hs' : net'.state? k = some s') (hentry : net'.isPrecedenceLoopEntry s') :
    ∃ s, net.state? k = some s ∧ s.Redirected old new s' ∧ net.isPrecedenceLoopEntry s := by
  obtain ⟨s, hs, hredirected⟩ := h.states k s' hs' (shapesLoop_of_isPrecedenceLoopEntry hentry)
  exact ⟨s, hs, hredirected, h.isPrecedenceLoopEntry hredirected hentry⟩

end LoopsStem

/-! ## Where bodies of rules end -/

/-- The body of a rule ends in the entry of a precedence loop of the rule if the rule has precedence
levels, and in its last state otherwise. -/
def EndsBody (net : Network) (rule : RuleIndex) (start stop : StateId) : Prop :=
  if (net.kind? start).any StateKind.hasPrecedence then
    ∃ s, net.state? stop = some s ∧ s.rule = some rule ∧ net.isPrecedenceLoopEntry s
  else net.ruleStop? rule = some stop

/-- The states of an added block stand behind all others. -/
theorem states_addBlock (net : Network) (rule : RuleIndex) :
    (net.addBlock rule).states = net.states ++ [net.blockOpening rule, net.blockClosing rule] := by
  have hslots : (net.addBlock rule).slots.toList =
      net.slots.toList ++ [some (net.blockOpening rule), some (net.blockClosing rule)] := by
    refine List.ext_getElem? fun k => ?_
    rw [Array.getElem?_toList, getElem?_slots, size_addBlock, state?_addBlock]
    rcases Nat.lt_or_ge k net.slots.size with hk | hk
    · rw [List.getElem?_append_left (by simpa using hk), Array.getElem?_toList, getElem?_slots,
        if_pos hk, if_pos (by lia), if_neg (by rw [nextId]; lia), if_neg (by rw [nextId]; lia)]
    · rw [List.getElem?_append_right (by simpa using hk), Array.length_toList]
      obtain rfl | rfl | hbehind : k = net.slots.size ∨ k = net.slots.size + 1 ∨
          net.slots.size + 2 ≤ k := by lia
      · simp [nextId]
      · simp [nextId]
      · rw [if_neg (by lia), List.getElem?_eq_none (by simp; lia)]
  rw [states, hslots, List.filterMap_append]
  rfl

section

variable {net : Network} (hnet : net.WellReferenced) (rule : RuleIndex)

include hnet

/-- What a transition leads to is not changed by an added block. -/
theorem state?_addBlock_of_mem {s : State} (hs : s ∈ net.states) {t : Transition}
    (ht : t ∈ s.transitions) : (net.addBlock rule).state? t.target = net.state? t.target := by
  obtain ⟨target, htarget⟩ := Option.isSome_iff_exists.mp (hnet.transitions s hs t ht).target
  have hlt := lt_size_of_state? htarget
  rw [state?_addBlock, if_neg (by rw [nextId]; lia), if_neg (by rw [nextId]; lia)]

/-- A block that is added makes no state an entry of a precedence loop, nor an entry none. -/
theorem isPrecedenceLoopEntry_addBlock {s : State} (hs : s ∈ net.states) :
    (net.addBlock rule).isPrecedenceLoopEntry s = net.isPrecedenceLoopEntry s := by
  rw [isPrecedenceLoopEntry, isPrecedenceLoopEntry]
  congr 1
  cases hlast : s.transitions.getLast? with
  | none => rfl
  | some t =>
    rw [Option.bind_some, Option.bind_some,
      state?_addBlock_of_mem hnet rule hs (List.mem_of_getLast? hlast)]
    cases hend : net.state? t.target with
    | none => rfl
    | some loopEnd =>
      rw [Option.any_some, Option.any_some]
      congr 1
      cases hhead : loopEnd.transitions.head? with
      | none => rfl
      | some u =>
        rw [Option.bind_some, Option.bind_some, kind?, kind?, state?_addBlock_of_mem hnet rule
          (mem_states.mpr ⟨t.target, hend⟩) (List.mem_of_head? hhead)]

/-- The added block is no place where the body of a rule ends. -/
theorem bodyEnd_addBlock {start : StateId} (hlive : (net.state? start).isSome) :
    (net.addBlock rule).bodyEnd rule start = net.bodyEnd rule start := by
  obtain ⟨first, hfirst⟩ := Option.isSome_iff_exists.mp hlive
  have hlt := lt_size_of_state? hfirst
  have hkind : (net.addBlock rule).kind? start = net.kind? start := by
    rw [kind?, state?_addBlock, if_neg (by rw [nextId]; lia), if_neg (by rw [nextId]; lia)]
    rfl
  have hfind : ((net.addBlock rule).states.find? fun s => s.rule = some rule ∧
      (net.addBlock rule).isPrecedenceLoopEntry s) =
        net.states.find? fun s => s.rule = some rule ∧ net.isPrecedenceLoopEntry s := by
    rw [states_addBlock, List.find?_append]
    have hnew : [net.blockOpening rule, net.blockClosing rule].find? (fun s => s.rule = some rule ∧
        (net.addBlock rule).isPrecedenceLoopEntry s) = none := by
      rw [List.find?_eq_none]
      rintro s hs hfound
      rw [decide_eq_true_eq] at hfound
      have hentry := (isPrecedenceLoopEntry_iff.mp hfound.2).1
      rcases List.mem_pair.mp hs with rfl | rfl <;> cases hentry
    rw [hnew, Option.or_none]
    refine List.find?_congr fun s hs => ?_
    rw [isPrecedenceLoopEntry_addBlock hnet rule hs]
  have hstop : (net.addBlock rule).ruleStop? rule = net.ruleStop? rule := rfl
  rw [bodyEnd, bodyEnd, hkind, hfind, hstop]

end

/-- Where the body of a rule is found to end, and which transition is no end of it. -/
theorem bodyEnd_eq_ok {net : Network} (hnumbered : net.Numbered) {rule : RuleIndex}
    {start stop : StateId} {excluded : Option TransitionPlace}
    (h : net.bodyEnd rule start = .ok (stop, excluded)) :
    ((net.kind? start).any StateKind.hasPrecedence ∧ ∃ entry, net.state? stop = some entry ∧
      entry.rule = some rule ∧ net.isPrecedenceLoopEntry entry ∧
        excluded = entry.kind.loopBack?.map (·, 0)) ∨
    ((net.kind? start).any StateKind.hasPrecedence = false ∧ net.ruleStop? rule = some stop ∧
      excluded = none) := by
  rw [bodyEnd] at h
  split at h
  next hprecedence =>
    split at h
    next entry hentry =>
      cases h
      have hfound := List.find?_some hentry
      rw [decide_eq_true_eq] at hfound
      obtain ⟨k, hk⟩ := mem_states.mp (List.mem_of_find?_eq_some hentry)
      exact Or.inl ⟨hprecedence, entry, hnumbered k entry hk ▸ hk, hfound.1, hfound.2, rfl⟩
    · cases h
  next hplain =>
    split at h
    next hstop =>
      cases h
      exact Or.inr ⟨Bool.eq_false_iff.mpr hplain, hstop, rfl⟩
    · cases h

/-- The chosen end of a body is one. -/
theorem endsBody_of_bodyEnd {net : Network} {rule : RuleIndex} {start stop : StateId}
    {excluded : Option TransitionPlace} (hnumbered : net.Numbered)
    (h : net.bodyEnd rule start = .ok (stop, excluded)) : net.EndsBody rule start stop := by
  rw [EndsBody]
  rcases bodyEnd_eq_ok hnumbered h with ⟨hprecedence, entry, hentry, hrule, hloop, -⟩ |
    ⟨hplain, hstop, -⟩
  · rw [if_pos hprecedence]
    exact ⟨entry, hentry, hrule, hloop⟩
  · rw [if_neg (Bool.eq_false_iff.mp hplain)]
    exact hstop

/-! ## What becomes of the states -/

namespace Bypassed

variable {net net' : Network} {rule : RuleIndex} {start stop : StateId} {token : TokenType}
  {first : State} {body : List Transition}
  (h : Bypassed net net' rule start stop token first body)

include h

/-- The states of a network with a bypass: those from before, the first one of the rule and the new
ones. -/
theorem state_cases {k : StateId} {s' : State} (hs' : net'.state? k = some s') :
    (k ≠ start ∧ ∃ s, net.state? k = some s ∧ s.Redirected stop (net.nextId + 1) s') ∨
    (k = start ∧ s' = { first with transitions := [.epsilon net.nextId], epsilonOnly := true }) ∨
    (k = net.nextId ∧ s'.number = k ∧ s'.rule = some rule ∧
      s'.kind = .blockStart .basic (some (net.nextId + 1)) ∧
      s'.transitions = body ++ [.epsilon (net.nextId + 2)]) ∨
    (k = net.nextId + 1 ∧ s' = { net.blockClosing rule with
      transitions := [.epsilon stop], epsilonOnly := true }) ∨
    (k = net.nextId + 2 ∧ s' = bypassChoice (net.nextId + 2) (net.nextId + 1) rule token) := by
  have hlt := lt_size_of_state? hs'
  rw [h.size] at hlt
  rcases Nat.lt_or_ge k net.nextId with hk | hk
  · rcases eq_or_ne k start with rfl | hne
    · exact Or.inr (Or.inl ⟨rfl, Option.some.inj (hs'.symm.trans h.leading)⟩)
    · have hrel := h.others k hk hne
      rw [hs'] at hrel
      exact Or.inl ⟨hne, exists_of_rel_of_some hrel⟩
  · obtain rfl | rfl | rfl : k = net.nextId ∨ k = net.nextId + 1 ∨ k = net.nextId + 2 := by lia
    · obtain ⟨s, hs, hrest⟩ := h.opening
      cases hs.symm.trans hs'
      exact Or.inr (Or.inr (Or.inl ⟨rfl, hrest⟩))
    · exact Or.inr (Or.inr (Or.inr (Or.inl ⟨rfl, Option.some.inj (hs'.symm.trans h.closing)⟩)))
    · exact Or.inr (Or.inr (Or.inr (Or.inr ⟨rfl, Option.some.inj (hs'.symm.trans h.choice)⟩)))

/-- A bypass leaves every state with its type and its rule. -/
theorem retains : Retains net net' := by
  intro k s hs
  rcases eq_or_ne k start with rfl | hne
  · cases h.found.symm.trans hs
    exact ⟨_, h.leading, rfl, rfl⟩
  · obtain ⟨s', hs', hrel⟩ := h.redirected hs hne
    exact ⟨s', hs', congrArg StateKind.type hrel.kind, hrel.rule⟩

/-- What is the entry of a precedence loop was one before the bypass was added. -/
theorem loopsStem (hfirst : first.kind.isRuleStart) : LoopsStem net net' stop (net.nextId + 1) where
  states k s' hs' hshapes := by
    rcases h.state_cases hs' with ⟨-, hs⟩ | ⟨-, rfl⟩ | ⟨-, -, -, hkind, -⟩ | ⟨-, rfl⟩ | ⟨-, rfl⟩
    · exact hs
    · rw [StateKind.shapesLoop_eq_false hfirst] at hshapes
      cases hshapes
    · rw [hkind] at hshapes
      cases hshapes
    · cases hshapes
    · cases hshapes
  new kind hkind := by
    rw [kind?, h.closing] at hkind
    cases hkind
    rfl

/-- A transition that was turned towards the end of the block goes on to refer to states. -/
theorem refers_redirected {t t' : Transition} (ht : t.Refers net)
    (hredirected : t.Redirected stop (net.nextId + 1) t')
    (hstop : (net.kind? stop).any StateKind.isRuleStart = false) : t'.Refers net' := by
  rcases hredirected with rfl | ⟨htarget, rfl⟩
  · exact ht.mono h.retains
  · refine ⟨by rw [h.closing]; rfl, fun follow hfollow => ?_⟩
    have hcall := (ht.call follow hfollow).1
    rw [htarget, hstop] at hcall
    cases hcall

/-- Every state of a network with a bypass has the number of its slot and refers to states. -/
theorem state_refers (hnet : net.WellReferenced) (hlive : (net.state? stop).isSome)
    (hstop : (net.kind? stop).any StateKind.isRuleStart = false) {k : StateId} {s' : State}
    (hs' : net'.state? k = some s') :
    s'.number = k ∧ s'.kind.EndsBlock net' ∧ s'.kind.LeadsBack net' ∧
      ∀ t' ∈ s'.transitions, t'.Refers net' := by
  have hretains := h.retains
  have hfound : first ∈ net.states := mem_states.mpr ⟨start, h.found⟩
  have hopen : (net'.state? net.nextId).isSome := by
    obtain ⟨opening, hopening, -⟩ := h.opening
    rw [hopening]
    rfl
  have hclose : (net'.kind? (net.nextId + 1)).any StateRole.blockEnd.admits := by
    rw [kind?, h.closing]
    rfl
  have hchoose : (net'.state? (net.nextId + 2)).isSome := by
    rw [h.choice]
    rfl
  have hredirected {ts ts' : List Transition} (hts : ∀ t ∈ ts, t.Refers net)
      (hrelated : List.Forall₂ (Transition.Redirected stop (net.nextId + 1)) ts ts') :
      ∀ t' ∈ ts', t'.Refers net' := by
    intro t' ht'
    obtain ⟨t, ht, hrel⟩ := exists_of_mem_forall₂ hrelated ht'
    exact h.refers_redirected (hts t ht) hrel hstop
  rcases h.state_cases hs' with ⟨-, s, hs, hrel⟩ | ⟨rfl, rfl⟩ |
    ⟨rfl, hnumber, -, hkind, htransitions⟩ | ⟨rfl, rfl⟩ | ⟨rfl, rfl⟩
  -- A state from before refers to what it referred to, or to the end of the block.
  case inl =>
    have hmem : s ∈ net.states := mem_states.mpr ⟨k, hs⟩
    rw [hrel.number, hrel.kind]
    exact ⟨hnet.numbered k s hs, (hnet.blocks s hmem).mono hretains,
      (hnet.loops s hmem).mono hretains, hredirected (hnet.transitions s hmem) hrel.transitions⟩
  -- The first state of the rule leads into the block only.
  case inr.inl =>
    refine ⟨hnet.numbered k first h.found, (hnet.blocks first hfound).mono hretains,
      (hnet.loops first hfound).mono hretains, fun t' ht' => ?_⟩
    rw [List.mem_singleton.mp ht']
    exact Transition.refers_of_follow?_eq_none hopen rfl
  -- The block begins with the body of the rule and leads to the choice as well.
  case inr.inr.inl =>
    rw [hkind]
    refine ⟨hnumber, ⟨_, rfl, hclose⟩, trivial, fun t' ht' => ?_⟩
    rw [htransitions] at ht'
    rcases List.mem_append.mp ht' with ht' | ht'
    · exact hredirected (hnet.transitions first hfound) h.moved t' ht'
    · rw [List.mem_singleton.mp ht']
      exact Transition.refers_of_follow?_eq_none hchoose rfl
  case inr.inr.inr.inl =>
    refine ⟨rfl, trivial, trivial, fun t' ht' => ?_⟩
    rw [List.mem_singleton.mp ht']
    exact Transition.refers_of_follow?_eq_none (hretains.isSome hlive) rfl
  case inr.inr.inr.inr =>
    refine ⟨rfl, trivial, trivial, fun t' ht' => ?_⟩
    rw [List.mem_singleton.mp ht']
    exact Transition.refers_of_follow?_eq_none (isSome_of_any_kind? hclose) rfl

/-- A well referenced network stays one when a bypass is added. -/
theorem wellReferenced (hnet : net.WellReferenced) (hlive : (net.state? stop).isSome)
    (hstop : (net.kind? stop).any StateKind.isRuleStart = false) : net'.WellReferenced := by
  have hretains := h.retains
  have hstates : ∀ s' ∈ net'.states, s'.kind.EndsBlock net' ∧ s'.kind.LeadsBack net' ∧
      ∀ t' ∈ s'.transitions, t'.Refers net' := by
    intro s' hs'
    obtain ⟨k, hk⟩ := mem_states.mp hs'
    exact (h.state_refers hnet hlive hstop hk).2
  exact {
    numbered := fun k s' hs' => (h.state_refers hnet hlive hstop hs').1
    blocks := fun s' hs' => (hstates s' hs').1
    loops := fun s' hs' => (hstates s' hs').2.1
    transitions := fun s' hs' => (hstates s' hs').2.2
    ruleStarts := fun id hid => hretains.admits .ruleStart (hnet.ruleStarts id (h.ruleStarts_eq ▸ hid))
    ruleStops := fun rule stop hrule => by
      rw [ruleStop?, h.ruleStops_eq] at hrule
      obtain ⟨s, hs, hstop, hsrule⟩ := hnet.ruleStops rule stop hrule
      exact hretains.ruleStop hs hstop hsrule
    modeStarts := fun id hid => hretains.isSome (hnet.modeStarts id (h.modeStarts_eq ▸ hid))
    decisions := fun id hid => by
      rw [h.decisions_eq] at hid
      rcases List.mem_append.mp hid with hid | hid
      · exact hretains.admits .decision (hnet.decisions id hid)
      · obtain ⟨opening, hopening, -, -, hkind, -⟩ := h.opening
        rw [List.mem_singleton.mp hid, kind?, hopening, Option.map_some, hkind]
        rfl }

end Bypassed

/-! ## Bypasses of all rules -/

/-- Where a body ends there is a state of a loop or of the end of a rule. -/
theorem EndsBody.exists_state? {net : Network} (hnet : net.WellReferenced) {rule : RuleIndex}
    {start stop : StateId} (h : net.EndsBody rule start stop) :
    ∃ s, net.state? stop = some s ∧ s.kind.shapesLoop := by
  rw [EndsBody] at h
  split at h
  · obtain ⟨s, hs, -, hentry⟩ := h
    exact ⟨s, hs, shapesLoop_of_isPrecedenceLoopEntry hentry⟩
  · obtain ⟨s, hs, hstop, -⟩ := hnet.ruleStops rule stop h
    exact ⟨s, hs, StateKind.shapesLoop_iff.mpr (Or.inr (Or.inr hstop))⟩

/-- What is known of a rule that was given its second way through in a well referenced network. -/
structure BypassAdded (net net' : Network) (rule : RuleIndex) (start stop : StateId)
    (token : TokenType) (first : State) (body : List Transition) : Prop
    extends Bypassed net net' rule start stop token first body where
  ruleStart : net.ruleStart? rule = some start
  ruleTokenType : net.ruleTokenType? rule = some token
  chosen : ∃ excluded, (net.addBlock rule).bodyEnd rule start = .ok (stop, excluded)
  endsBody : net.EndsBody rule start stop
  isRuleStart : first.kind.isRuleStart

/-- The bypass of a rule of a well referenced network is added as described. -/
theorem exists_bypassAdded {net net' : Network} (hnet : net.WellReferenced) {rule : RuleIndex}
    (h : net.addBypass rule = .ok net') :
    ∃ start stop token first body, BypassAdded net net' rule start stop token first body := by
  have hkind : ∀ start, net.ruleStart? rule = some start →
      (net.kind? start).any StateKind.isRuleStart := fun start hstart =>
    hnet.ruleStarts start (List.mem_of_getElem? hstart)
  obtain ⟨start, token, stop, excluded, first, body, hstart, htoken, hstop, hbypassed⟩ :=
    bypassed_of_addBypass h fun start hstart => isSome_of_any_kind? (hkind start hstart)
  obtain ⟨found, hfound, hfirst⟩ := any_kind?_iff.mp (hkind start hstart)
  cases hbypassed.found.symm.trans hfound
  have hends := endsBody_of_bodyEnd hnet.numbered
    ((bodyEnd_addBlock hnet rule (by rw [hfound]; rfl)).symm.trans hstop)
  exact ⟨start, stop, token, first, body, hbypassed, hstart, htoken, ⟨excluded, hstop⟩, hends, hfirst⟩

/-- The bypass of one rule keeps a network well referenced. -/
theorem WellReferenced.of_addBypass {net net' : Network} (hnet : net.WellReferenced)
    {rule : RuleIndex} (h : net.addBypass rule = .ok net') : net'.WellReferenced := by
  obtain ⟨start, stop, token, first, body, hadded⟩ := exists_bypassAdded hnet h
  obtain ⟨s, hs, hshapes⟩ := hadded.endsBody.exists_state? hnet
  refine hadded.wellReferenced hnet (by rw [hs]; rfl) ?_
  rw [kind?, hs, Option.map_some, Option.any_some]
  cases hkind : s.kind.isRuleStart with
  | false => rfl
  | true =>
    rw [StateKind.shapesLoop_eq_false hkind] at hshapes
    cases hshapes

/-- A property of networks that every bypass of a rule keeps is kept by the bypasses of several. -/
theorem foldlM_addBypass {P : Network → Prop} {rules : List RuleIndex}
    (hstep : ∀ net net' rule, P net → net.addBypass rule = .ok net' → P net')
    {net net' : Network} (h : rules.foldlM addBypass net = .ok net') (hnet : P net) : P net' := by
  induction rules generalizing net with
  | nil =>
    rw [List.foldlM_nil] at h
    cases h
    exact hnet
  | cons rule rest ih =>
    rw [List.foldlM_cons] at h
    obtain ⟨next, hnext, hrest⟩ := bind_eq_ok.mp h
    exact ih hrest (hstep net next rule hnet hnext)

/-- Token types of rules refer to no states. -/
theorem WellReferenced.withTokenTypes {net : Network} (hnet : net.WellReferenced)
    (tokens : List TokenType) : WellReferenced { net with ruleTokenTypes := tokens } :=
  hnet.of_keeps (Keeps.refl _ net) rfl rfl rfl hnet.decisions

/-- Bypasses of all rules keep a network well referenced. -/
theorem WellReferenced.of_addBypasses {net net' : Network} (hnet : net.WellReferenced)
    (h : net.addBypasses = .ok net') : net'.WellReferenced :=
  foldlM_addBypass (fun _ _ _ hnet h => hnet.of_addBypass h) h (hnet.withTokenTypes _)

/-- Bypasses keep the type of the grammar. -/
theorem grammar_addBypasses {net net' : Network} (hnet : net.WellReferenced)
    (h : net.addBypasses = .ok net') : net'.grammar = net.grammar := by
  refine (foldlM_addBypass
    (P := fun reached => reached.WellReferenced ∧ reached.grammar = net.grammar)
    (fun reached next rule hreached hnext => ?_) h ⟨hnet.withTokenTypes _, rfl⟩).2
  obtain ⟨start, stop, token, first, body, hadded⟩ := exists_bypassAdded hreached.1 hnext
  exact ⟨hreached.1.of_addBypass hnext, hadded.grammar_eq.trans hreached.2⟩

end Network

end TransitionNetwork
