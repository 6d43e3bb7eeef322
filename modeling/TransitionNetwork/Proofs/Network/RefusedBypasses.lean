import TransitionNetwork.Proofs.Network.VerifiedBypasses

/-!
# Which bypasses verification refuses

A defect that a bypass leaves in a network is never repaired by the bypasses after it: a state that
mixes transitions goes on to do so, and a transition that leads to the end of a block goes on to
lead to the end of some block. So verification refuses a network with bypasses exactly if the rules
or the loops of the network without them call for such a defect.
-/

namespace TransitionNetwork

namespace Network

/-- A state with several transitions is not known to consume nothing, or what closes a star loop
leads to the end of a block. -/
inductive Defective (net : Network) : Prop
  | mixing (k : StateId) (s : State) (found : net.state? k = some s)
      (kind : s.kind.isRuleStart = false) (mixed : s.epsilonOnly = false)
      (several : 2 ≤ s.transitions.length)
  | closing (k : StateId) (s : State) (found : net.state? k = some s)
      (kind : s.kind = .starLoopBack) (t : Transition) (ht : t ∈ s.transitions)
      (block : Option StateId) (target : net.kind? t.target = some (.blockEnd block))

/-- Verification refuses defects. -/
theorem Defective.not_verified {net : Network} (h : net.Defective) : ¬ net.Verified := by
  intro hverified
  cases h with
  | mixing k s found kind mixed several =>
    have hrule := hverified.requirements s (mem_states.mpr ⟨k, found⟩) _ List.mem_cons_self
    rw [Bool.or_eq_true, mixed, decide_eq_true_eq] at hrule
    lia
  | closing k s found kind t ht block target =>
    obtain ⟨t', hsingle, hentry⟩ :=
      hverified.exists_of_starLoopBack (mem_states.mpr ⟨k, found⟩) kind
    rw [hsingle, List.mem_singleton] at ht
    rw [← ht, target] at hentry
    cases hentry

/-! ## What a bypass does to defects and to what becomes one -/

/-- A state closes a star loop by a transition. -/
def ClosesBy (net : Network) (id : StateId) (t : Transition) : Prop :=
  ∃ s ∈ net.state? id, s.kind = .starLoopBack ∧ t ∈ s.transitions

section

variable {reached next : Network} {rule : RuleIndex} {start stop : StateId}
  {token : TokenType} {first : State} {body : List Transition}
  (hadded : BypassAdded reached next rule start stop token first body)

include hadded

/-- A state other than the first one of a rule goes on to be there. -/
theorem BypassAdded.exists_redirected {k : StateId} {s : State} (hs : reached.state? k = some s)
    (hkind : s.kind.isRuleStart = false) :
    ∃ s', next.state? k = some s' ∧ s.Redirected stop (reached.nextId + 1) s' :=
  hadded.redirected hs (hadded.ne_start hs hkind)

/-- Defects remain. -/
theorem Defective.of_bypassAdded (h : reached.Defective) : next.Defective := by
  cases h with
  | mixing k s found kind mixed several =>
    obtain ⟨s', hs', hrel⟩ := hadded.exists_redirected found kind
    exact .mixing k s' hs' (hrel.kind ▸ kind) (hrel.epsilonOnly.trans mixed)
      (several.trans_eq (length_redirected hrel).symm)
  | closing k s found kind t ht block target =>
    obtain ⟨s', hs', hrel⟩ := hadded.exists_redirected found (by rw [kind]; rfl)
    obtain ⟨t', ht', hturned⟩ := exists_of_mem_forall₂ hrel.transitions.flip ht
    obtain ⟨block', htarget⟩ : ∃ block', next.kind? t'.target = some (.blockEnd block') := by
      rcases hturned with rfl | ⟨-, rfl⟩
      · obtain ⟨ending, hending, hkind⟩ := kind?_eq_some.mp target
        exact ⟨block, by rw [hadded.kind?_eq hending, hkind]⟩
      · exact ⟨_, by rw [kind?, hadded.closing]; rfl⟩
    exact .closing k s' hs' (hrel.kind.trans kind) t' ht' block' htarget

/-- A rule goes on to begin with a transition that consumes a token until the transition moves into
the block, where it stands next to one that consumes none. -/
theorem BypassAdded.consumesAtStart (hreached : reached.WellReferenced)
    (hnext : reached.addBypass rule = .ok next) {other : RuleIndex}
    (h : reached.ConsumesAtStart other) :
    (other ≠ rule ∧ next.ConsumesAtStart other) ∨ next.Defective := by
  obtain ⟨begin, hbegin, s, hs, t, ht, hconsumes⟩ := h
  have hconsumes' {t' : Transition} (hturned : t.Redirected stop (reached.nextId + 1) t') :
      t'.isEpsilon = false := by
    rcases hturned with rfl | ⟨-, rfl⟩ <;> exact hconsumes
  rcases eq_or_ne begin start with rfl | hne
  · right
    cases hadded.found.symm.trans hs
    obtain ⟨t', ht', hturned⟩ := exists_of_mem_forall₂ hadded.moved.flip ht
    obtain ⟨opening, hopening, -, -, hkind, htransitions⟩ := hadded.opening
    obtain ⟨-, hflag⟩ := hadded.flagged_opening hreached hnext hopening
    -- In the block the transition stands next to the one that leads to the choice.
    have hall : opening.transitions.all Transition.isEpsilon = false := by
      rw [htransitions, List.all_append, List.all_eq_false.mpr ⟨t', ht', by
        rw [hconsumes' hturned]; exact Bool.false_ne_true⟩]
      rfl
    refine .mixing _ opening hopening (by rw [hkind]; rfl) ?_ ?_
    · rw [hflag, hall, Bool.and_false]
    · rw [htransitions, List.length_append, List.length_singleton]
      exact Nat.succ_le_succ (List.length_pos_of_mem ht')
  · left
    obtain ⟨s', hs', hrel⟩ := hadded.redirected hs hne
    obtain ⟨t', ht', hturned⟩ := exists_of_mem_forall₂ hrel.transitions.flip ht
    refine ⟨fun hother => ?_, begin, ?_, s', hs', t', ht', hconsumes' hturned⟩
    · subst hother
      exact hne (Option.some.inj (hbegin.symm.trans hadded.ruleStart))
    · rw [ruleStart?, hadded.ruleStarts_eq]
      exact hbegin

/-- A state goes on to close a star loop by a transition until the transition is turned towards the
end of the block. -/
theorem BypassAdded.closesBy {id : StateId} {t : Transition} (h : reached.ClosesBy id t) :
    next.ClosesBy id t ∨ next.Defective := by
  obtain ⟨s, hs, hkind, ht⟩ := h
  obtain ⟨s', hs', hrel⟩ := hadded.exists_redirected hs (by rw [hkind]; rfl)
  obtain ⟨t', ht', hturned⟩ := exists_of_mem_forall₂ hrel.transitions.flip ht
  rcases hturned with rfl | ⟨-, rfl⟩
  · exact Or.inl ⟨s', hs', hrel.kind.trans hkind, ht'⟩
  · exact Or.inr (.closing id s' hs' (hrel.kind.trans hkind) _ ht' _ (by
      rw [kind?, hadded.closing]; rfl))

/-- What closes a star loop is turned away from the end of a body, unless it is spared. -/
theorem BypassAdded.defective_of_closesBy (hreached : reached.WellReferenced)
    (hnext : reached.addBypass rule = .ok next) {excluded : Option TransitionPlace}
    (hends : (reached.addBlock rule).bodyEnd rule start = .ok (stop, excluded)) {id : StateId}
    {t : Transition} (h : reached.ClosesBy id t) (htarget : t.target = stop)
    (hspared : ∀ i, excluded ≠ some (id, i)) : next.Defective := by
  obtain ⟨s, hs, hkind, ht⟩ := h
  obtain ⟨i, hi, rfl⟩ := List.getElem_of_mem ht
  have hstate := hadded.state?_of_chosen hreached hnext hends hs
    (hadded.ne_start hs (by rw [hkind]; rfl))
  refine .closing id _ hstate hkind { s.transitions[i] with target := reached.nextId + 1 } ?_ _
    (by rw [kind?, hadded.closing]; rfl)
  exact List.mem_mapIdx.mpr ⟨i, hi, if_pos ⟨htarget, hspared i⟩⟩

end

/-- A defect is still one after the bypass of another rule. -/
theorem Defective.of_addBypass {net net' : Network} {rule : RuleIndex} (h : net.Defective)
    (hnet : net.WellReferenced) (hadded : net.addBypass rule = .ok net') : net'.Defective := by
  obtain ⟨start, stop, token, first, body, hadded⟩ := exists_bypassAdded hnet hadded
  exact h.of_bypassAdded hadded

/-! ## Bypasses of all rules -/

section

variable {net bypassed : Network} (hnet : net.WellReferenced)
  (hbypasses : net.addBypasses = .ok bypassed)

include hnet hbypasses

/-- What every bypass keeps or makes a defect, and the bypass of one rule makes one, is one in the
end. -/
theorem defective_of_turn {P : Network → Prop} {rule : RuleIndex} (hrule : rule < net.ruleCount)
    (hfirst : P net.reserveTokens)
    (hstep : ∀ reached next rule, reached.WellReferenced → P reached →
      reached.addBypass rule = .ok next → P next ∨ next.Defective)
    (hturn : ∀ before after, (List.range rule).foldlM addBypass net.reserveTokens = .ok before →
      before.WellReferenced → P before → before.addBypass rule = .ok after → after.Defective) :
    bypassed.Defective := by
  obtain ⟨before, after, hbefore, hafter, hlater⟩ := exists_turn hbypasses hrule
  obtain ⟨hwell, hkept⟩ := foldlM_addBypass
    (P := fun reached => reached.WellReferenced ∧ (P reached ∨ reached.Defective))
    (fun reached next rule hreached hnext => ⟨hreached.1.of_addBypass hnext,
      hreached.2.elim (fun h => hstep reached next rule hreached.1 h hnext)
        fun h => Or.inr (h.of_addBypass hreached.1 hnext)⟩)
    hbefore ⟨hnet.withTokenTypes _, Or.inl hfirst⟩
  have hdefective : after.Defective :=
    hkept.elim (fun h => hturn before after hbefore hwell h hafter)
      fun h => h.of_addBypass hwell hafter
  exact (foldlM_addBypass (P := fun reached => reached.WellReferenced ∧ reached.Defective)
    (fun reached next rule hreached hnext => ⟨hreached.1.of_addBypass hnext,
      hreached.2.of_addBypass hreached.1 hnext⟩)
    hlater ⟨hwell.of_addBypass hafter, hdefective⟩).2

/-- A rule that begins with a transition that consumes a token is a defect once bypasses are added.
-/
theorem defective_of_consumesAtStart {rule : RuleIndex} (h : net.ConsumesAtStart rule) :
    bypassed.Defective := by
  obtain ⟨start, hstart, -⟩ := id h
  have hrule : rule < net.ruleCount := (List.getElem?_eq_some_iff.mp hstart).1
  refine defective_of_turn hnet hbypasses (P := fun reached => reached.ConsumesAtStart rule) hrule h
    (fun reached next turn hreached hconsumes hnext => ?_)
    fun before after _ hbefore hconsumes hafter => ?_
  · obtain ⟨start, stop, token, first, body, hadded⟩ := exists_bypassAdded hreached hnext
    exact (hadded.consumesAtStart hreached hnext hconsumes).imp_left And.right
  · obtain ⟨start, stop, token, first, body, hadded⟩ := exists_bypassAdded hbefore hafter
    exact (hadded.consumesAtStart hbefore hafter hconsumes).resolve_left fun h => h.1 rfl

/-- A precedence loop that is linked to another closing state is a defect once bypasses are added.
-/
theorem defective_of_closesUnlinked (hverified : net.Verified) {id : StateId}
    (h : net.ClosesUnlinked id) : bypassed.Defective := by
  obtain ⟨closing, hclosing, hkind, t, ht, entry, hentry, -, hunlinked, rule, start, hstart,
    reached, excluded, hreached, hchosen⟩ := h
  have hrule : rule < net.ruleCount := (List.getElem?_eq_some_iff.mp hstart).1
  refine defective_of_turn hnet hbypasses (P := fun reached => reached.ClosesBy id t) hrule
    ⟨closing, hclosing, hkind, ht⟩ (fun reached next turn hreached hcloses hnext => ?_)
    fun before after hbefore hwell hcloses hafter => ?_
  · obtain ⟨start, stop, token, first, body, hadded⟩ := exists_bypassAdded hreached hnext
    exact hadded.closesBy hcloses
  · cases hreached.symm.trans hbefore
    have hrebuilt := rebuilt_of_foldlM hnet hverified hbefore
    obtain ⟨start', stop, token, first, body, hadded⟩ := exists_bypassAdded hwell hafter
    obtain rfl : start' = start := by
      have hsame := hadded.ruleStart
      rw [ruleStart?, hrebuilt.ruleStarts] at hsame
      exact Option.some.inj (hsame.symm.trans hstart)
    obtain ⟨found, hfound⟩ := hadded.chosen
    cases hchosen.symm.trans hfound
    refine hadded.defective_of_closesBy hwell hafter hchosen hcloses rfl fun i hspared => ?_
    rcases bodyEnd_eq_ok hwell.numbered (hadded.bodyEnd_eq hwell hchosen) with
      ⟨-, entry', hentry', -, -, rfl⟩ | ⟨-, -, rfl⟩
    · have hsame := hrebuilt.kinds _ entry hentry
      rw [kind?, hentry', Option.map_some, Option.some.injEq] at hsame
      rw [hsame] at hspared
      obtain ⟨linked, hlinked, hplace⟩ := Option.map_eq_some_iff.mp hspared
      cases hplace
      exact hunlinked hlinked
    · cases hspared

end

/-- Bypasses are added to every verified network that was loaded without them, unless a rule with
precedence levels has no loop that decides on them when it is its turn. The network with the
bypasses is verified again exactly if no rule began with a transition that consumes a token, so that
the first state of its block mixes transitions, and no precedence loop was closed by a state to
which it is not linked, so that this state no longer leads to the entry of a loop. Nothing else
fails. -/
theorem addBypasses_of_verified {units : List UInt16} {net : Network}
    (hload : load ⟨true, false⟩ units = .ok net) :
    (∃ rule before, (List.range rule).foldlM addBypass net.reserveTokens = .ok before ∧
      before.LacksLoop rule ∧ net.addBypasses = .error (.precedenceLoopNotFound rule)) ∨
    ∃ bypassed, net.addBypasses = .ok bypassed ∧
      (bypassed.verify = .ok () ↔
        (∀ rule, ¬ net.ConsumesAtStart rule) ∧ ∀ id, ¬ net.ClosesUnlinked id) ∧
      ∀ e, bypassed.verify = .error e → ∃ s ∈ bypassed.states, ∃ broken,
        e = .violation s.number broken ∧ net.BrokenByBypass s broken := by
  have hnet := wellReferenced_of_load hload
  have hverified := verified_of_load hload
  cases hbypasses : net.addBypasses with
  | error e =>
    left
    obtain ⟨rule, before, hbefore, hlacks, rfl⟩ :=
      exists_lacksLoop_of_addBypasses hnet hverified hbypasses
    exact ⟨rule, before, hbefore, hlacks, rfl⟩
  | ok bypassed =>
    right
    have hbroken := fun e =>
      (rebuilt_of_foldlM hnet hverified hbypasses).exists_broken hverified (e := e)
    refine ⟨bypassed, rfl, ⟨fun hverify => ⟨fun rule hconsumes => ?_, fun id hcloses => ?_⟩,
      fun ⟨hstarts, hloops⟩ => ?_⟩, hbroken⟩
    · exact (defective_of_consumesAtStart hnet hbypasses hconsumes).not_verified
        (verify_eq_ok.mp hverify)
    · exact (defective_of_closesUnlinked hnet hbypasses hverified hcloses).not_verified
        (verify_eq_ok.mp hverify)
    · cases hverify : bypassed.verify with
      | ok => rfl
      | error e =>
        obtain ⟨s, -, broken, -, ⟨-, -, -, rule, -, hconsumes⟩ | ⟨-, hloop⟩⟩ := hbroken e hverify
        · exact absurd hconsumes (hstarts rule)
        · exact absurd hloop (hloops s.number)

/-- In the parser with a loop every rule begins with a transition that consumes nothing, and the
loop is closed by the state to which it is linked. -/
theorem addBypasses_of_verified_loopParser :
    ∃ net, load ⟨true, false⟩ loopParserUnits = .ok net ∧
      ∃ bypassed, net.addBypasses = .ok bypassed ∧ bypassed.verify = .ok () ∧
        (∀ rule, ¬ net.ConsumesAtStart rule) ∧ ∀ id, ¬ net.ClosesUnlinked id := by
  have hload : ((load ⟨true, false⟩ loopParserUnits).toOption.map fun net =>
      net.addBypasses.toOption.map verify) = some (some (.ok ())) := by
    decide +kernel
  obtain ⟨net, hnet, hbypasses⟩ := Option.map_eq_some_iff.mp hload
  obtain ⟨bypassed, hbypassed, hverify⟩ := Option.map_eq_some_iff.mp hbypasses
  have hok := eq_ok_of_toOption hnet
  have hadded := eq_ok_of_toOption hbypassed
  refine ⟨net, hok, bypassed, hadded, hverify, ?_⟩
  rcases addBypasses_of_verified hok with ⟨rule, before, -, -, herror⟩ |
    ⟨again, hagain, hverified, -⟩
  · cases hadded.symm.trans herror
  · cases hadded.symm.trans hagain
    exact hverified.mp hverify

/-- A parser whose rule is a single transition, and that transition consumes a token. -/
def consumingParserUnits : List UInt16 :=
  Stream.encode ([3] ++ Stream.identifierValues .newest ++ [1, 5] ++ [2, 2, 0, 7, 0] ++ [0] ++ [0] ++
    [1, 0] ++ [0] ++ [0] ++ [1, 0, 1, 5, 1, 0, 0] ++ [0])

/-- Verification may refuse the network with bypasses: in that parser the block of the rule mixes
transitions. -/
theorem not_verify_addBypasses_of_consumingStart :
    ¬ ∀ (units : List UInt16) (net : Network), load ⟨true, false⟩ units = .ok net →
      net.grammar = .parser →
      (∃ rule, net.addBypasses = .error (.precedenceLoopNotFound rule)) ∨
        ∃ bypassed, net.addBypasses = .ok bypassed ∧ bypassed.verify = .ok () := by
  intro h
  have hload : ((load ⟨true, false⟩ consumingParserUnits).toOption.map fun net =>
      (net.grammar, net.addBypasses.toOption.map verify)) =
        some (.parser, some (.error (.violation 2 .transitionsMixed))) := by
    decide +kernel
  obtain ⟨net, hnet, hfacts⟩ := Option.map_eq_some_iff.mp hload
  obtain ⟨hgrammar, hbypasses⟩ := Prod.mk.inj hfacts
  obtain ⟨refused, hrefused, hviolation⟩ := Option.map_eq_some_iff.mp hbypasses
  have hadded := eq_ok_of_toOption hrefused
  rcases h consumingParserUnits net (eq_ok_of_toOption hnet) hgrammar with
    ⟨rule, herror⟩ | ⟨bypassed, hbypassed, hverify⟩
  · cases hadded.symm.trans herror
  · cases hadded.symm.trans hbypassed
    cases hviolation.symm.trans hverify

end Network

end TransitionNetwork
