import TransitionNetwork.Network.Structure
import TransitionNetwork.Proofs.Network.Slots

/-!
# Verified networks

A network passes verification exactly if every state keeps every rule for it, and the first state
of each rule is linked to the last state in the table. What the rules for each kind of state say
is read off here, so that nothing else depends on the order in which they are checked.
-/

namespace TransitionNetwork

/-- No rule is broken if and only if all of them hold. -/
theorem Requirements.firstBroken?_eq_none {rules : Requirements} :
    rules.firstBroken? = none ↔ ∀ rule ∈ rules, rule.1 = true := by
  simp [firstBroken?]

namespace Network

/-- Every state keeps the rules for it, and the first states of rules are linked to the last states
in the table. -/
structure Verified (net : Network) : Prop where
  requirements : ∀ s ∈ net.states, ∀ rule ∈ net.requirements s, rule.1 = true
  rules : ∀ rule start, net.ruleStart? rule = some start →
    ∃ s, net.state? start = some s ∧ s.kind.ruleStop? = net.ruleStop? rule

/-- A state is verified if and only if it keeps the rules for it. -/
theorem verifyState_eq_ok {net : Network} {s : State} :
    net.verifyState s = .ok () ↔ ∀ rule ∈ net.requirements s, rule.1 = true := by
  rw [verifyState, ← Requirements.firstBroken?_eq_none]
  split
  next broken hbroken =>
    rw [hbroken]
    exact ⟨fun h => (by cases h), fun h => (by cases h)⟩
  next hnone => exact ⟨fun _ => hnone, fun _ => rfl⟩

/-- A rule is verified if and only if its first state is linked to the last state in the table. -/
theorem verifyRule_eq_ok {net : Network} {rule : RuleIndex} {start : StateId} :
    net.verifyRule rule start = .ok () ↔
      ∃ s, net.state? start = some s ∧ s.kind.ruleStop? = net.ruleStop? rule := by
  rw [verifyRule, requireState]
  cases hs : net.state? start with
  | none => exact ⟨fun h => (by cases h), fun ⟨_, h, _⟩ => (by cases h)⟩
  | some s =>
    change (if s.kind.ruleStop? = net.ruleStop? rule then Except.ok () else _) = .ok () ↔ _
    split
    next hpaired => exact ⟨fun _ => ⟨s, rfl, hpaired⟩, fun _ => rfl⟩
    next hpaired =>
      refine ⟨fun h => (by cases h), fun ⟨s', hs', hlinked⟩ => ?_⟩
      cases hs'
      exact (hpaired hlinked).elim

/-- Verification succeeds exactly if the network is verified. -/
theorem verify_eq_ok {net : Network} : net.verify = .ok () ↔ net.Verified := by
  have hrules : (∀ entry ∈ net.ruleStarts.zipIdx, net.verifyRule entry.2 entry.1 = .ok ()) ↔
      ∀ rule start, net.ruleStart? rule = some start →
        ∃ s, net.state? start = some s ∧ s.kind.ruleStop? = net.ruleStop? rule := by
    simp only [List.mem_zipIdx_iff_getElem?, verifyRule_eq_ok]
    exact ⟨fun h rule start hstart => h (start, rule) hstart,
      fun h entry hentry => h entry.2 entry.1 hentry⟩
  have hstates : net.states.forM net.verifyState = .ok () ↔
      ∀ s ∈ net.states, ∀ rule ∈ net.requirements s, rule.1 = true := by
    simp only [forM_eq_ok, verifyState_eq_ok]
  rw [← forM_eq_ok] at hrules
  rw [verify, bind_eq_ok]
  exact ⟨fun ⟨_, hfirst, hsecond⟩ => ⟨hstates.mp hfirst, hrules.mp hsecond⟩,
    fun h => ⟨(), hstates.mpr h.requirements, hrules.mpr h.rules⟩⟩

/-- A network whose tables agree with the first states of rules is refused for a rule that one of
its states breaks. -/
theorem exists_broken_of_verify {net : Network} {e : LoadError} (h : net.verify = .error e)
    (hrules : ∀ rule start, net.ruleStart? rule = some start →
      ∃ s, net.state? start = some s ∧ s.kind.ruleStop? = net.ruleStop? rule) :
    ∃ s ∈ net.states, ∃ broken, (false, broken) ∈ net.requirements s ∧
      e = .violation s.number broken := by
  rw [verify] at h
  cases hstates : net.states.forM net.verifyState with
  | ok =>
    rw [hstates] at h
    obtain ⟨entry, hentry, hfailed⟩ := exists_of_forM_eq_error h
    rw [verifyRule_eq_ok.mpr (hrules entry.2 entry.1 (List.mem_zipIdx_iff_getElem?.mp hentry))]
      at hfailed
    cases hfailed
  | error found =>
    rw [hstates] at h
    cases h
    obtain ⟨s, hs, hfailed⟩ := exists_of_forM_eq_error hstates
    rw [verifyState] at hfailed
    split at hfailed
    next broken hbroken =>
      cases hfailed
      obtain ⟨rule, hrule, rfl⟩ := Option.map_eq_some_iff.mp hbroken
      have hfalse := List.find?_some hrule
      rw [Bool.not_eq_true'] at hfalse
      exact ⟨s, hs, rule.2, hfalse ▸ List.mem_of_find?_eq_some hrule, rfl⟩
    next => cases hfailed

namespace Verified

variable {net : Network} (h : net.Verified) {s : State} (hs : s ∈ net.states)

include h hs

/-- The rules for the kind of a state are among the rules for the state. -/
theorem kindRequirements : ∀ rule ∈ net.kindRequirements s, rule.1 = true := by
  intro rule hrule
  exact h.requirements s hs rule (List.mem_append_left _ (List.mem_cons_of_mem _ hrule))

/-- The first state of a rule is linked to a last one. -/
theorem isSome_ruleStop? (hkind : s.kind.isRuleStart) : s.kind.ruleStop?.isSome := by
  have hrules := h.kindRequirements hs
  rw [Network.kindRequirements] at hrules
  cases hk : s.kind with
  | ruleStart stop hasPrecedence =>
    rw [hk] at hrules
    exact hrules _ List.mem_cons_self
  | _ =>
    rw [hk] at hkind
    cases hkind

/-- The last state of a block is linked to a first one. -/
theorem isSome_of_blockEnd {start : Option StateId} (hkind : s.kind = .blockEnd start) :
    start.isSome := by
  have hrules := h.kindRequirements hs
  rw [Network.kindRequirements, hkind] at hrules
  exact hrules _ List.mem_cons_self

/-- What opens a loop is linked to a state that closes it. -/
theorem isSome_loopBack? (hopens : s.kind.isStarLoopEntry ∨ s.kind.isPlusBlockStart) :
    s.kind.loopBack?.isSome := by
  have hrules := h.kindRequirements hs
  rw [Network.kindRequirements] at hrules
  rcases hkind : s.kind with _ | _ | _ | ⟨_ | _ | _, _⟩ | _ | _ | _ | _ | _ | _
  case blockStart.plus | starLoopEntry =>
    rw [hkind] at hrules
    exact hrules _ List.mem_cons_self
  all_goals
    rw [hkind] at hopens
    rcases hopens with hopens | hopens <;> cases hopens

/-- What closes a star loop leads to its entry alone. -/
theorem exists_of_starLoopBack (hkind : s.kind = .starLoopBack) :
    ∃ t, s.transitions = [t] ∧ (net.kind? t.target).any StateKind.isStarLoopEntry := by
  have hrules := h.kindRequirements hs
  rw [Network.kindRequirements, hkind] at hrules
  obtain ⟨hcount, hrest⟩ := List.forall_mem_cons.mp hrules
  obtain ⟨htarget, -⟩ := List.forall_mem_cons.mp hrest
  obtain ⟨t, ht⟩ := List.length_eq_one_iff.mp (beq_iff_eq.mp hcount)
  refine ⟨t, ht, ?_⟩
  rw [targetKind?, ht] at htarget
  exact htarget

end Verified

end Network

end TransitionNetwork
