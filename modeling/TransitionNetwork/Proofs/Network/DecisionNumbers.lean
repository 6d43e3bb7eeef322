import Mathlib.Data.List.Induction
import Mathlib.Data.List.Nodup
import TransitionNetwork.Proofs.Network.BypassOutcomes

/-!
# Decision numbers

A state is given a decision number and a place in the list of decisions at once. A second place in
the list overwrites the number, so the number of a state is always the last place that names it.
This holds before any decision is made, each new decision keeps it, and so do bypasses, whose blocks
are decisions that no earlier place names.
-/

namespace TransitionNetwork

/-- A place of a list is the last one that names a state. -/
def IsLastPlace (ids : List StateId) (k : StateId) (d : Nat) : Prop :=
  ids[d]? = some k ∧ ∀ later, d < later → ids[later]? ≠ some k

namespace IsLastPlace

variable {ids : List StateId} {id k : StateId} {d : Nat}

/-- A state with a last place is in the list. -/
theorem mem (h : IsLastPlace ids k d) : k ∈ ids := List.mem_of_getElem? h.1

/-- What is named at the end of a list is named there for the last time. -/
theorem append_self_iff : IsLastPlace (ids ++ [k]) k d ↔ d = ids.length := by
  constructor
  · rintro ⟨hd, hlast⟩
    obtain ⟨hlt, -⟩ := List.getElem?_eq_some_iff.mp hd
    rw [List.length_append, List.length_singleton] at hlt
    by_contra hne
    exact hlast ids.length (by omega) List.getElem?_concat_length
  · rintro rfl
    refine ⟨List.getElem?_concat_length, fun later hlater => ?_⟩
    rw [List.getElem?_eq_none (by rw [List.length_append, List.length_singleton]; omega)]
    exact nofun

/-- The places that name another state are the same without the end of the list. -/
theorem getElem?_append_ne (hne : id ≠ k) (i : Nat) :
    (ids ++ [id])[i]? = some k ↔ ids[i]? = some k := by
  rcases Nat.lt_or_ge i ids.length with hi | hi
  · rw [List.getElem?_append_left hi]
  · rw [List.getElem?_append_right hi, List.getElem?_eq_none hi, List.getElem?_singleton]
    split
    · simp only [Option.some.injEq, hne, reduceCtorEq]
    · rfl

/-- The last place of a state is the same if another one is named behind it. -/
theorem append_ne_iff (hne : id ≠ k) : IsLastPlace (ids ++ [id]) k d ↔ IsLastPlace ids k d := by
  simp only [IsLastPlace, Ne, getElem?_append_ne hne]

end IsLastPlace

/-- A state that is named at some place is named for the last time there or later. -/
theorem exists_isLastPlace {ids : List StateId} {k : StateId} {d : Nat} (h : ids[d]? = some k) :
    ∃ e, IsLastPlace ids k e := by
  induction ids using List.reverseRecOn with
  | nil => cases h
  | append_singleton ids id ih =>
    rcases eq_or_ne id k with rfl | hne
    · exact ⟨ids.length, IsLastPlace.append_self_iff.mpr rfl⟩
    · obtain ⟨e, he⟩ := ih ((IsLastPlace.getElem?_append_ne hne d).mp h)
      exact ⟨e, (IsLastPlace.append_ne_iff hne).mpr he⟩

/-- Every place is the last one of its state exactly if no state is named twice. -/
theorem forall_isLastPlace_iff {ids : List StateId} :
    (∀ d k, ids[d]? = some k → IsLastPlace ids k d) ↔ ids.Nodup := by
  rw [List.nodup_iff_getElem?_ne_getElem?]
  constructor
  · intro h i j hij hj hsame
    obtain ⟨-, hlast⟩ := h i ids[i] (List.getElem?_eq_getElem (hij.trans hj))
    exact hlast j hij (hsame ▸ List.getElem?_eq_getElem (hij.trans hj))
  · refine fun h d k hd => ⟨hd, fun later hlater hk => ?_⟩
    obtain ⟨hlt, -⟩ := List.getElem?_eq_some_iff.mp hk
    exact h d later hlater hlt (hd.trans hk.symm)

namespace Network

/-- Every decision is a state from before the next one. -/
theorem WellReferenced.lt_nextId_of_mem_decisions {net : Network} (hnet : net.WellReferenced)
    {id : StateId} (hid : id ∈ net.decisions) : id < net.nextId := by
  obtain ⟨s, hs⟩ := Option.isSome_iff_exists.mp (isSome_of_any_kind? (hnet.decisions id hid))
  exact lt_size_of_state? hs

/-- The decision number of every state is the last place at which the list of decisions names it. -/
def DecisionsRecorded (net : Network) : Prop :=
  ∀ k s, net.state? k = some s → ∀ d, s.decision = some d ↔ IsLastPlace net.decisions k d

namespace DecisionsRecorded

variable {net net' : Network}

/-- Before any decision is made, no state has a number. -/
theorem of_none (hlist : net.decisions = [])
    (hnone : ∀ k s, net.state? k = some s → s.decision = none) : net.DecisionsRecorded := by
  intro k s hs d
  rw [hnone k s hs, hlist]
  exact iff_of_false nofun fun h => List.not_mem_nil h.mem

/-- Steps that keep decision numbers and the list keep the decisions recorded. -/
theorem of_keeps (h : net.DecisionsRecorded) (hkeeps : Keeps State.decision net net')
    (hlist : net'.decisions = net.decisions) : net'.DecisionsRecorded := by
  intro k s' hs' d
  obtain ⟨s, hs, hsame⟩ := hkeeps.exists_of_state? hs'
  rw [hsame, hlist]
  exact h k s hs d

/-- A state that is given the next number is named at the end of the list from then on. -/
theorem addDecision (h : net.DecisionsRecorded) (id : StateId) :
    (net.addDecision id).DecisionsRecorded := by
  intro k s' hs' d
  change s'.decision = some d ↔ IsLastPlace (net.decisions ++ [id]) k d
  rw [Network.addDecision, state?_modifyState] at hs'
  change (if id = k then (net.state? k).map _ else net.state? k) = some s' at hs'
  split at hs'
  next hid =>
    obtain ⟨s, -, rfl⟩ := Option.map_eq_some_iff.mp hs'
    rw [hid, IsLastPlace.append_self_iff, Option.some.injEq, eq_comm]
  next hid =>
    rw [IsLastPlace.append_ne_iff hid]
    exact h k s' hs' d

/-- Decisions that are made one after the other are all recorded. -/
theorem addDecisions (h : net.DecisionsRecorded) (ids : List StateId) :
    (net.addDecisions ids).DecisionsRecorded := by
  induction ids generalizing net with
  | nil => exact h
  | cons id rest ih => exact ih (h.addDecision id)

/-- A bypass has one decision, which is new, and leaves the numbers of all states from before. -/
theorem addBypass (h : net.DecisionsRecorded) (hnet : net.WellReferenced) {rule : RuleIndex}
    (hnext : net.addBypass rule = .ok net') : net'.DecisionsRecorded := by
  obtain ⟨start, stop, token, first, body, hadded⟩ := exists_bypassAdded hnet hnext
  intro k s' hs' d
  rw [hadded.decisions_eq]
  have hold {k : StateId} {s : State} (hs : net.state? k = some s) :
      s.decision = some d ↔ IsLastPlace (net.decisions ++ [net.nextId]) k d := by
    have hne : net.nextId ≠ k := (lt_size_of_state? hs).ne'
    rw [IsLastPlace.append_ne_iff hne]
    exact h k s hs d
  have hnew {k : StateId} (hk : net.nextId < k) :
      ¬ IsLastPlace (net.decisions ++ [net.nextId]) k d := fun hplace =>
    hk.not_gt (hnet.lt_nextId_of_mem_decisions ((IsLastPlace.append_ne_iff hk.ne).mp hplace).mem)
  rcases hadded.state_cases hs' with ⟨-, s, hs, hrel⟩ | ⟨rfl, rfl⟩ | ⟨rfl, -⟩ | ⟨rfl, rfl⟩ |
    ⟨rfl, rfl⟩
  case inl =>
    have hsame : s'.decision = s.decision := by rw [hrel.rest]
    rw [hsame]
    exact hold hs
  case inr.inl =>
    change first.decision = some d ↔ _
    exact hold hadded.found
  case inr.inr.inl =>
    obtain ⟨hnumber, -⟩ := hadded.flagged_opening hnet hnext hs'
    rw [hnumber, IsLastPlace.append_self_iff, Option.some.injEq, eq_comm]
  case inr.inr.inr.inl => exact iff_of_false nofun (hnew (Nat.lt_succ_self _))
  case inr.inr.inr.inr => exact iff_of_false nofun (hnew (Nat.lt_add_of_pos_right Nat.two_pos))

/-- The bypasses of all rules keep the decisions recorded. -/
theorem addBypasses (h : net.DecisionsRecorded) (hnet : net.WellReferenced)
    (hbypasses : net.addBypasses = .ok net') : net'.DecisionsRecorded :=
  (foldlM_addBypass (P := fun net => net.WellReferenced ∧ net.DecisionsRecorded)
    (fun _ _ _ hnet hnext => ⟨hnet.1.of_addBypass hnext, hnet.2.addBypass hnet.1 hnext⟩) hbypasses
    ⟨hnet.withTokenTypes _, h.of_keeps (Keeps.refl _ net) rfl⟩).2

end DecisionsRecorded

/-- Bypasses name no state twice: each adds the place of a state that was not there before. -/
theorem nodup_decisions_addBypasses {net net' : Network} (hnet : net.WellReferenced)
    (hbypasses : net.addBypasses = .ok net') : net'.decisions.Nodup ↔ net.decisions.Nodup := by
  refine (foldlM_addBypass
    (P := fun reached => reached.WellReferenced ∧ (reached.decisions.Nodup ↔ net.decisions.Nodup))
    (fun reached next rule hreached hnext => ?_) hbypasses ⟨hnet.withTokenTypes _, Iff.rfl⟩).2
  obtain ⟨start, stop, token, first, body, hadded⟩ := exists_bypassAdded hreached.1 hnext
  refine ⟨hreached.1.of_addBypass hnext, ?_⟩
  rw [hadded.decisions_eq, List.nodup_append_comm, ← hreached.2]
  exact List.nodup_cons.trans
    (and_iff_right fun hid => (hreached.1.lt_nextId_of_mem_decisions hid).ne rfl)

/-! ## Looking decisions up -/

namespace DecisionsRecorded

variable {net : Network} (h : net.DecisionsRecorded)

include h

/-- The state of a decision number has that number. -/
theorem decisionState?_eq {s : State} (hs : s ∈ net.states) {d : Nat}
    (hd : s.decision = some d) : net.decisionState? d = some s := by
  obtain ⟨k, hk⟩ := mem_states.mp hs
  rw [decisionState?, ((h k s hk d).mp hd).1]
  exact hk

/-- Every place of the list leads to a state, whose number is the last place that leads there. -/
theorem exists_decisionState? (hnet : net.WellReferenced) {d : Nat}
    (hd : d < net.decisions.length) :
    ∃ s, net.decisionState? d = some s ∧ net.decisions[d]? = some s.number ∧
      ∃ e, s.decision = some e ∧ IsLastPlace net.decisions s.number e := by
  have hplace := List.getElem?_eq_getElem hd
  obtain ⟨s, hs⟩ := Option.isSome_iff_exists.mp
    (isSome_of_any_kind? (hnet.decisions _ (List.getElem_mem hd)))
  obtain ⟨e, he⟩ := exists_isLastPlace hplace
  refine ⟨s, ?_, ?_, e, (h _ s hs e).mpr he, ?_⟩
  · rw [decisionState?, hplace]
    exact hs
  · rw [hplace, hnet.numbered _ s hs]
  · rwa [hnet.numbered _ s hs]

/-- Decision numbers and decision states are inverse exactly if no state is named twice. -/
theorem inverse_iff (hnet : net.WellReferenced) :
    (∀ d < net.decisions.length, ∃ s, net.decisionState? d = some s ∧ s.decision = some d) ↔
      net.decisions.Nodup := by
  rw [← forall_isLastPlace_iff]
  constructor
  · intro hinverse d k hd
    obtain ⟨hlt, -⟩ := List.getElem?_eq_some_iff.mp hd
    obtain ⟨s, hs, hnumber⟩ := hinverse d hlt
    rw [decisionState?, hd] at hs
    exact (h k s hs d).mp hnumber
  · intro hlast d hd
    obtain ⟨s, hs, hplace, -⟩ := h.exists_decisionState? hnet hd
    refine ⟨s, hs, ?_⟩
    rw [decisionState?, hplace] at hs
    exact (h _ s hs d).mpr (hlast d _ hplace)

end DecisionsRecorded

end Network

end TransitionNetwork
