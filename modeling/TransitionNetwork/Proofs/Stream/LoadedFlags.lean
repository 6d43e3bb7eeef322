import TransitionNetwork.Proofs.Network.BypassOutcomes
import TransitionNetwork.Proofs.Stream.LoadedLabels
import TransitionNetwork.Proofs.Stream.Rewriting

/-!
# Flags of loaded networks

In every loaded network the flag of a state says whether the state has transitions and none of them
consumes a token. Transitions are appended one by one, and each keeps the flag right. Actions that
move into a table and transitions that are turned elsewhere stay of their sort. A bypass takes all
transitions from the first state of a rule, which then has a single new one, and appends them to the
first state of a block.
-/

namespace TransitionNetwork

/-- The flag stands exactly if there are transitions and all of them consume nothing. -/
theorem State.Flagged.epsilonOnly_iff {s : State} (h : s.Flagged) :
    s.epsilonOnly = true ↔ s.transitions ≠ [] ∧ ∀ t ∈ s.transitions, t.isEpsilon = true := by
  rw [h, Bool.and_eq_true, Bool.not_eq_true', List.isEmpty_eq_false_iff, List.all_eq_true]

/-- Turning a transition elsewhere makes no difference to whether it consumes a token. -/
theorem map_isEpsilon_of_redirected {old new : StateId} {ts ts' : List Transition}
    (h : List.Forall₂ (Transition.Redirected old new) ts ts') :
    ts'.map Transition.isEpsilon = ts.map Transition.isEpsilon := by
  induction h with
  | nil => rfl
  | cons ht _ ih =>
    rw [List.map_cons, List.map_cons, ih]
    rcases ht with rfl | ⟨-, rfl⟩ <;> rfl

/-- Turning transitions leaves their sorts and the flag. -/
theorem State.Redirected.sorts {old new : StateId} {s s' : State} (h : Redirected old new s s') :
    s'.sorts = s.sorts := by
  rw [State.sorts, State.sorts, h.epsilonOnly, map_isEpsilon_of_redirected h.transitions]

namespace Network

namespace Flagged

variable {net net' : Network}

/-- A bypass keeps the flags right. -/
theorem addBypass (h : net.Flagged) (hnet : net.WellReferenced) {rule : RuleIndex}
    (hnext : net.addBypass rule = .ok net') : net'.Flagged := by
  obtain ⟨start, stop, token, first, body, hadded⟩ := exists_bypassAdded hnet hnext
  intro k s' hs'
  rcases hadded.state_cases hs' with ⟨-, s, hs, hturned⟩ | ⟨-, rfl⟩ | ⟨rfl, -⟩ | ⟨-, rfl⟩ | ⟨-, rfl⟩
  case inl => exact (h k s hs).of_sorts hturned.sorts
  case inr.inr.inl => exact (hadded.flagged_opening hnet hnext hs').2
  -- The other states have a single transition that was appended to none.
  all_goals rfl

/-- So do the bypasses of all rules. -/
theorem addBypasses (h : net.Flagged) (hnet : net.WellReferenced)
    (hbypasses : net.addBypasses = .ok net') : net'.Flagged :=
  (foldlM_addBypass (P := fun net => net.WellReferenced ∧ net.Flagged)
    (fun _ _ _ hnet hnext => ⟨hnet.1.of_addBypass hnext, hnet.2.addBypass hnet.1 hnext⟩) hbypasses
    ⟨hnet.withTokenTypes _, h.of_keeps (Keeps.refl _ net)⟩).2

end Flagged

/-- In every loaded network, under all options, each state records exactly whether it has
transitions and none of them consumes a token. -/
theorem epsilonOnly_iff_of_load {options : LoadOptions} {units : List UInt16} {net : Network}
    (h : load options units = .ok net) {k : StateId} {s : State} (hs : net.state? k = some s) :
    s.epsilonOnly = true ↔ s.transitions ≠ [] ∧ ∀ t ∈ s.transitions, t.isEpsilon = true := by
  have hplain {options w linked ids result net}
      (hloaded : Stream.Loaded options w linked ids result net) : net.Flagged :=
    hloaded.marked ▸ Stream.flagged_marked hloaded.wellRead hloaded.linkedOk hloaded.withoutActions
  have hflagged : net.Flagged := load_induct h hplain fun hloaded hbypasses =>
    (hplain hloaded).addBypasses hloaded.wellReferenced hbypasses
  exact (hflagged k s hs).epsilonOnly_iff

end Network

/-- A parser whose rule begins with a transition that consumes a token between two that do not. -/
def mixedParserUnits : List UInt16 :=
  Stream.encode ([3] ++ Stream.identifierValues .newest ++ [1, 2] ++ [3, 2, 0, 7, 0, 1, 0] ++
    [0] ++ [0] ++ [1, 0] ++ [0] ++ [0] ++
    [4, 0, 2, 1, 0, 0, 0, 0, 1, 5, 1, 0, 0, 0, 2, 1, 0, 0, 0, 2, 1, 5, 2, 0, 0] ++ [0])

namespace Network

/-- Without verification these transitions move to the block of the bypass, and the one that is
appended behind them does not raise its flag again. -/
theorem epsilonOnly_iff_of_load_mixedParser :
    ∃ net s, load ⟨false, true⟩ mixedParserUnits = .ok net ∧ net.state? 3 = some s ∧
      s.transitions.map Transition.isEpsilon = [true, false, true, true] ∧
      (s.epsilonOnly = true ↔
        s.transitions ≠ [] ∧ ∀ t ∈ s.transitions, t.isEpsilon = true) := by
  have hload : ((load ⟨false, true⟩ mixedParserUnits).toOption.map fun net =>
      (net.state? 3).map fun s => s.transitions.map Transition.isEpsilon) =
        some (some [true, false, true, true]) := by decide +kernel
  obtain ⟨net, hnet, hopening⟩ := Option.map_eq_some_iff.mp hload
  obtain ⟨s, hs, hsorts⟩ := Option.map_eq_some_iff.mp hopening
  have hok := eq_ok_of_toOption hnet
  exact ⟨net, s, hok, hs, hsorts, epsilonOnly_iff_of_load hok hs⟩

end Network

end TransitionNetwork
