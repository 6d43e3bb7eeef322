import TransitionNetwork.Proofs.Network.DerivedParts

/-!
# The flags of states that consume nothing

A state records whether it has transitions and none of them consumes a token. The record is kept
while transitions are appended, and it holds on as long as a step leaves the record and tells no
transition that consumes a token from one that does not.
-/

namespace TransitionNetwork

/-- The flag of a state says of its transitions what it stands for. -/
def State.Flagged (s : State) : Prop :=
  s.epsilonOnly = (!s.transitions.isEmpty && s.transitions.all Transition.isEpsilon)

/-- The flag of a state without transitions is right if it is not set. -/
theorem State.flagged_of_nil {s : State} (hnone : s.transitions = [])
    (hflag : s.epsilonOnly = false) : s.Flagged := by
  rw [Flagged, hnone, hflag]
  rfl

/-- The flag stays right when a transition is added. -/
theorem State.Flagged.addTransition {s : State} (h : s.Flagged) (t : Transition) :
    (s.addTransition t).Flagged := by
  rw [Flagged] at h ⊢
  rw [State.addTransition, h]
  cases s.transitions with
  | nil => exact (Bool.and_true _).symm
  | cons first rest => simp [Bool.and_assoc]

/-- The flag stays right when transitions are added one after the other. -/
theorem State.Flagged.foldl {s : State} (h : s.Flagged) (ts : List Transition) :
    (ts.foldl State.addTransition s).Flagged := by
  induction ts generalizing s with
  | nil => exact h
  | cons t rest ih => exact ih (h.addTransition t)

/-- What decides whether the flag of a state is right. -/
def State.sorts (s : State) : Bool × List Bool :=
  (s.epsilonOnly, s.transitions.map Transition.isEpsilon)

/-- Whether the flag is right depends on the sorts of the transitions only. -/
theorem State.Flagged.of_sorts {s s' : State} (h : s.Flagged) (hsorts : s'.sorts = s.sorts) :
    s'.Flagged := by
  have hall : ∀ s : State, (!s.transitions.isEmpty && s.transitions.all Transition.isEpsilon) =
      (!s.sorts.2.isEmpty && s.sorts.2.all id) := by
    intro s
    rw [State.sorts, List.isEmpty_map, List.all_map]
    rfl
  have hflag := congrArg Prod.fst hsorts
  rw [Flagged, hall] at h ⊢
  rw [hsorts]
  exact hflag.trans h

/-- What a state tells about actions does not decide whether its flag is right. -/
theorem State.sorts_withoutActions (s : State) : s.withoutActions.sorts = s.sorts := by
  rw [sorts, sorts, withoutActions, List.map_map]
  congr 2
  funext t
  exact t.isEpsilon_withoutAction

namespace Network

/-- The flag of every state is right. -/
def Flagged (net : Network) : Prop := ∀ k, ∀ s ∈ net.state? k, s.Flagged

namespace Flagged

variable {net net' : Network}

/-- Steps that keep the flags and the sorts of transitions keep the flags right. -/
theorem of_keeps (h : net.Flagged) (hkeeps : Keeps State.sorts net net') : net'.Flagged := by
  intro k s' hs'
  obtain ⟨s, hs, hsame⟩ := hkeeps.exists_of_state? hs'
  exact (h k s hs).of_sorts hsame

/-- Adding transitions keeps all flags right. -/
theorem addTransitions (h : net.Flagged) (edges : List (StateId × Transition)) :
    (net.addTransitions edges).Flagged := by
  intro k s' hs'
  rw [addTransitions_eq_modifyEach, Option.mem_def, state?_modifyEach] at hs'
  obtain ⟨s, hs, rfl⟩ := Option.map_eq_some_iff.mp hs'
  rw [← List.foldl_map (f := Prod.snd)]
  exact (h k s hs).foldl _

/-- Moving the payload of actions tells no transitions apart. -/
theorem of_withoutActions (h : net.Flagged) (hsame : net'.withoutActions = net.withoutActions) :
    net'.Flagged := by
  refine h.of_keeps fun k => ?_
  have hk := congrArg (fun net => (net.state? k).map State.sorts) hsame
  simp only [state?_withoutActions, Option.map_map] at hk
  have hsorts : State.sorts ∘ State.withoutActions = State.sorts :=
    funext State.sorts_withoutActions
  rwa [hsorts] at hk

end Flagged

end Network

end TransitionNetwork
