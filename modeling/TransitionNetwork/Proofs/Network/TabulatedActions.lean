import TransitionNetwork.Proofs.Network.DerivedParts

/-!
# Tables of older actions

The actions of an older stream are numbered in order of the states and of their transitions. Looked
at in that order, the action transitions refer to the entries 0, 1, 2 and so on, and each entry
holds the rule and the index that stood in its transition. Nothing else in the network changes.
-/

namespace TransitionNetwork

/-- An action transition that refers to an entry of the table; other transitions stay as they are.
-/
def Transition.referringTo (t : Transition) (entry : Nat) : Transition :=
  match t.kind with
  | .action rule _ _ => ⟨t.target, .action rule (some entry) false⟩
  | _ => t

/-- The action transitions of a list. -/
def actionsOf (ts : List Transition) : List Transition := ts.filter fun t => t.type = .action

/-- Transitions are numbered on behind those in front of them. -/
theorem renumberActions_append (ts us : List Transition) (next : Nat) :
    (renumberActions (ts ++ us) next).1 =
      (renumberActions ts next).1 ++ (renumberActions us (renumberActions ts next).2).1 := by
  induction ts generalizing next with
  | nil => rfl
  | cons t rest ih =>
    obtain ⟨target, kind⟩ := t
    cases kind with
    | action rule index flag => exact congrArg (List.cons _) (ih (next + 1))
    | _ => exact congrArg (List.cons _) (ih next)

/-- The actions of a list refer to consecutive entries. -/
theorem actionsOf_renumberActions (ts : List Transition) (next : Nat) :
    actionsOf (renumberActions ts next).1 =
      (actionsOf ts).mapIdx fun i t => t.referringTo (next + i) := by
  induction ts generalizing next with
  | nil => rfl
  | cons t rest ih =>
    obtain ⟨target, kind⟩ := t
    cases kind with
    | action rule index flag =>
      change _ :: actionsOf (renumberActions rest (next + 1)).1 = (_ :: actionsOf rest).mapIdx _
      rw [ih, List.mapIdx_cons]
      congr 2
      funext i t
      rw [Nat.add_assoc, Nat.add_comm 1 i]
    | _ => exact ih next

/-- The entries of a list are those of its actions. -/
theorem map_some_filterMap_customAction? (ts : List Transition) :
    (ts.filterMap Transition.customAction?).map some =
      (actionsOf ts).map Transition.customAction? := by
  induction ts with
  | nil => rfl
  | cons t rest ih =>
    obtain ⟨target, kind⟩ := t
    cases kind with
    | action rule index flag => exact congrArg (List.cons _) ih
    | _ => exact ih

/-- Numbering slot by slot numbers all transitions in order. -/
theorem flatMap_renumberSlots (slots : List (Option State)) (next : Nat) :
    ((renumberSlots slots next).filterMap id).flatMap State.transitions =
      (renumberActions ((slots.filterMap id).flatMap State.transitions) next).1 := by
  induction slots generalizing next with
  | nil => rfl
  | cons slot rest ih =>
    cases slot with
    | none => exact ih next
    | some s =>
      change _ = (renumberActions
        (s.transitions ++ (rest.filterMap id).flatMap State.transitions) next).1
      rw [renumberActions_append, ← ih]
      rfl

namespace Network

/-- The action transitions in order of the states and of their transitions. -/
def actionTransitions (net : Network) : List Transition :=
  actionsOf (net.states.flatMap State.transitions)

/-- The actions of a network are moved into a table: the k-th action transition refers to entry k,
which holds its rule and its former index. Nothing else changes. -/
structure ActionsTabulated (net net' : Network) : Prop where
  tables : net'.tables = { net.tables with lexerActions := net'.lexerActions }
  size : net'.slots.size = net.slots.size
  /-- The states keep all but their transitions, and these keep all but the payload of actions. -/
  states : ∀ k : StateId, Option.Rel (State.Renumbered net'.lexerActions.length) (net.state? k)
    (net'.state? k)
  actions : net'.actionTransitions.length = net.actionTransitions.length
  entries : net'.lexerActions.length = net.actionTransitions.length
  entry : ∀ (k : Nat) target rule index flag,
    net.actionTransitions[k]? = some ⟨target, .action rule index flag⟩ →
      net'.actionTransitions[k]? = some ⟨target, .action rule (some k) false⟩ ∧
        net'.lexerActions[k]? = some (.custom rule ((index.map Int.ofNat).getD (-1)))

/-- The action transitions stay in their order and refer to the entries one after the other. -/
theorem actionTransitions_tabulateActions (net : Network) :
    net.tabulateActions.actionTransitions =
      net.actionTransitions.mapIdx fun k t => t.referringTo k := by
  have hall : net.tabulateActions.states.flatMap State.transitions =
      (renumberActions (net.states.flatMap State.transitions) 0).1 :=
    flatMap_renumberSlots net.slots.toList 0
  rw [actionTransitions, hall, actionsOf_renumberActions]
  simp only [Nat.zero_add]
  rfl

/-- Moving actions into a table does this and nothing else. -/
theorem actionsTabulated (net : Network) : ActionsTabulated net net.tabulateActions := by
  have hactions := net.actionTransitions_tabulateActions
  have hentries : net.tabulateActions.lexerActions.map some =
      net.actionTransitions.map Transition.customAction? := map_some_filterMap_customAction? _
  refine ⟨rfl, net.size_tabulateActions, net.state?_tabulateActions, ?_, ?_, ?_⟩
  · rw [hactions, List.length_mapIdx]
  · rw [← List.length_map some, hentries, List.length_map]
  · intro k target rule index flag hk
    refine ⟨by rw [hactions, List.getElem?_mapIdx, hk]; rfl, ?_⟩
    have hentry := congrArg (·[k]?) hentries
    simp only [List.getElem?_map, hk, Option.map_some] at hentry
    obtain ⟨action, haction, hsame⟩ := Option.map_eq_some_iff.mp hentry
    exact haction.trans hsame

end Network

end TransitionNetwork
