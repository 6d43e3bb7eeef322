import Mathlib.Data.List.Forall2
import TransitionNetwork.Proofs.Network.WrittenPart

/-!
# The derived parts of networks

What the steps behind the written transitions leave as it was. Return transitions go behind the
transitions of rule stop states, block and loop links and precedence marks change kinds only,
decision numbers change no other part of a state, and moving actions into a table changes nothing
but what action transitions refer to.
-/

namespace TransitionNetwork

namespace Network

/-! ## Return transitions -/

/-- The network with its return transitions, and the transitions that were added. -/
theorem addReturnEdges_eq_ok {net net' : Network} :
    net.addReturnEdges = .ok net' ↔
      ∃ edges, net.returnEdges = .ok edges ∧ net.addTransitions edges = net' := by
  rw [addReturnEdges, bind_eq_ok]
  refine exists_congr fun edges => and_congr_right fun _ => ?_
  change Except.ok _ = Except.ok net' ↔ _
  rw [Except.ok.injEq]

/-! ## Blocks and loops -/

/-- A claimed block end changes in its link alone. -/
theorem claimBlockEnd_eq_ok {net net' : Network} {pair : StateId × StateId}
    (h : net.claimBlockEnd pair = .ok net') :
    net' = net.link .withBlockStart [(pair.2, pair.1)] := by
  obtain ⟨stop, -, h⟩ := bind_eq_ok.mp h
  split at h
  · cases h
    rfl
  · cases h
  · cases h

/-- What a loop is opened by is no loop end. -/
theorem isLoopEnd_of_closes {closing opening : StateKind} (h : closes closing opening) :
    opening.isLoopEnd = false := by
  cases closing <;> cases opening <;> first | rfl | cases h

/-- Linking blocks and loops changes kinds only, and no written part of them. -/
theorem revises_linkBlocksAndLoops {net net' : Network} (h : net.linkBlocksAndLoops = .ok net') :
    Revises State.written net net' ∧ Revises State.withoutKind net net' := by
  obtain ⟨pairs, -, h⟩ := bind_eq_ok.mp h
  obtain ⟨claimed, hclaims, h⟩ := bind_eq_ok.mp h
  cases h
  have hwritten : Revises State.written net claimed := by
    refine Revises.foldlM (fun net net' pair hpair => ?_) hclaims
    rw [claimBlockEnd_eq_ok hpair]
    exact Revises.modifyEach fun _ _ s =>
      s.written_mapKind (s.kind.written_withBlockStart _)
  have hrest : Revises State.withoutKind net claimed := by
    refine Revises.foldlM (fun net net' pair hpair => ?_) hclaims
    rw [claimBlockEnd_eq_ok hpair]
    exact Revises.modifyEach fun _ _ s => rfl
  refine ⟨hwritten.trans ?_, hrest.trans (Revises.modifyEach fun _ _ s => rfl)⟩
  -- A loop end would lose its link here, but only openings of loops are linked.
  refine Revises.modifyEach_of (fun s => s.kind.isLoopEnd = false) ?_ fun pair _ s hs =>
    ⟨(StateKind.isLoopEnd_withLoopBack _ s.kind).trans hs,
      s.written_mapKind (StateKind.written_withLoopBack _ hs)⟩
  intro pair hpair s hs
  obtain ⟨closing, -, hpair⟩ := List.mem_flatMap.mp hpair
  obtain ⟨t, ht, rfl⟩ := List.mem_map.mp hpair
  obtain ⟨-, hcloses⟩ := List.mem_filter.mp ht
  obtain ⟨s', hs', htype⟩ := hwritten.keeps.type.exists_of_state? hs
  rw [kind?, hs', Option.map_some, Option.any_some] at hcloses
  rw [StateKind.isLoopEnd_eq, htype, ← StateKind.isLoopEnd_eq]
  exact isLoopEnd_of_closes hcloses

end Network

/-! ## Decisions -/

/-- A state without its decision number. -/
def State.withoutDecision (s : State) : State := { s with decision := none }

namespace Network

/-- Numbering decisions appends them to the list and leaves the other tables. -/
theorem tables_addDecisions (net : Network) (ids : List StateId) :
    (net.addDecisions ids).tables = { net.tables with decisions := net.decisions ++ ids } := by
  induction ids generalizing net with
  | nil =>
    rw [List.append_nil]
    rfl
  | cons id rest ih =>
    change ((net.addDecision id).addDecisions rest).tables = _
    rw [ih, addDecision, modifyState, List.append_assoc, List.singleton_append]
    rfl

/-- Numbering decisions takes no slot. -/
theorem size_addDecisions (net : Network) (ids : List StateId) :
    (net.addDecisions ids).slots.size = net.slots.size := by
  induction ids generalizing net with
  | nil => rfl
  | cons id rest ih => exact (ih (net.addDecision id)).trans (size_modifyState _ _ _)

/-- Numbering decisions changes nothing else of the states. -/
theorem keeps_addDecisions (net : Network) (ids : List StateId) :
    Keeps State.withoutDecision net (net.addDecisions ids) := by
  induction ids generalizing net with
  | nil => exact Keeps.refl _ _
  | cons id rest ih =>
    refine Keeps.trans ?_ (ih (net.addDecision id))
    exact Keeps.modifyState { net with decisions := _ } fun s => rfl

end Network

/-! ## Actions of older streams -/

/-- A transition as it was, or an action that refers to one of so many entries instead. -/
def Transition.Renumbered (count : Nat) (t t' : Transition) : Prop :=
  t' = t ∨ ∃ rule index flag, t.kind = .action rule index flag ∧
    ∃ i < count, t' = ⟨t.target, .action rule (some i) false⟩

/-- A renumbered transition differs only in what it tells about an action. -/
theorem Transition.Renumbered.withoutAction {count : Nat} {t t' : Transition}
    (h : Renumbered count t t') : t'.withoutAction = t.withoutAction := by
  obtain ⟨target, kind⟩ := t
  rcases h with rfl | ⟨rule, index, flag, hkind, i, -, rfl⟩
  · rfl
  · cases hkind
    rfl

/-- The number of entries to which a transition may refer can be raised. -/
theorem Transition.Renumbered.mono {count count' : Nat} (hcount : count ≤ count')
    {t t' : Transition} (h : Renumbered count t t') : Renumbered count' t t' := by
  rcases h with rfl | ⟨rule, index, flag, hkind, i, hi, ht⟩
  · exact Or.inl rfl
  · exact Or.inr ⟨rule, index, flag, hkind, i, by omega, ht⟩

/-- The number of entries that a list of transitions is given. -/
def actionCount (ts : List Transition) : Nat := (ts.filterMap Transition.customAction?).length

/-- The entries of two lists are counted together. -/
theorem actionCount_append (ts us : List Transition) :
    actionCount (ts ++ us) = actionCount ts + actionCount us := by
  rw [actionCount, actionCount, actionCount, List.filterMap_append, List.length_append]

/-- The actions of a list are given consecutive entries, and nothing else changes. -/
theorem renumberActions_spec (ts : List Transition) (next : Nat) :
    (renumberActions ts next).2 = next + actionCount ts ∧
      List.Forall₂ (Transition.Renumbered (next + actionCount ts)) ts
        (renumberActions ts next).1 := by
  induction ts generalizing next with
  | nil => exact ⟨rfl, List.Forall₂.nil⟩
  | cons t rest ih =>
    obtain ⟨target, kind⟩ := t
    cases kind with
    | action rule index flag =>
      obtain ⟨hlast, hrest⟩ := ih (next + 1)
      have hcount : actionCount (⟨target, .action rule index flag⟩ :: rest) =
          1 + actionCount rest := by
        rw [Nat.add_comm]
        rfl
      rw [hcount, ← Nat.add_assoc]
      exact ⟨hlast, List.Forall₂.cons
        (Or.inr ⟨rule, index, flag, rfl, next, by omega, rfl⟩) hrest⟩
    | _ =>
      obtain ⟨hlast, hrest⟩ := ih next
      exact ⟨hlast, List.Forall₂.cons (Or.inl rfl) hrest⟩

/-- A state as it was, with its actions renumbered. -/
def State.Renumbered (count : Nat) (s s' : State) : Prop :=
  s' = { s with transitions := s'.transitions } ∧
    List.Forall₂ (Transition.Renumbered count) s.transitions s'.transitions

/-- A state as it was needs no entries. -/
theorem State.Renumbered.refl (count : Nat) (s : State) : Renumbered count s s := by
  refine ⟨rfl, ?_⟩
  induction s.transitions with
  | nil => exact List.Forall₂.nil
  | cons t rest ih => exact List.Forall₂.cons (Or.inl rfl) ih

/-- Renumbered transitions look alike without what they tell about actions. -/
theorem map_withoutAction_of_renumbered {count : Nat} {ts ts' : List Transition}
    (h : List.Forall₂ (Transition.Renumbered count) ts ts') :
    ts'.map Transition.withoutAction = ts.map Transition.withoutAction := by
  induction h with
  | nil => rfl
  | cons ht _ ih => rw [List.map_cons, List.map_cons, ht.withoutAction, ih]

/-- A renumbered state looks alike without what it tells about actions. -/
theorem State.Renumbered.withoutActions {count : Nat} {s s' : State} (h : Renumbered count s s') :
    s'.withoutActions = s.withoutActions := by
  rw [State.withoutActions, State.withoutActions, map_withoutAction_of_renumbered h.2, h.1]

namespace Network

/-- In every slot the state is renumbered with as many entries as all slots have actions. -/
theorem getElem?_renumberSlots (slots : List (Option State)) (next : Nat) (k : Nat) :
    Option.Rel (Option.Rel (State.Renumbered
      (next + actionCount ((slots.filterMap id).flatMap State.transitions))))
      slots[k]? (renumberSlots slots next)[k]? := by
  induction slots generalizing next k with
  | nil => exact Option.Rel.none
  | cons slot rest ih =>
    cases slot with
    | none =>
      cases k with
      | zero => exact Option.Rel.some Option.Rel.none
      | succ k => exact ih next k
    | some s =>
      obtain ⟨hlast, hts⟩ := renumberActions_spec s.transitions next
      change Option.Rel (Option.Rel (State.Renumbered
        (next + actionCount (s.transitions ++ (rest.filterMap id).flatMap State.transitions)))) _ _
      rw [actionCount_append, ← Nat.add_assoc]
      cases k with
      | zero =>
        refine Option.Rel.some (Option.Rel.some ⟨rfl, ?_⟩)
        exact List.Forall₂.imp (fun _ _ h => h.mono (by omega)) hts
      | succ k =>
        have hrest := ih (renumberActions s.transitions next).2 k
        rw [hlast] at hrest
        rw [renumberSlots, List.getElem?_cons_succ, List.getElem?_cons_succ, hlast]
        exact hrest

/-- Moving actions into a table renumbers every state. -/
theorem state?_tabulateActions (net : Network) (k : StateId) :
    Option.Rel (State.Renumbered net.tabulateActions.lexerActions.length) (net.state? k)
      (net.tabulateActions.state? k) := by
  have hslots := getElem?_renumberSlots net.slots.toList 0 k
  rw [Nat.zero_add] at hslots
  rw [state?, state?, tabulateActions, List.getElem?_toArray, ← Array.getElem?_toList]
  change Option.Rel (Option.Rel (State.Renumbered
    (actionCount (net.states.flatMap State.transitions)))) _ _ at hslots
  generalize net.slots.toList[k]? = slot at hslots
  generalize (renumberSlots net.slots.toList 0)[k]? = slot' at hslots
  cases hslots with
  | some h => exact h
  | none => exact Option.Rel.none

/-- Renumbering leaves the number of slots. -/
theorem length_renumberSlots (slots : List (Option State)) (next : Nat) :
    (renumberSlots slots next).length = slots.length := by
  induction slots generalizing next with
  | nil => rfl
  | cons slot rest ih =>
    cases slot with
    | none => exact congrArg Nat.succ (ih next)
    | some s => exact congrArg Nat.succ (ih _)

/-- Moving actions into a table takes no slot. -/
theorem size_tabulateActions (net : Network) :
    net.tabulateActions.slots.size = net.slots.size := length_renumberSlots net.slots.toList 0

/-- Up to actions nothing changes. -/
theorem withoutActions_tabulateActions (net : Network) :
    net.tabulateActions.withoutActions = net.withoutActions := by
  refine eq_of_state? rfl ?_ fun k => ?_
  · rw [size_withoutActions, size_withoutActions, size_tabulateActions]
  · rw [state?_withoutActions, state?_withoutActions]
    have hk := net.state?_tabulateActions k
    generalize net.state? k = s at hk
    generalize net.tabulateActions.state? k = s' at hk
    cases hk with
    | some h => exact congrArg some h.withoutActions
    | none => rfl

/-! ## Precedence marks -/

/-- Marking precedence decisions changes kinds only, and no written part of them. -/
theorem revises_markPrecedenceDecisions (net : Network) :
    Revises State.written net net.markPrecedenceDecisions ∧
      Revises State.withoutKind net net.markPrecedenceDecisions := by
  refine ⟨Revises.mapStates fun s _ => ?_, Revises.mapStates fun s _ => ?_⟩
  · split
    · exact s.written_mapKind s.kind.written_decidingPrecedence
    · rfl
  · split <;> rfl

end Network

end TransitionNetwork
