import TransitionNetwork.Network.Basic

/-!
# Lexer actions of older streams

Streams from before the table of lexer actions hold the rule and the index of an action in its
action transition. Every action transition is given an entry of its own in a new table, in order
of the states and of their transitions, and then refers to that entry.
-/

namespace TransitionNetwork

/-- The table entry of a transition, if it is an action transition. -/
def Transition.customAction? (t : Transition) : Option LexerAction :=
  match t.kind with
  | .action rule index _ => some (.custom rule ((index.map Int.ofNat).getD (-1)))
  | _ => none

/-- Let the action transitions of a list refer to the entries from `next` on; also gives the
entry behind the last one. -/
def renumberActions : List Transition → Nat → List Transition × Nat
  | [], next => ([], next)
  | t :: rest, next =>
    match t.kind with
    | .action rule _ _ =>
      let (rest, last) := renumberActions rest (next + 1)
      (⟨t.target, .action rule (some next) false⟩ :: rest, last)
    | _ =>
      let (rest, last) := renumberActions rest next
      (t :: rest, last)

/-- Let the action transitions of all states refer to the entries from `next` on. -/
def renumberSlots : List (Option State) → Nat → List (Option State)
  | [], _ => []
  | none :: rest, next => none :: renumberSlots rest next
  | some s :: rest, next =>
    let (transitions, next) := renumberActions s.transitions next
    some { s with transitions } :: renumberSlots rest next

/-- Move the actions of all action transitions into a table. -/
def Network.tabulateActions (net : Network) : Network :=
  { net with
    slots := (renumberSlots net.slots.toList 0).toArray
    lexerActions := (net.states.flatMap State.transitions).filterMap Transition.customAction? }

end TransitionNetwork
