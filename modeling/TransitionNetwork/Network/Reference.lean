import TransitionNetwork.LoadError
import TransitionNetwork.Network.Basic

/-!
# References to states

Serialized numbers become references once they are known to name a state of the network, and of
the kind that the place asks for.
-/

namespace TransitionNetwork

/-- Whether a kind of state can play a role. -/
def StateRole.admits : StateRole → StateKind → Bool
  | decision, kind => kind.isDecision
  | ruleStart, kind => kind.isRuleStart
  | blockEnd, .blockEnd _ => true
  | blockEnd, _ => false

/-- A number that counts or indexes from zero. -/
def natural (what : Referent) (number : Int) : Except LoadError Nat :=
  if number < 0 then .error (.missing what number) else .ok number.toNat

/-- An index that may be absent, where every negative number is absence. -/
def optionalIndex (number : Int) : Option Nat :=
  if number < 0 then none else some number.toNat

namespace Network

/-- The state that a number names. -/
def resolve (net : Network) (number : Int) : Except LoadError StateId :=
  if 0 ≤ number ∧ (net.state? number.toNat).isSome then .ok number.toNat
  else .error (.missing .state number)

/-- The state that a number names, if it can play a role. -/
def resolveAs (net : Network) (role : StateRole) (number : Int) : Except LoadError StateId := do
  let id ← net.resolve number
  if (net.kind? id).any role.admits then return id else throw (.wrongKind id role)

/-- The state in a slot that is taken for granted. -/
def requireState (net : Network) (id : StateId) : Except LoadError State :=
  match net.state? id with
  | some s => .ok s
  | none => .error (.missing .state id)

end Network

end TransitionNetwork
