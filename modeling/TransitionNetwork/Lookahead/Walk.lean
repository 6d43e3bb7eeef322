import Std.Data.ExtTreeSet
import Std.Data.HashMap
import TransitionNetwork.Context.Nodes
import TransitionNetwork.Network.Basic

/-!
# Lookahead walks

A lookahead walk collects the tokens that can be consumed next. From a state it follows every
transition that consumes nothing, enters the rules that are called and, at the end of a rule,
returns through a context. No pair of a state and a context is entered twice, and a rule is not
entered again while a call of it is open, so that a walk ends on every network. Its depth is
bounded by a number that is computed beforehand.
-/

namespace TransitionNetwork

namespace Lookahead

/-- Pairs of a state and a context, where contexts are compared by structure. -/
abbrev Entered := Std.HashMap (StateId × UInt64) (List (Option Context))

namespace Entered

variable [NodeDigest]

/-- The key under which a pair is found. -/
def key (state : StateId) (context : Option Context) : StateId × UInt64 :=
  (state, (context.map Context.digest).getD 0)

/-- Whether a pair was entered. -/
def has (entered : Entered) (state : StateId) (context : Option Context) : Bool :=
  (entered.getD (key state context) []).any fun c => Context.beqParent c context

/-- Enter a pair. -/
def add (entered : Entered) (state : StateId) (context : Option Context) : Entered :=
  let k := key state context
  entered.insert k (context :: entered.getD k [])

end Entered

/-- What a walk does where there is a choice. -/
structure WalkOptions where
  /-- A state at which the walk ends as at the end of a rule. -/
  stop : Option StateId
  /-- Go on behind predicates, as if they held. -/
  throughPredicates : Bool
  /-- Collect the end of the input where the empty stack is left. -/
  collectsEof : Bool

/-- What a walk has found and where it has been. -/
structure Walk where
  /-- The tokens so far. -/
  tokens : IntervalSet
  entered : Entered
  /-- The rules whose calls are open. -/
  called : Std.ExtTreeSet RuleIndex
  /-- The next identity that is free. -/
  next : NodeId
  /-- Whether a call was passed over because a call of the same rule was open. -/
  passedCall : Bool

namespace Walk

/-- A walk that has not begun, from a context whose nodes have identities below `next`. -/
def start (next : NodeId) : Walk where
  tokens := ∅
  entered := ∅
  called := ∅
  next := next
  passedCall := false

/-- Collect one token. -/
def collect (w : Walk) (token : TokenType) : Walk := { w with tokens := w.tokens.insert token }

/-- Collect a set of tokens. -/
def collectAll (w : Walk) (tokens : IntervalSet) : Walk :=
  { w with tokens := w.tokens.union tokens }

/-- Open a call of a rule. -/
def openCall (w : Walk) (rule : RuleIndex) : Walk := { w with called := w.called.insert rule }

/-- Close the call of a rule. -/
def closeCall (w : Walk) (rule : RuleIndex) : Walk := { w with called := w.called.erase rule }

end Walk

/-- The context in which a called rule runs: the follow state pushed on the context of the call,
whatever that is. -/
def Walk.push [NodeDigest] (w : Walk) (context : Option Context) (follow : StateId) :
    Context × Walk :=
  let (callee, next) := Context.singleton ⟨context, (follow : Int)⟩ w.next
  (callee, { w with next })

/-- The part of a walk that starts in a state with a context; nothing if the depth was not
enough. -/
abbrev Visit := StateId → Option Context → Walk → Option Walk

section

variable [NodeDigest]

/-- Follow a transition of a state that was entered with a context. -/
def followTransition (net : Network) (options : WalkOptions) (visit : Visit)
    (context : Option Context) (w : Walk) (t : Transition) : Option Walk :=
  match t.kind with
  | .rule rule _ follow =>
    if w.called.contains rule then some { w with passedCall := true }
    else do
      let (callee, w) := w.push context follow
      let w ← visit t.target (some callee) (w.openCall rule)
      return w.closeCall rule
  | .predicate _ _ _ | .precedence _ =>
    if options.throughPredicates then visit t.target context w
    else some (w.collect Token.invalid)
  | .epsilon _ | .action _ _ _ => visit t.target context w
  | .range _ _ | .atom _ | .set _ | .notSet _ | .wildcard =>
    some (w.collectAll (t.consumed net.vocabulary))

/-- Return through one entry of a context. -/
def returnTo (options : WalkOptions) (visit : Visit) (w : Walk) (e : Entry Context) : Option Walk :=
  if e.returnState = Context.emptyReturn then
    some (if options.collectsEof then w.collect Token.eof else w)
  else if e.returnState < 0 then some w
  else visit e.returnState.toNat e.parent w

/-- Return through every entry of a context from the end of a rule. The call of the rule is not
open meanwhile, so that its caller may call it again. -/
def returnThrough (options : WalkOptions) (visit : Visit) (rule : Option RuleIndex)
    (context : Context) (w : Walk) : Option Walk :=
  match rule.filter fun rule => w.called.contains rule with
  | some rule => do
    let w ← context.entries.foldlM (returnTo options visit) (w.closeCall rule)
    return w.openCall rule
  | none => context.entries.foldlM (returnTo options visit) w

/-- Follow every transition of a state that was entered with a context. -/
def followAll (net : Network) (options : WalkOptions) (visit : Visit) (s : State)
    (context : Option Context) (w : Walk) : Option Walk :=
  s.transitions.foldlM (followTransition net options visit context) w

/-- Go on from a state that was just entered with a context. -/
def leaveState (net : Network) (options : WalkOptions) (visit : Visit) (id : StateId)
    (s : State) (context : Option Context) (w : Walk) : Option Walk :=
  let atRuleStop := s.kind.isRuleStop
  let atStop := atRuleStop || options.stop == some id
  match context with
  | none =>
    if atStop then some (w.collect Token.epsilon)
    else followAll net options visit s context w
  | some c =>
    if atStop && c.isEmpty && options.collectsEof then some (w.collect Token.eof)
    else if atRuleStop && !c.isEmpty then returnThrough options visit s.rule c w
    else followAll net options visit s context w

/-- Enter a state with a context, unless this was done before, and go on from there to at most
the given depth. A state that does not exist leads nowhere. -/
def visit (net : Network) (options : WalkOptions) : Nat → Visit
  | 0 => fun _ _ _ => none
  | depth + 1 => fun id context w =>
    if w.entered.has id context then some w
    else
      let w := { w with entered := w.entered.add id context }
      match net.state? id with
      | none => some w
      | some s => leaveState net options (visit net options depth) id s context w

/-! ## Depth -/

/-- The number of transitions that call a rule. -/
def callCount (net : Network) : Nat :=
  ((net.states.flatMap State.transitions).filter fun t => t.type = .rule).length

/-- A number that exceeds the identities of a context. -/
def freshId (context : Option Context) : NodeId :=
  ((context.map Context.identity).getD 0) + 1

/-- A depth that no walk exceeds. Each visit on the way enters a new pair of a state and a
context, and a context is made by at most one push for each call on a part of the first one. -/
def depthBound (net : Network) (context : Option Context) : Nat :=
  let calls := callCount net
  net.slots.size * (freshId context + 1) * Nat.pow (calls + 1) (calls + 1) + 2

/-- A whole walk from a state with a context. -/
def walk (net : Network) (options : WalkOptions) (id : StateId) (context : Option Context) : Walk :=
  let next := freshId context
  (visit net options (depthBound net context) id context (.start next)).getD (.start next)

end

end Lookahead

end TransitionNetwork
