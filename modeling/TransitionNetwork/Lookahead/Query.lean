import TransitionNetwork.CallChain
import TransitionNetwork.Lookahead.Walk

/-!
# Lookahead queries

The questions that a parser asks a network: which tokens can follow a state, in its rule alone
or under a call chain, which alternative of a decision a token selects, and which tokens the
parser would accept. The tokens that follow a state in its rule are found once for each state
and kept in a memo beside the network.
-/

namespace TransitionNetwork

/-- The tokens that follow states in their rules, as far as they have been asked for. -/
abbrev Memo := Std.HashMap StateId IntervalSet

namespace Memo

/-- The kept tokens of a state, found and kept now if they were not yet. -/
def getOrInit (memo : Memo) (id : StateId) (tokens : Unit → IntervalSet) : IntervalSet × Memo :=
  match memo[id]? with
  | some kept => (kept, memo)
  | none =>
    let found := tokens ()
    (found, memo.insert id found)

end Memo

namespace Network

section

variable [NodeDigest]

/-- The tokens that can follow a state. At the stop state or the end of the last rule they hold
the end of the rule if there is no context, and the end of the input if it is the empty stack.
Predicates are passed as if they held. -/
def look (net : Network) (id : StateId) (stop : Option StateId) (context : Option Context) :
    IntervalSet :=
  (Lookahead.walk net { stop, throughPredicates := true, collectsEof := true } id context).tokens

/-- The tokens of an alternative that begins in a state, where predicates end the walk. -/
def alternativeWalk (net : Network) (id : StateId) : Lookahead.Walk :=
  Lookahead.walk net { stop := none, throughPredicates := false, collectsEof := false } id
    (some .empty)

/-- The tokens that select each alternative of a state; nothing for an alternative that no token
selects or that depends on a predicate. -/
def decisionLookahead (net : Network) (id : StateId) : List (Option IntervalSet) :=
  match net.state? id with
  | none => []
  | some s => s.transitions.map fun t =>
    let tokens := (net.alternativeWalk t.target).tokens
    if tokens.isEmpty || tokens.contains Token.invalid then none else some tokens

end

/-! ## Queries with a memo -/

/-- A query that uses and fills the memo, also if it fails. -/
abbrev Query := ExceptT CallError (StateM Memo)

section

variable [NodeDigest]

/-- The tokens that can follow a state in its rule, with a mark if the rule can end. -/
def tokensWithinRule (net : Network) (id : StateId) : StateM Memo IntervalSet :=
  fun memo => memo.getOrInit id fun _ => net.look id none none

/-- The tokens that can follow a state under a call chain, or in its rule alone. -/
def nextTokens (net : Network) (id : StateId) (chain : Option CallChain) : Query IntervalSet :=
  match chain with
  | none => net.tokensWithinRule id
  | some chain =>
    match net.contextOf chain 1 with
    | .ok (context, _) => return net.look id none (some context)
    | .error e => throw e

/-- The tokens of the callers of a chain that can end their rules, added to the tokens so far,
as long as the rules within can end. `last` are the tokens of the last rule that was left. -/
def tokensOfCallers (net : Network) : CallChain → IntervalSet → IntervalSet → Query IntervalSet
  | .outermost none, last, tokens => return close last tokens
  | .called none _, last, tokens => return close last tokens
  | .outermost (some invoking), last, tokens => do
    if !last.contains Token.epsilon then return close last tokens
    let (last, tokens) ← caller invoking tokens
    return close last tokens
  | .called (some invoking) chain, last, tokens => do
    if !last.contains Token.epsilon then return close last tokens
    let (last, tokens) ← caller invoking tokens
    net.tokensOfCallers chain last tokens
where
  /-- The end of the input is expected if the last rule can end. -/
  close (last tokens : IntervalSet) : IntervalSet :=
    if last.contains Token.epsilon then tokens.insert Token.eof else tokens
  /-- The tokens behind a call, and those so far with them. -/
  caller (invoking : StateId) (tokens : IntervalSet) : Query (IntervalSet × IntervalSet) := do
    let follow ← ofResult (net.followOf invoking)
    let _ ← ofResult (net.liveState follow)
    let last ← net.tokensWithinRule follow
    return (last, (tokens.union last).erase Token.epsilon)
  /-- A result that needs no memo. -/
  ofResult {α : Type} (result : Except CallError α) : Query α := ExceptT.mk (pure result)

/-- The tokens that a parser would accept in a state under a call chain. -/
def expectedTokens (net : Network) (id : StateId) (chain : Option CallChain) :
    Query IntervalSet := do
  match net.liveState id with
  | .error e => throw e
  | .ok _ =>
    let tokens ← net.tokensWithinRule id
    if !tokens.contains Token.epsilon then return tokens
    net.tokensOfCallers (chain.getD (.outermost none)) tokens (tokens.erase Token.epsilon)

end

end Network

end TransitionNetwork
