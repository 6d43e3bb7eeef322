import TransitionNetwork.Network.Basic

/-!
# Precedence loops

A left-recursive rule is a primary part followed by a star loop over its operators, and the loop
stands at the end of the rule. The entry of that loop decides whether the rule goes on.
-/

namespace TransitionNetwork

namespace Network

/-- Whether a star loop stands at the end of its rule: its last transition leads to a loop end
that consumes nothing and goes straight to a rule stop state. -/
def isPrecedenceLoopEntry (net : Network) (s : State) : Bool :=
  s.kind.isStarLoopEntry &&
    (s.transitions.getLast?.bind fun t => net.state? t.target).any fun loopEnd =>
      loopEnd.kind.isLoopEnd && loopEnd.epsilonOnly &&
        (loopEnd.transitions.head?.bind fun t => net.kind? t.target).any StateKind.isRuleStop

/-- Whether a state decides if a rule with precedence levels goes on. -/
def isPrecedenceDecision (net : Network) (s : State) : Bool :=
  s.rule.any net.hasPrecedence && net.isPrecedenceLoopEntry s

/-- Mark every state that decides if a rule with precedence levels goes on. -/
def markPrecedenceDecisions (net : Network) : Network :=
  net.mapStates fun s =>
    if net.isPrecedenceDecision s then s.mapKind .decidingPrecedence else s

end Network

end TransitionNetwork
