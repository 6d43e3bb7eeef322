import TransitionNetwork.Network.Reference

/-!
# Structural rules

The rules that every well-formed network keeps. They are checked state by state, in order of
the numbers, and the first rule that is broken is reported; at last the first states of rules
are checked against the table of last states.
-/

namespace TransitionNetwork

/-- What a state asks for, rule by rule. -/
abbrev Requirements := List (Bool × Violation)

/-- The first rule that is broken. -/
def Requirements.firstBroken? (rules : Requirements) : Option Violation :=
  (rules.find? fun rule => !rule.1).map Prod.snd

namespace Network

/-- The kind of the state to which a transition of a state leads. -/
def targetKind? (net : Network) (s : State) (i : Nat) : Option StateKind :=
  s.transitions[i]?.bind fun t => net.kind? t.target

/-- The rule that the two branches of a star loop keep: one leads into the loop and the other
behind it, the first one being preferred. -/
def loopBranches (net : Network) (s : State) : Bool × Violation :=
  let isBody (i : Nat) := (net.targetKind? s i).any StateKind.isStarBlockStart
  let isExit (i : Nat) := (net.targetKind? s i).any StateKind.isLoopEnd
  if isBody 0 && isExit 1 then (!s.nonGreedy, .starLoopEntryGreedyMarkedNonGreedy)
  else if isExit 0 && isBody 1 then (s.nonGreedy, .starLoopEntryNonGreedyNotMarked)
  else (false, .starLoopEntryBranches)

/-- The rules for a kind of state. -/
def kindRequirements (net : Network) (s : State) : Requirements :=
  match s.kind with
  | .blockStart (.plus loopBack) stop =>
    [(loopBack.isSome, .plusBlockStartWithoutLoopBack), (stop.isSome, .blockStartWithoutEnd)]
  | .blockStart _ stop => [(stop.isSome, .blockStartWithoutEnd)]
  | .starLoopEntry loopBack _ =>
    [(loopBack.isSome, .starLoopEntryWithoutLoopBack),
      (s.transitions.length == 2, .starLoopEntryTransitionCount),
      net.loopBranches s]
  | .starLoopBack =>
    [(s.transitions.length == 1, .starLoopBackTransitionCount),
      ((net.targetKind? s 0).any StateKind.isStarLoopEntry, .starLoopBackTarget)]
  | .loopEnd loopBack => [(loopBack.isSome, .loopEndWithoutLoopBack)]
  | .ruleStart stop _ => [(stop.isSome, .ruleStartWithoutStop)]
  | .blockEnd start => [(start.isSome, .blockEndWithoutStart)]
  | .basic | .ruleStop | .plusLoopBack | .tokenStart => []

/-- The rule on the number of transitions: only decisions and rule stop states have several, and
then a decision has a number. -/
def branching (s : State) : Bool × Violation :=
  let single := decide (s.transitions.length ≤ 1)
  if s.kind.isDecision then (single || s.decision.isSome, .decisionWithoutNumber)
  else (single || s.kind.isRuleStop, .nonDecisionWithSeveralTransitions)

/-- Every rule for a state, in the order of checking. -/
def requirements (net : Network) (s : State) : Requirements :=
  (s.epsilonOnly || decide (s.transitions.length ≤ 1), .transitionsMixed) ::
    net.kindRequirements s ++ [branching s]

/-- Check the rules for one state. -/
def verifyState (net : Network) (s : State) : Except LoadError Unit :=
  match (net.requirements s).firstBroken? with
  | some broken => .error (.violation s.number broken)
  | none => .ok ()

/-- Check that the first state of a rule is linked to the last state in the table. -/
def verifyRule (net : Network) (rule : RuleIndex) (start : StateId) : Except LoadError Unit := do
  let s ← net.requireState start
  if s.kind.ruleStop? = net.ruleStop? rule then return ()
  else throw (.violation start .ruleStartNotPaired)

/-- Check every structural rule. -/
def verify (net : Network) : Except LoadError Unit := do
  net.states.forM net.verifyState
  net.ruleStarts.zipIdx.forM fun entry => net.verifyRule entry.2 entry.1

end Network

end TransitionNetwork
