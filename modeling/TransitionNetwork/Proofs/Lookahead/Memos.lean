import Std.Data.HashMap.Lemmas
import TransitionNetwork.Lookahead.Query

/-!
# Queries and their memo

A memo is sound if all that it keeps are the tokens that a lookahead in the rule of the state finds.
From a sound memo a query gives an answer that does not depend on the memo, and leaves a sound one.
So this holds of every memo that queries may have left.
-/

namespace TransitionNetwork

/-- All that is kept are the tokens that can follow the state in its rule. -/
def Memo.Sound [NodeDigest] (net : Network) (memo : Memo) : Prop :=
  ∀ id kept, memo[id]? = some kept → kept = net.look id none none

namespace Network

variable [NodeDigest] {net : Network} {α β : Type}

/-- From every sound memo the query gives the answer, and leaves a sound memo. -/
def Answers (net : Network) (q : Query α) (answer : Except CallError α) : Prop :=
  ∀ memo, Memo.Sound net memo →
    (q.run.run memo).1 = answer ∧ Memo.Sound net (q.run.run memo).2

/-! ## Composed queries -/

/-- A query that asks for nothing gives its value. -/
theorem answers_pure (net : Network) (a : α) : net.Answers (pure a) (.ok a) :=
  fun _ hmemo => ⟨rfl, hmemo⟩

/-- A query that fails at once gives its error. -/
theorem answers_throw (net : Network) (e : CallError) :
    net.Answers (throw e : Query α) (.error e) := fun _ hmemo => ⟨rfl, hmemo⟩

/-- A result that was computed without the memo is the answer. -/
theorem answers_ofResult (net : Network) {result answer : Except CallError α}
    (h : result = answer) : net.Answers (tokensOfCallers.ofResult result) answer :=
  fun _ hmemo => ⟨h, hmemo⟩

omit [NodeDigest] in
/-- A composed query goes on with the memo that its first part leaves, unless that fails. -/
theorem run_bind (q : Query α) (f : α → Query β) (memo : Memo) :
    (q >>= f).run.run memo =
      match (q.run.run memo).1 with
      | .ok a => (f a).run.run (q.run.run memo).2
      | .error e => (.error e, (q.run.run memo).2) := by
  change (ExceptT.bindCont f (q.run.run memo).1).run (q.run.run memo).2 = _
  cases (q.run.run memo).1 <;> rfl

/-- The answer of a query is passed on to what follows it. -/
theorem Answers.bind {q : Query α} {f : α → Query β} {a : α} {answer : Except CallError β}
    (hq : net.Answers q (.ok a)) (hf : net.Answers (f a) answer) :
    net.Answers (q >>= f) answer := by
  intro memo hmemo
  obtain ⟨hanswer, hsound⟩ := hq memo hmemo
  rw [run_bind, hanswer]
  exact hf _ hsound

/-- After an error nothing more is asked. -/
theorem Answers.bind_error {q : Query α} (hq : net.Answers q (.error e)) (f : α → Query β) :
    net.Answers (q >>= f) (.error e) := by
  intro memo hmemo
  obtain ⟨hanswer, hsound⟩ := hq memo hmemo
  rw [run_bind, hanswer]
  exact ⟨rfl, hsound⟩

/-- A composed query has an answer if its parts do. -/
theorem exists_answers_bind {q : Query α} {f : α → Query β}
    (hq : ∃ answer, net.Answers q answer) (hf : ∀ a, ∃ answer, net.Answers (f a) answer) :
    ∃ answer, net.Answers (q >>= f) answer := by
  obtain ⟨e | a, hq⟩ := hq
  · exact ⟨_, hq.bind_error f⟩
  · obtain ⟨answer, hanswer⟩ := hf a
    exact ⟨answer, hq.bind hanswer⟩

/-! ## The queries -/

/-- The tokens in a rule are those that a lookahead finds. -/
theorem answers_tokensWithinRule (net : Network) (id : StateId) :
    net.Answers (net.tokensWithinRule id) (.ok (net.look id none none)) := by
  intro memo hmemo
  change Except.ok (memo.getOrInit id fun _ => net.look id none none).1 = _ ∧
    Memo.Sound net (memo.getOrInit id fun _ => net.look id none none).2
  rw [Memo.getOrInit]
  cases hkept : memo[id]? with
  | some kept => exact ⟨congrArg Except.ok (hmemo id kept hkept), hmemo⟩
  | none =>
    refine ⟨rfl, fun other kept hkept => ?_⟩
    rw [Std.HashMap.getElem?_insert] at hkept
    split at hkept
    next heq =>
      obtain rfl := beq_iff_eq.mp heq
      exact (Option.some.inj hkept).symm
    next => exact hmemo other kept hkept

/-- What follows a state has one answer, whatever sound memo it is asked with. -/
theorem exists_answers_nextTokens (net : Network) (id : StateId) (chain : Option CallChain) :
    ∃ answer, net.Answers (net.nextTokens id chain) answer := by
  cases chain with
  | none => exact ⟨_, net.answers_tokensWithinRule id⟩
  | some chain =>
    rw [nextTokens]
    split
    · exact ⟨_, net.answers_pure _⟩
    · exact ⟨_, net.answers_throw _⟩

/-- The tokens behind a call are those of the state in which it continues, if it exists. -/
theorem exists_answers_caller (net : Network) (invoking : StateId) (tokens : IntervalSet) :
    ∃ answer, net.Answers (tokensOfCallers.caller net invoking tokens) answer :=
  exists_answers_bind ⟨_, net.answers_ofResult rfl⟩ fun follow =>
    exists_answers_bind ⟨_, net.answers_ofResult rfl⟩ fun _ =>
      exists_answers_bind ⟨_, net.answers_tokensWithinRule follow⟩ fun _ => ⟨_, net.answers_pure _⟩

/-- What the callers accept has one answer, whatever sound memo it is asked with. -/
theorem exists_answers_tokensOfCallers (net : Network) (chain : CallChain)
    (last tokens : IntervalSet) :
    ∃ answer, net.Answers (net.tokensOfCallers chain last tokens) answer := by
  induction chain generalizing last tokens with
  | outermost invoking =>
    cases invoking with
    | none => exact ⟨_, net.answers_pure _⟩
    | some invoking =>
      rw [tokensOfCallers]
      split
      · exact ⟨_, net.answers_pure _⟩
      · exact exists_answers_bind (net.exists_answers_caller invoking tokens) fun _ =>
          ⟨_, net.answers_pure _⟩
  | called invoking caller ih =>
    cases invoking with
    | none => exact ⟨_, net.answers_pure _⟩
    | some invoking =>
      rw [tokensOfCallers]
      split
      · exact ⟨_, net.answers_pure _⟩
      · exact exists_answers_bind (net.exists_answers_caller invoking tokens) fun _ => ih _ _

/-- What is expected in a state has one answer, whatever sound memo it is asked with. -/
theorem exists_answers_expectedTokens (net : Network) (id : StateId) (chain : Option CallChain) :
    ∃ answer, net.Answers (net.expectedTokens id chain) answer := by
  rw [expectedTokens]
  split
  · exact ⟨_, net.answers_throw _⟩
  · refine exists_answers_bind ⟨_, net.answers_tokensWithinRule id⟩ fun tokens => ?_
    split
    · exact ⟨_, net.answers_pure _⟩
    · exact net.exists_answers_tokensOfCallers _ _ _

end Network

/-! ## Memos that queries leave -/

/-- The memos that queries of a network may leave, one after the other. -/
inductive Memo.Left [NodeDigest] (net : Network) : Memo → Prop
  | fresh : Left net ∅
  | tokensWithinRule {memo : Memo} (id : StateId) : Left net memo →
      Left net ((net.tokensWithinRule id).run memo).2
  | nextTokens {memo : Memo} (id : StateId) (chain : Option CallChain) : Left net memo →
      Left net ((net.nextTokens id chain).run.run memo).2
  | expectedTokens {memo : Memo} (id : StateId) (chain : Option CallChain) : Left net memo →
      Left net ((net.expectedTokens id chain).run.run memo).2

/-- Queries leave sound memos. -/
theorem Memo.Left.sound [NodeDigest] {net : Network} {memo : Memo} (h : Memo.Left net memo) :
    Memo.Sound net memo := by
  induction h with
  | fresh =>
    intro id kept hkept
    rw [Std.HashMap.getElem?_empty] at hkept
    cases hkept
  | tokensWithinRule id _ ih => exact (net.answers_tokensWithinRule id _ ih).2
  | nextTokens id chain _ ih =>
    obtain ⟨answer, hanswer⟩ := net.exists_answers_nextTokens id chain
    exact (hanswer _ ih).2
  | expectedTokens id chain _ ih =>
    obtain ⟨answer, hanswer⟩ := net.exists_answers_expectedTokens id chain
    exact (hanswer _ ih).2

end TransitionNetwork
