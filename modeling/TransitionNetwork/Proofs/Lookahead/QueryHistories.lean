import TransitionNetwork.Proofs.Lookahead.Memos
import TransitionNetwork.Proofs.Stream.LoadedReferences

/-!
# Histories of queries

A network is loaded with an empty memo, and from then on questions are put to it in any order. A
question changes nothing but the memo, and the memo only grows: it keeps its entries, and a new
entry belongs to a state that exists and has the tokens that a lookahead in the rule of the state
finds. This holds also of a question that fails after some of the callers of its chain have been
looked up. So a memo that has grown from the empty one is sound, and no answer depends on what was
asked before.
-/

namespace TransitionNetwork

/-- The later memo keeps the entries of the earlier one. All that it has beside them are tokens of
states that exist, as a lookahead in the rule of the state finds them. -/
structure Memo.Grows [NodeDigest] (net : Network) (memo later : Memo) : Prop where
  kept : ∀ (id : StateId) (tokens : IntervalSet), memo[id]? = some tokens →
    later[id]? = some tokens
  found : ∀ (id : StateId) (tokens : IntervalSet), later[id]? = some tokens → memo[id]? = none →
    (net.state? id).isSome ∧ tokens = net.look id none none

namespace Memo.Grows

variable [NodeDigest] {net : Network} {memo later last : Memo}

/-- A memo that stays as it is has grown by nothing. -/
theorem refl (net : Network) (memo : Memo) : Grows net memo memo where
  kept _ _ h := h
  found _ _ h hnone := by
    rw [hnone] at h
    cases h

/-- A memo that has grown twice has grown. -/
theorem trans (h : Grows net memo later) (hlast : Grows net later last) : Grows net memo last where
  kept id tokens hmemo := hlast.kept id tokens (h.kept id tokens hmemo)
  found id tokens hfound hmemo := by
    cases hlater : later[id]? with
    | none => exact hlast.found id tokens hfound hlater
    | some before =>
      have hsame := hlast.kept id before hlater
      rw [hfound] at hsame
      obtain rfl := Option.some.inj hsame
      exact h.found id tokens hlater hmemo

/-- A sound memo stays sound as it grows. -/
theorem sound (h : Grows net memo later) (hmemo : Sound net memo) : Sound net later := by
  intro id tokens hlater
  cases hbefore : memo[id]? with
  | none => exact (h.found id tokens hlater hbefore).2
  | some before =>
    have hsame := h.kept id before hbefore
    rw [hlater] at hsame
    obtain rfl := Option.some.inj hsame
    exact hmemo id tokens hbefore

/-- What a memo has that has grown from the empty one. -/
theorem entry (h : Grows net ∅ memo) (id : StateId) :
    memo[id]? = none ∨ (net.state? id).isSome ∧ memo[id]? = some (net.look id none none) := by
  cases hmemo : memo[id]? with
  | none => exact .inl rfl
  | some tokens =>
    obtain ⟨hlive, rfl⟩ := h.found id tokens hmemo Std.HashMap.getElem?_empty
    exact .inr ⟨hlive, rfl⟩

/-- The tokens of a state that exists are kept when they are first asked for. -/
theorem getOrInit (memo : Memo) {id : StateId} (hlive : (net.state? id).isSome) :
    Grows net memo (memo.getOrInit id fun _ => net.look id none none).2 := by
  rw [Memo.getOrInit]
  cases hkept : memo[id]? with
  | some tokens => exact .refl net memo
  | none =>
    refine ⟨fun other tokens hmemo => ?_, fun other tokens hfound hnone => ?_⟩
    · rw [Std.HashMap.getElem?_insert, if_neg fun heq => ?_]
      · exact hmemo
      · rw [← beq_iff_eq.mp heq, hkept] at hmemo
        cases hmemo
    · rw [Std.HashMap.getElem?_insert] at hfound
      split at hfound
      next heq =>
        obtain rfl := beq_iff_eq.mp heq
        exact ⟨hlive, (Option.some.inj hfound).symm⟩
      next =>
        rw [hnone] at hfound
        cases hfound

end Memo.Grows

/-! ## Queries -/

namespace Network

variable [NodeDigest] {net : Network} {α β : Type}

/-- Whatever the memo is before the query, after it the memo has grown. -/
def GrowsMemo (net : Network) (q : Query α) : Prop :=
  ∀ memo, Memo.Grows net memo (q.run.run memo).2

/-- A query that asks for nothing leaves the memo as it was. -/
theorem growsMemo_pure (net : Network) (a : α) : net.GrowsMemo (pure a) :=
  Memo.Grows.refl net

/-- A query that fails at once leaves the memo as it was. -/
theorem growsMemo_throw (net : Network) (e : CallError) : net.GrowsMemo (throw e : Query α) :=
  Memo.Grows.refl net

/-- The memo grows with each of two queries, one after the other. -/
theorem GrowsMemo.bind {q : Query α} {f : α → Query β} (hq : net.GrowsMemo q)
    (hf : ∀ a, net.GrowsMemo (f a)) : net.GrowsMemo (q >>= f) := by
  intro memo
  rw [run_bind]
  split
  next a _ => exact (hq memo).trans (hf a _)
  next => exact hq memo

/-- Behind a result that needs no memo, a query may count on that result. -/
theorem growsMemo_ofResult_bind {result : Except CallError α} {f : α → Query β}
    (hf : ∀ a, result = .ok a → net.GrowsMemo (f a)) :
    net.GrowsMemo (tokensOfCallers.ofResult result >>= f) := by
  intro memo
  rw [run_bind]
  cases result with
  | ok a => exact hf a rfl memo
  | error e => exact .refl net memo

omit [NodeDigest] in
/-- A state that a caller can name exists. -/
theorem isSome_of_liveState {id : StateId} {s : State} (h : net.liveState id = .ok s) :
    (net.state? id).isSome := by
  rw [liveState] at h
  split at h
  next hstate => exact Option.isSome_of_eq_some hstate
  next => cases h

/-- Asking for the tokens in the rule of a state that exists may add them to the memo. -/
theorem growsMemo_tokensWithinRule {id : StateId} (hlive : (net.state? id).isSome) :
    net.GrowsMemo (net.tokensWithinRule id) :=
  fun memo => .getOrInit memo hlive

/-- Asking what follows a state that exists lets the memo grow. -/
theorem growsMemo_nextTokens {id : StateId} (hlive : (net.state? id).isSome)
    (chain : Option CallChain) : net.GrowsMemo (net.nextTokens id chain) := by
  cases chain with
  | none => exact growsMemo_tokensWithinRule hlive
  | some chain =>
    rw [nextTokens]
    split
    · exact growsMemo_pure net _
    · exact growsMemo_throw net _

/-- The state behind a call is looked up only if it exists. -/
theorem growsMemo_caller (net : Network) (invoking : StateId) (tokens : IntervalSet) :
    net.GrowsMemo (tokensOfCallers.caller net invoking tokens) := by
  apply growsMemo_ofResult_bind
  intro follow _
  apply growsMemo_ofResult_bind
  intro s hs
  exact (growsMemo_tokensWithinRule (isSome_of_liveState hs)).bind fun _ => growsMemo_pure net _

/-- Asking what the callers accept lets the memo grow. -/
theorem growsMemo_tokensOfCallers (net : Network) (chain : CallChain) (last tokens : IntervalSet) :
    net.GrowsMemo (net.tokensOfCallers chain last tokens) := by
  induction chain generalizing last tokens with
  | outermost invoking =>
    cases invoking with
    | none => exact growsMemo_pure net _
    | some invoking =>
      rw [tokensOfCallers]
      split
      · exact growsMemo_pure net _
      · exact (net.growsMemo_caller invoking tokens).bind fun _ => growsMemo_pure net _
  | called invoking caller ih =>
    cases invoking with
    | none => exact growsMemo_pure net _
    | some invoking =>
      rw [tokensOfCallers]
      split
      · exact growsMemo_pure net _
      · exact (net.growsMemo_caller invoking tokens).bind fun _ => ih _ _

/-- Asking what is expected lets the memo grow, even in a state that does not exist. -/
theorem growsMemo_expectedTokens (net : Network) (id : StateId) (chain : Option CallChain) :
    net.GrowsMemo (net.expectedTokens id chain) := by
  rw [expectedTokens]
  split
  next => exact growsMemo_throw net _
  next hs =>
    apply (growsMemo_tokensWithinRule (isSome_of_liveState hs)).bind
    intro tokens
    split
    · exact growsMemo_pure net _
    · exact net.growsMemo_tokensOfCallers _ _ _

end Network

/-! ## Questions -/

/-- What can be asked about a network. -/
inductive Question where
  /-- The tokens that can follow a state in its rule. -/
  | tokensWithinRule (id : StateId)
  /-- The tokens that can follow a state under a call chain, or in its rule alone. -/
  | nextTokens (id : StateId) (chain : Option CallChain)
  /-- The tokens that a parser would accept in a state under a call chain. -/
  | expectedTokens (id : StateId) (chain : Option CallChain)
  /-- The tokens that can follow a state in a context, up to a state at which the lookahead ends. -/
  | look (id : StateId) (stop : Option StateId) (context : Option Context)
  /-- The tokens that select each alternative of a state. -/
  | decisionLookahead (id : StateId)

/-- What is answered. -/
inductive Answer where
  /-- There is no such state to ask about. -/
  | noState
  | tokens (set : IntervalSet)
  | failed (e : CallError)
  | alternatives (selecting : List (Option IntervalSet))

/-- The answer of a query that may fail. -/
def Answer.ofResult : Except CallError IntervalSet → Answer
  | .ok set => .tokens set
  | .error e => .failed e

/-- A network together with what is kept of the questions so far. -/
structure AskedNetwork where
  net : Network
  memo : Memo

namespace AskedNetwork

/-- Load a network that has not been asked anything. -/
def load (options : LoadOptions) (units : List UInt16) : Except LoadError AskedNetwork := do
  return ⟨← Network.load options units, ∅⟩

variable [NodeDigest] {asked fresh : AskedNetwork}

/-- Run a query on the memo of the network. -/
def query (q : Network.Query IntervalSet) : StateM AskedNetwork Answer := fun asked =>
  let (result, memo) := q.run.run asked.memo
  (.ofResult result, { asked with memo })

/-- Put a question to the network. -/
def ask (question : Question) : StateM AskedNetwork Answer := fun asked =>
  match question with
  | .tokensWithinRule id =>
    if (asked.net.state? id).isSome then query (asked.net.tokensWithinRule id) asked
    else (.noState, asked)
  | .nextTokens id chain =>
    if (asked.net.state? id).isSome then query (asked.net.nextTokens id chain) asked
    else (.noState, asked)
  | .expectedTokens id chain => query (asked.net.expectedTokens id chain) asked
  | .look id stop context => (.tokens (asked.net.look id stop context), asked)
  | .decisionLookahead id => (.alternatives (asked.net.decisionLookahead id), asked)

/-- The later network is the earlier one with a memo that has grown. -/
structure Later (asked later : AskedNetwork) : Prop where
  net : later.net = asked.net
  memo : Memo.Grows asked.net asked.memo later.memo

/-- A network that is not asked anything is its own later one. -/
theorem Later.refl (asked : AskedNetwork) : Later asked asked where
  net := rfl
  memo := .refl asked.net asked.memo

/-- What is later than a later network is later than the first one. -/
theorem Later.trans {later last : AskedNetwork} (h : Later asked later) (hlast : Later later last) :
    Later asked last where
  net := hlast.net.trans h.net
  memo := h.memo.trans (h.net ▸ hlast.memo)

/-- The answer of a query on a memo that has grown from the empty one is that on the empty memo. -/
theorem query_eq {q : Network.Query IntervalSet} {answer : Except CallError IntervalSet}
    (hq : asked.net.Answers q answer) (hmemo : Memo.Grows asked.net ∅ asked.memo) :
    (query q asked).1 = (query q ⟨asked.net, ∅⟩).1 := by
  have hempty : Memo.Sound asked.net ∅ := Memo.Left.fresh.sound
  have hasked := (hq asked.memo (hmemo.sound hempty)).1
  have hfresh := (hq ∅ hempty).1
  exact congrArg Answer.ofResult (hasked.trans hfresh.symm)

/-- A query leaves the network as it is, but for a memo that has grown. -/
theorem later_query {q : Network.Query IntervalSet} (hq : asked.net.GrowsMemo q) :
    Later asked (query q asked).2 where
  net := rfl
  memo := hq asked.memo

/-- A question changes nothing but the memo, which grows. -/
theorem later_ask (question : Question) (asked : AskedNetwork) :
    Later asked ((ask question).run asked).2 := by
  cases question with
  | tokensWithinRule id =>
    change Later asked (ite _ _ _ : Answer × AskedNetwork).2
    split
    next hlive => exact later_query (Network.growsMemo_tokensWithinRule hlive)
    next => exact .refl asked
  | nextTokens id chain =>
    change Later asked (ite _ _ _ : Answer × AskedNetwork).2
    split
    next hlive => exact later_query (Network.growsMemo_nextTokens hlive chain)
    next => exact .refl asked
  | expectedTokens id chain => exact later_query (asked.net.growsMemo_expectedTokens id chain)
  | look id stop context => exact .refl asked
  | decisionLookahead id => exact .refl asked

/-- A question is answered later as it is by the fresh network. -/
theorem ask_eq_of_later (hempty : fresh.memo = ∅) (hlater : Later fresh asked)
    (question : Question) : ((ask question).run asked).1 = ((ask question).run fresh).1 := by
  obtain ⟨net, memo⟩ := fresh
  obtain ⟨later, grown⟩ := asked
  obtain ⟨rfl, hgrown⟩ := hlater
  obtain rfl : memo = ∅ := hempty
  cases question with
  | tokensWithinRule id =>
    change (ite _ _ _ : Answer × AskedNetwork).1 = (ite _ _ _ : Answer × AskedNetwork).1
    split
    · exact query_eq (later.answers_tokensWithinRule id) hgrown
    · rfl
  | nextTokens id chain =>
    obtain ⟨answer, hanswer⟩ := later.exists_answers_nextTokens id chain
    change (ite _ _ _ : Answer × AskedNetwork).1 = (ite _ _ _ : Answer × AskedNetwork).1
    split
    · exact query_eq hanswer hgrown
    · rfl
  | expectedTokens id chain =>
    obtain ⟨answer, hanswer⟩ := later.exists_answers_expectedTokens id chain
    exact query_eq hanswer hgrown
  | look id stop context => rfl
  | decisionLookahead id => rfl

/-! ## Histories -/

/-- The first of several questions is answered first, and the others by what it leaves. -/
theorem run_mapM_cons (question : Question) (questions : List Question) (asked : AskedNetwork) :
    ((question :: questions).mapM ask).run asked =
      (((ask question).run asked).1 :: ((questions.mapM ask).run ((ask question).run asked).2).1,
        ((questions.mapM ask).run ((ask question).run asked).2).2) := by
  rw [List.mapM_cons]
  rfl

/-- Questions change nothing but the memo, which grows. -/
theorem later_mapM_ask (questions : List Question) (asked : AskedNetwork) :
    Later asked ((questions.mapM ask).run asked).2 := by
  induction questions generalizing asked with
  | nil => exact .refl asked
  | cons question questions ih =>
    rw [run_mapM_cons]
    exact (later_ask question asked).trans (ih _)

/-- Questions are answered one after the other as each of them is by the fresh network. -/
theorem mapM_ask_eq_of_later (hempty : fresh.memo = ∅) (hlater : Later fresh asked)
    (questions : List Question) :
    ((questions.mapM ask).run asked).1 =
      questions.map fun question => ((ask question).run fresh).1 := by
  induction questions generalizing asked with
  | nil => rfl
  | cons question questions ih =>
    rw [run_mapM_cons, List.map_cons, ih (hlater.trans (later_ask question asked)),
      ask_eq_of_later hempty hlater]

/-- The memo of a loaded network cannot be seen. After any questions each further one is answered
as by a network that was just loaded, and the network is the same. The memo has for each state
nothing, or what a lookahead in the rule of the state finds, and keeps that from then on. -/
theorem memo_invisible {options : LoadOptions} {units : List UInt16}
    (hload : load options units = .ok fresh) (questions : List Question) :
    let asked := ((questions.mapM ask).run fresh).2
    ((questions.mapM ask).run fresh).1 =
        questions.map (fun question => ((ask question).run fresh).1) ∧
      asked.net = fresh.net ∧
      (∀ id, asked.memo[id]? = none ∨
        (fresh.net.state? id).isSome ∧ asked.memo[id]? = some (fresh.net.look id none none)) ∧
      ∀ (more : List Question) (id : StateId) (tokens : IntervalSet),
        asked.memo[id]? = some tokens →
        ((more.mapM ask).run asked).2.memo[id]? = some tokens := by
  obtain ⟨net, -, hfresh⟩ := bind_eq_ok.mp hload
  cases hfresh
  have hlater := later_mapM_ask questions ⟨net, ∅⟩
  refine ⟨mapM_ask_eq_of_later rfl (.refl _) questions, hlater.net, hlater.memo.entry, ?_⟩
  intro more
  exact (later_mapM_ask more _).memo.kept

end AskedNetwork

/-- Questions about the parser with a loop, of which one names a state that does not exist and one
fails behind the first caller. -/
theorem AskedNetwork.memo_invisible_loopParser : ∃ fresh,
    load ⟨true, false⟩ loopParserUnits = .ok fresh ∧ (fresh.net.state? 6).isSome ∧
      let questions := [.expectedTokens 6 (some (.ofCalls [2])), .nextTokens 99 none,
        .expectedTokens 6 (some (.ofCalls [99, 2])), .nextTokens 6 (some (.ofCalls [2])),
        .tokensWithinRule 1, .look 6 (some 1) none, .decisionLookahead 6]
      let asked := ((questions.mapM ask).run fresh).2
      ((questions.mapM ask).run fresh).1 =
          questions.map (fun question => ((ask question).run fresh).1) ∧
        asked.net = fresh.net ∧
        (asked.memo[1]? = none ∨
          (fresh.net.state? 1).isSome ∧ asked.memo[1]? = some (fresh.net.look 1 none none)) := by
  have hload : ((load ⟨true, false⟩ loopParserUnits).toOption.map fun fresh =>
      (fresh.net.state? 6).isSome) = some true := by
    decide +kernel
  obtain ⟨fresh, hfresh, hlive⟩ := Option.map_eq_some_iff.mp hload
  have hok := eq_ok_of_toOption hfresh
  obtain ⟨hanswers, hnet, hentries, -⟩ := memo_invisible hok
    [.expectedTokens 6 (some (.ofCalls [2])), .nextTokens 99 none,
      .expectedTokens 6 (some (.ofCalls [99, 2])), .nextTokens 6 (some (.ofCalls [2])),
      .tokensWithinRule 1, .look 6 (some 1) none, .decisionLookahead 6]
  exact ⟨fresh, hok, hlive, hanswers, hnet, hentries 1⟩

end TransitionNetwork
