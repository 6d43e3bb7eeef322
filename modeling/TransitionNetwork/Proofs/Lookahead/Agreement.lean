import TransitionNetwork.Proofs.Lookahead.Memos
import TransitionNetwork.Proofs.Lookahead.Paths
import TransitionNetwork.Proofs.Stream.LoadedLabels

/-!
# Two queries for the tokens under a call chain

A parser can ask for the tokens that can follow a state under a call chain by one lookahead through
the context of the chain, or climb the chain from rule to rule, as long as the rule within can end,
and join what it finds in each. Both describe the places of the network with the calls of the chain
pending, so that they agree in a loaded network unless a call was passed over.
-/

namespace TransitionNetwork

namespace Network

open Lookahead

/-! ## Tokens under pending calls -/

/-- A place that offers the token, or from which one comes to the end of the input. -/
def Expects (net : Network) (place : Place) (token : TokenType) : Prop :=
  net.Offers place token ∨ token = Token.eof ∧ net.Exits place

/-- What is expected where the latest of the pending calls continues; the end of the input if there
are none. -/
def ExpectsBehind (net : Network) : List StateId → TokenType → Prop
  | [], token => token = Token.eof
  | follow :: below, token => net.Expects ⟨follow, below⟩ token

variable {net : Network} {id : StateId} {pending : List StateId} {token : TokenType}

/-- Over pending calls a state expects what it offers in its rule, and if that can end, then what is
expected behind the rule. -/
theorem expects_iff : net.Expects ⟨id, pending⟩ token ↔
    net.Offers ⟨id, []⟩ token ∨ net.Exits ⟨id, []⟩ ∧ net.ExpectsBehind pending token := by
  cases pending with
  | nil => exact or_congr_right and_comm
  | cons follow below =>
    change net.Offers (Place.over ⟨id, []⟩ (follow :: below)) token ∨
      token = Token.eof ∧ net.Exits (Place.over ⟨id, []⟩ (follow :: below)) ↔ _
    rw [offers_over_iff, exits_over_iff, ExpectsBehind, Expects, and_or_left, or_assoc,
      and_left_comm]

/-- In a network with labels of its vocabulary the mark of the end of a rule is offered nowhere. -/
theorem Labelled.not_offers_epsilon (hnet : net.Labelled) (place : Place) :
    ¬ net.Offers place Token.epsilon := by
  rintro ⟨last, next, -, hmove⟩
  cases hmove with
  | along hstate _ ht hleads =>
    cases hleads with
    | consume haccepts =>
      have heof := hnet _ (mem_states.mpr ⟨_, hstate⟩) _ ht _ _ haccepts
      exact absurd heof (by decide)

/-! ## Call chains -/

/-- The last of the listed calls is the latest of the chain. -/
theorem ofCalls_concat (calls : List StateId) (call : StateId) :
    CallChain.ofCalls (calls ++ [call]) = .called (some call) (.ofCalls calls) := by
  rw [CallChain.ofCalls, List.foldl_append]
  rfl

/-- Where the latest call continues comes before where the others do. -/
theorem followsOf_ofCalls_concat (calls : List StateId) (call : StateId) :
    net.followsOf (.ofCalls (calls ++ [call])) = do
      let follow ← net.followOf call
      return follow :: (← net.followsOf (.ofCalls calls)) := by
  rw [ofCalls_concat]
  rfl

/-- A call continues in a state that exists. -/
theorem WellReferenced.exists_follow (hnet : net.WellReferenced) {call follow : StateId}
    (h : net.followOf call = .ok follow) : ∃ s, net.liveState follow = .ok s := by
  obtain ⟨s, hs, h⟩ := bind_eq_ok.mp h
  rw [liveState] at hs
  split at hs
  next found hfound =>
    cases hs
    split at h
    next next hnext =>
      cases h
      obtain ⟨t, ht, hfollow⟩ := Option.bind_eq_some_iff.mp hnext
      have hmem := mem_states.mpr ⟨call, hfound⟩
      have hlive := ((hnet.transitions s hmem t (List.mem_of_mem_head? ht)).call _ hfollow).2
      obtain ⟨s', hs'⟩ := Option.isSome_iff_exists.mp hlive
      exact ⟨s', by rw [liveState, hs']⟩
    next => cases h
  next => cases hs

variable [NodeDigest]

/-- The context in which the calls continue in the given states, the innermost first. -/
def followContext (follows : List StateId) : Context × NodeId :=
  Context.empty.pushAll (follows.map fun (id : Nat) => (id : Int)) 1

/-- The innermost state is pushed on the context of the others. -/
theorem followContext_cons (follow : StateId) (below : List StateId) :
    followContext (follow :: below) =
      Context.singleton ⟨some (followContext below).1, (follow : Int)⟩ (followContext below).2 := rfl

/-- It holds these states above the empty stack. -/
theorem map_skeleton_followContext (follows : List StateId) :
    (some (followContext follows).1).map Context.skeleton = stacked follows (some .empty) := by
  induction follows with
  | nil => exact congrArg some Context.skeleton_empty
  | cons follow below ih =>
    rw [followContext_cons, Option.map_some, Context.skeleton_singleton, ih, stacked]

/-- It belongs to a history. -/
theorem exists_holds_followContext (follows : List StateId) :
    ∃ h : History, h.next = (followContext follows).2 ∧ h.Holds (followContext follows).1 := by
  induction follows with
  | nil => exact ⟨.start, rfl, .empty⟩
  | cons follow below ih =>
    obtain ⟨h, hnext, hheld⟩ := ih
    have hentry : h.HoldsEntries [⟨some (followContext below).1, (follow : Int)⟩] := by
      rw [History.holdsEntries_singleton]
      rintro _ ⟨⟩
      exact hheld
    obtain ⟨h', -, hnext', hheld'⟩ := Context.exists_holds_ofEntries hentry
    rw [hnext] at hnext' hheld'
    exact ⟨h', hnext', hheld'⟩

/-- The context of a chain is that of the states in which its callers continue. -/
theorem exists_of_contextOf {chain : CallChain} {made : Context × NodeId}
    (h : net.contextOf chain 1 = .ok made) :
    ∃ follows, net.followsOf chain = .ok follows ∧ made = followContext follows := by
  obtain ⟨follows, hfollows, h⟩ := bind_eq_ok.mp h
  cases h
  exact ⟨follows, hfollows, rfl⟩

/-- A lookahead under pending calls that passes over no call finds what is expected with them. -/
theorem contains_look_followContext {follows : List StateId}
    (hpassed : (walk net (lookOptions none) id (some (followContext follows).1)).passedCall = false)
    (token : TokenType) : (net.look id none (some (followContext follows).1)).contains token ↔
      net.Expects ⟨id, follows⟩ token := by
  obtain ⟨h, -, hheld⟩ := exists_holds_followContext follows
  have hcontext : h.HoldsParent (some (followContext follows).1) := by
    rintro _ ⟨⟩
    exact hheld
  exact contains_look_iff hcontext (by simp) (map_skeleton_followContext follows) hpassed

/-! ## Tokens within rules -/

/-- Nothing is passed over by the lookahead in the rule of a state. -/
def PassesNone (net : Network) (id : StateId) : Prop :=
  (walk net (lookOptions none) id none).passedCall = false

/-- The tokens in the rule of a state are offered there, and mark whether the rule can end. -/
theorem PassesNone.contains_iff (h : net.PassesNone id) (token : TokenType) :
    (net.look id none none).contains token ↔
      net.Offers ⟨id, []⟩ token ∨ token = Token.epsilon ∧ net.Exits ⟨id, []⟩ :=
  have hheld : History.start.HoldsParent none := by simp [History.HoldsParent]
  have hstacked : Option.map Context.skeleton none = stacked [] none := rfl
  contains_look_iff hheld (by simp) hstacked h

/-- The tokens in the rule of a state hold the mark if and only if the rule can end from there. -/
theorem PassesNone.contains_epsilon_iff (h : net.PassesNone id) (hnet : net.Labelled) :
    (net.look id none none).contains Token.epsilon ↔ net.Exits ⟨id, []⟩ := by
  rw [h.contains_iff]
  simp [hnet.not_offers_epsilon]

/-- Without the mark the tokens in the rule of a state are those that are offered there. -/
theorem PassesNone.contains_and_ne_iff (h : net.PassesNone id) (hnet : net.Labelled)
    (token : TokenType) : (net.look id none none).contains token ∧ token ≠ Token.epsilon ↔
      net.Offers ⟨id, []⟩ token := by
  rw [h.contains_iff]
  constructor
  · rintro ⟨hoffers | ⟨rfl, -⟩, hne⟩
    · exact hoffers
    · exact (hne rfl).elim
  · intro hoffers
    refine ⟨Or.inl hoffers, ?_⟩
    rintro rfl
    exact hnet.not_offers_epsilon _ hoffers

/-- A lookahead finds tokens with canonical intervals. -/
theorem canonical_look (net : Network) (id : StateId) (context : Option Context) :
    IntervalSet.Canonical (net.look id none context).intervals :=
  (collected_walk net (lookOptions none) id context).canonical

/-! ## Climbing -/

/-- The states for whose rules tokens are asked when a chain is climbed from a state. -/
def climbed (net : Network) : StateId → CallChain → List StateId
  | id, .called (some call) caller =>
    id :: if (net.look id none none).contains Token.epsilon then
      match net.followOf call with
      | .ok follow => net.climbed follow caller
      | .error _ => []
    else []
  | id, _ => [id]

/-- Climbing from a state whose rule can end leads on to where the call continues. -/
theorem climbed_ofCalls_concat {calls : List StateId} {call follow : StateId}
    (hends : (net.look id none none).contains Token.epsilon)
    (hfollow : net.followOf call = .ok follow) :
    net.climbed id (.ofCalls (calls ++ [call])) = id :: net.climbed follow (.ofCalls calls) := by
  rw [ofCalls_concat, climbed, if_pos hends, hfollow]

/-- A chain is climbed from the state itself first. -/
theorem mem_climbed (net : Network) (id : StateId) (chain : CallChain) :
    id ∈ net.climbed id chain := by
  unfold climbed
  split <;> exact List.mem_cons_self

/-- The tokens behind a call are those of the rule in which it continues. -/
theorem answers_caller {call follow : StateId} {s : State}
    (hfollow : net.followOf call = .ok follow) (hlive : net.liveState follow = .ok s)
    (tokens : IntervalSet) :
    net.Answers (tokensOfCallers.caller net call tokens) (.ok (net.look follow none none,
      (tokens.union (net.look follow none none)).erase Token.epsilon)) :=
  (net.answers_ofResult hfollow).bind <| (net.answers_ofResult hlive).bind <|
    (net.answers_tokensWithinRule follow).bind (net.answers_pure _)

/-- Joined with the tokens of the rule in which a call continues, without the mark, the tokens so
far gain those that are offered there. -/
theorem PassesNone.contains_union_iff (h : net.PassesNone id) (hnet : net.Labelled)
    {tokens : IntervalSet} (htokens : IntervalSet.Canonical tokens.intervals)
    (hmark : ¬ tokens.contains Token.epsilon) (token : TokenType) :
    ((tokens.union (net.look id none none)).erase Token.epsilon).contains token ↔
      tokens.contains token ∨ net.Offers ⟨id, []⟩ token := by
  rw [IntervalSet.contains_erase, IntervalSet.contains_union htokens, or_and_right,
    h.contains_and_ne_iff hnet]
  apply or_congr_left
  apply and_iff_left_of_imp
  rintro htoken rfl
  exact hmark htoken

/-- Where the climbing ends, the tokens so far gain the end of the input if the rule can end. -/
theorem PassesNone.contains_close_iff (h : net.PassesNone id) (hnet : net.Labelled)
    {tokens : IntervalSet} (htokens : IntervalSet.Canonical tokens.intervals) :
    IntervalSet.Canonical (tokensOfCallers.close (net.look id none none) tokens).intervals ∧
      ∀ token, (tokensOfCallers.close (net.look id none none) tokens).contains token ↔
        tokens.contains token ∨ net.Exits ⟨id, []⟩ ∧ token = Token.eof := by
  have hends := h.contains_epsilon_iff hnet
  rw [tokensOfCallers.close]
  split
  next hmarked =>
    refine ⟨htokens.insert _, fun token => ?_⟩
    rw [IntervalSet.contains_insert htokens, or_comm, and_iff_right (hends.mp hmarked)]
  next hmarked =>
    refine ⟨htokens, fun token => (or_iff_left fun hexits => hmarked ?_).symm⟩
    exact hends.mpr hexits.1

/-- Climbing a chain adds to the tokens so far what is expected behind the rule that was left. -/
theorem exists_answers_climb (hreferenced : net.WellReferenced) (hlabelled : net.Labelled)
    {calls follows : List StateId} (hfollows : net.followsOf (.ofCalls calls) = .ok follows)
    (hpassed : ∀ asked ∈ net.climbed id (.ofCalls calls), net.PassesNone asked)
    {tokens : IntervalSet} (htokens : IntervalSet.Canonical tokens.intervals)
    (hmark : ¬ tokens.contains Token.epsilon) :
    ∃ result, net.Answers (net.tokensOfCallers (.ofCalls calls) (net.look id none none) tokens)
        (.ok result) ∧ IntervalSet.Canonical result.intervals ∧
      ∀ token, result.contains token ↔ tokens.contains token ∨
        net.Exits ⟨id, []⟩ ∧ net.ExpectsBehind follows token := by
  induction calls using List.reverseRecOn generalizing follows id tokens with
  | nil =>
    cases hfollows
    have hwithin := hpassed id (net.mem_climbed id _)
    exact ⟨_, net.answers_pure _, hwithin.contains_close_iff hlabelled htokens⟩
  | append_singleton calls call ih =>
    rw [followsOf_ofCalls_concat] at hfollows
    obtain ⟨follow, hfollow, hfollows⟩ := bind_eq_ok.mp hfollows
    obtain ⟨below, hbelow, hfollows⟩ := bind_eq_ok.mp hfollows
    cases hfollows
    have hends := (hpassed id (net.mem_climbed id _)).contains_epsilon_iff hlabelled
    rw [ofCalls_concat, tokensOfCallers]
    by_cases hmarked : (net.look id none none).contains Token.epsilon
    -- The rule can end here, so the query climbs to where the call continues.
    · obtain ⟨s, hlive⟩ := hreferenced.exists_follow hfollow
      rw [climbed_ofCalls_concat hmarked hfollow] at hpassed
      obtain ⟨-, hpassed⟩ := List.forall_mem_cons.mp hpassed
      have hwithin := hpassed follow (net.mem_climbed follow _)
      obtain ⟨result, hanswers, hcanonical, hresult⟩ := ih hbelow hpassed
        ((htokens.union _).erase Token.epsilon) (by simp [IntervalSet.contains_erase])
      refine ⟨result, ?_, hcanonical, fun token => ?_⟩
      · rw [hmarked]
        exact (answers_caller hfollow hlive tokens).bind hanswers
      · rw [hresult, hwithin.contains_union_iff hlabelled htokens hmark, or_assoc, ExpectsBehind,
          expects_iff, and_iff_right (hends.mp hmarked)]
    · refine ⟨tokens, ?_, htokens, fun token => ?_⟩
      · rw [Bool.not_eq_true] at hmarked
        rw [hmarked, tokensOfCallers.close, hmarked]
        exact net.answers_pure tokens
      · exact (or_iff_left fun hexits => hmarked (hends.mpr hexits.1)).symm

/-- A query that climbs a chain of calls that all continue somewhere finds what is expected with
them pending. -/
theorem exists_answers_expectedTokens_ofCalls (hreferenced : net.WellReferenced)
    (hlabelled : net.Labelled) {s : State} (hstate : net.state? id = some s)
    {calls follows : List StateId} (hfollows : net.followsOf (.ofCalls calls) = .ok follows)
    (hpassed : ∀ asked ∈ net.climbed id (.ofCalls calls), net.PassesNone asked) :
    ∃ result, net.Answers (net.expectedTokens id (some (.ofCalls calls))) (.ok result) ∧
      IntervalSet.Canonical result.intervals ∧
      ∀ token, result.contains token ↔ net.Expects ⟨id, follows⟩ token := by
  have hwithin := hpassed id (net.mem_climbed id _)
  have hlive : net.liveState id = .ok s := by rw [liveState, hstate]
  rw [expectedTokens, hlive]
  by_cases hmarked : (net.look id none none).contains Token.epsilon
  · obtain ⟨result, hanswers, hcanonical, hresult⟩ := exists_answers_climb hreferenced hlabelled
      hfollows hpassed ((net.canonical_look id none).erase Token.epsilon)
      (by simp [IntervalSet.contains_erase])
    refine ⟨result, (net.answers_tokensWithinRule id).bind ?_, hcanonical, fun token => ?_⟩
    · rw [hmarked]
      exact hanswers
    · rw [hresult, IntervalSet.contains_erase, hwithin.contains_and_ne_iff hlabelled, expects_iff]
  · have hends := mt (hwithin.contains_epsilon_iff hlabelled).mpr hmarked
    refine ⟨net.look id none none, (net.answers_tokensWithinRule id).bind ?_,
      net.canonical_look id none, fun token => ?_⟩
    · rw [Bool.not_eq_true] at hmarked
      rw [hmarked]
      exact net.answers_pure _
    · rw [hwithin.contains_iff, expects_iff, or_congr_right]
      exact ⟨fun h => (hends h.2).elim, fun h => (hends h.1).elim⟩

/-! ## Calls in a region without calls -/

/-- One climbs to states in which the callers of the chain continue. -/
theorem climbed_subset {chain : CallChain} {follows : List StateId}
    (h : net.followsOf chain = .ok follows) : net.climbed id chain ⊆ id :: follows := by
  induction chain generalizing id follows with
  | outermost invoking =>
    rw [climbed.eq_def]
    exact List.cons_subset_cons id (List.nil_subset _)
  | called invoking caller ih =>
    cases invoking with
    | none =>
      rw [climbed.eq_def]
      exact List.cons_subset_cons id (List.nil_subset _)
    | some call =>
      obtain ⟨follow, hfollow, h⟩ := bind_eq_ok.mp h
      obtain ⟨below, hbelow, h⟩ := bind_eq_ok.mp h
      cases h
      rw [climbed, hfollow]
      apply List.cons_subset_cons
      split
      · exact ih hbelow
      · exact List.nil_subset _

/-- No lookahead under a chain of calls passes over a call if the state and the states in which the
calls continue are in a region without calls. -/
theorem passesNone_of_callFree {region : List StateId} (hregion : CallFree net region)
    {chain : CallChain} {follows : List StateId} (hfollows : net.followsOf chain = .ok follows)
    (hwithin : Within region ⟨id, follows⟩) :
    (walk net (lookOptions none) id (some (followContext follows).1)).passedCall = false ∧
      ∀ asked ∈ net.climbed id chain, net.PassesNone asked := by
  constructor
  · exact hregion.passedCall_walk hwithin (by simp) (map_skeleton_followContext follows)
  · intro asked hasked
    have hmem : asked ∈ region :=
      List.cons_subset.mpr hwithin (climbed_subset hfollows hasked)
    have hstacked : Option.map Context.skeleton none = stacked [] none := rfl
    exact hregion.passedCall_walk ⟨hmem, List.nil_subset _⟩ (by simp) hstacked

/-- In a loaded network both queries for the tokens under a chain of calls succeed with the same
tokens, whatever queries were made before, if none of the lookaheads passes over a call. -/
theorem expectedTokens_eq_nextTokens {options : LoadOptions} {units : List UInt16}
    (hload : load options units = .ok net) (hlive : (net.state? id).isSome) {calls : List StateId}
    {made : Context × NodeId} (hmade : net.contextOf (.ofCalls calls) 1 = .ok made)
    (hnext : (walk net (lookOptions none) id (some made.1)).passedCall = false)
    (hclimbed : ∀ asked ∈ net.climbed id (.ofCalls calls),
      (walk net (lookOptions none) asked none).passedCall = false)
    {memo : Memo} (hmemo : Memo.Left net memo) :
    ∃ tokens,
      ((net.expectedTokens id (some (.ofCalls calls))).run.run memo).1 = .ok tokens ∧
      ((net.nextTokens id (some (.ofCalls calls))).run.run memo).1 = .ok tokens := by
  obtain ⟨s, hstate⟩ := Option.isSome_iff_exists.mp hlive
  obtain ⟨follows, hfollows, rfl⟩ := exists_of_contextOf hmade
  have hreferenced := load_induct hload (fun h => h.wellReferenced)
    fun h hb => h.wellReferenced.of_addBypasses hb
  obtain ⟨tokens, hanswers, hcanonical, hexpected⟩ := exists_answers_expectedTokens_ofCalls
    hreferenced (labelled_of_load hload) hstate hfollows hclimbed
  have hsame : net.look id none (some (followContext follows).1) = tokens :=
    (net.canonical_look id _).ext_contains hcanonical fun token =>
      (contains_look_followContext hnext token).trans (hexpected token).symm
  refine ⟨tokens, (hanswers memo hmemo.sound).1, ?_⟩
  rw [nextTokens, hmade, ← hsame]
  rfl

end Network

/-- In the parser with a loop the second rule is called in state 2, and in state 6 it may end. -/
theorem Network.expectedTokens_eq_nextTokens_loopParser : ∃ net tokens,
    Network.load ⟨true, false⟩ loopParserUnits = .ok net ∧
      ((net.expectedTokens 6 (some (.ofCalls [2]))).run.run ∅).1 = .ok tokens ∧
      ((net.nextTokens 6 (some (.ofCalls [2]))).run.run ∅).1 = .ok tokens := by
  have hload : ((Network.load ⟨true, false⟩ loopParserUnits).toOption.map fun net =>
      ((net.state? 6).isSome, (net.followsOf (.ofCalls [2])).toOption,
        decide (Lookahead.CallFree net [6, 7, 8, 9, 11, 4, 1]))) = some (true, some [1], true) := by
    decide +kernel
  obtain ⟨net, hnet, hfacts⟩ := Option.map_eq_some_iff.mp hload
  rw [Prod.mk.injEq, Prod.mk.injEq, decide_eq_true_eq] at hfacts
  obtain ⟨hlive, hfollows, hregion⟩ := hfacts
  have hok := eq_ok_of_toOption hfollows
  have hmade : net.contextOf (.ofCalls [2]) 1 = .ok (followContext [1]) :=
    bind_eq_ok.mpr ⟨_, hok, rfl⟩
  have hwithin : Lookahead.Within [6, 7, 8, 9, 11, 4, 1] ⟨6, [1]⟩ := ⟨by decide, by decide⟩
  obtain ⟨hnext, hclimbed⟩ := passesNone_of_callFree hregion hok hwithin
  obtain ⟨tokens, htokens⟩ := Network.expectedTokens_eq_nextTokens (eq_ok_of_toOption hnet) hlive
    hmade hnext hclimbed .fresh
  exact ⟨net, tokens, eq_ok_of_toOption hnet, htokens⟩

end TransitionNetwork
