import TransitionNetwork.Lookahead.Query
import TransitionNetwork.Proofs.Context.Sessions
import TransitionNetwork.Proofs.Lookahead.Completeness
import TransitionNetwork.Proofs.Lookahead.Soundness

/-!
# Exactness of lookahead

The tokens that can follow a state under a context are contributed by configurations that can be
reached from there. They are all the contributed tokens unless the walk passed over a call because a
call of the same rule was open, as it does in left recursion.
-/

namespace TransitionNetwork

namespace Lookahead

/-- A lookahead goes on behind predicates and collects the end of the input. -/
def lookOptions (stop : Option StateId) : WalkOptions :=
  { stop, throughPredicates := true, collectsEof := true }

/-! ## Walks that pass over no call -/

variable [NodeDigest] {net : Network} {options : WalkOptions} {id : StateId} {s : State}
  {context : Option Context}

omit [NodeDigest] in
/-- Without a stop state a walk goes on from a basic state. -/
theorem goesOn_of_basic (hstop : options.stop = none) (hkind : s.kind = .basic) :
    GoesOn options id s context := by
  constructor <;> simp [EndsWith, Returns, AtEnd, hstop, hkind, StateKind.isRuleStop]

/-- Nothing is entered when a walk starts. -/
theorem has_start (next : NodeId) (id : StateId) (context : Option Context) :
    (Walk.start next).entered.has id context = false := by
  simp [Walk.start, Entered.has]

/-- A walk from a state that only calls a rule, which begins by consuming, passes over no call. -/
theorem passedCall_walk_of_call {callee : State} {call t : Transition} {rule : RuleIndex}
    {level : Int} {follow : StateId} (hstop : options.stop = none)
    (hstate : net.state? id = some s) (hkind : s.kind = .basic) (hcalls : s.transitions = [call])
    (hcall : call.kind = .rule rule level follow) (hne : id ≠ call.target)
    (hcallee : net.state? call.target = some callee) (hbasic : callee.kind = .basic)
    (hbegins : callee.transitions = [t]) (hconsumes : t.isEpsilon = false) :
    (walk net options id (some .empty)).passedCall = false := by
  obtain ⟨depth, hdepth⟩ : ∃ depth, depthBound net (some .empty) = depth + 2 := ⟨_, rfl⟩
  have hentered (context : Context) :
      ((((Walk.start (freshId (some .empty))).enter ⟨id, some .empty⟩).push (some .empty)
        follow).2.openCall rule).entered.has call.target (some context) = false := by
    simp [Walk.start, Walk.enter, Walk.push, Walk.openCall, Entered.has, Entered.add, Entered.key,
      Std.HashMap.getD_insert, hne]
  have hclosed : ((Walk.start (freshId (some .empty))).enter
      ⟨id, some .empty⟩).called.contains rule = false := by
    simp [Walk.start, Walk.enter]
  rw [walk, hdepth, visit_of_state? (depth + 1) (has_start _ _ _) hstate,
    leaveState_of_goesOn _ (goesOn_of_basic hstop hkind), followAll, hcalls, List.foldlM_cons,
    followTransition_of_call hcall hclosed, visit_of_state? depth (hentered _) hcallee,
    leaveState_of_goesOn _ (goesOn_of_basic hstop hbasic), followAll, hbegins, List.foldlM_cons,
    followTransition_of_consumes hconsumes]
  rfl

end Lookahead

namespace Network

open Lookahead

/-- A lookahead from a state with any context of a session holds only contributed tokens, and all
of them if no call was passed over. -/
theorem look_sound_and_exact [NodeDigest] (net : Network) (id : StateId) (stop : Option StateId)
    {s : Session} (hs : s.Reached) {context : Option Context}
    (hcontext : ∀ c ∈ context, c ∈ s.contexts) :
    (∀ token, (net.look id stop context).contains token = true →
      ∃ k, Reaches net (lookOptions stop) ⟨id, context⟩ k ∧
        Contributes net (lookOptions stop) k token) ∧
    ((walk net (lookOptions stop) id context).passedCall = false →
      ∀ token, (net.look id stop context).contains token = true ↔
        ∃ k, Reaches net (lookOptions stop) ⟨id, context⟩ k ∧
          Contributes net (lookOptions stop) k token) := by
  obtain ⟨h, hsound⟩ := hs.sound
  have hheld : h.HoldsParent context := fun c hc => hsound.contexts c (hcontext c hc)
  have hcollected := (collected_walk net (lookOptions stop) id context).contributed
  refine ⟨hcollected, fun hpassed token => ⟨hcollected token, ?_⟩⟩
  rintro ⟨k, hreaches, htoken⟩
  exact (closed_of_reaches hheld hpassed hreaches).1 token htoken

/-- A parser in which a state calls a rule that consumes a token of type 5. -/
def callingNet : Network where
  grammar := .parser
  maxTokenType := 9
  slots := #[
    some { State.new .basic (some 0) with transitions := [⟨1, .rule 1 0 0⟩] },
    some { State.new .basic (some 1) with number := 1, transitions := [.atom 1 5] }]
  decisions := []
  ruleStarts := []
  ruleStops := []
  modeStarts := []
  ruleTokenTypes := []
  lexerActions := []

/-- No call is passed over in it. -/
theorem passedCall_callingNet :
    (walk callingNet (lookOptions none) 0 (some .empty)).passedCall = false :=
  passedCall_walk_of_call rfl rfl rfl rfl rfl Nat.zero_ne_one rfl rfl rfl rfl

/-- The lookahead from the state that calls is exact. -/
theorem look_sound_and_exact_callingNet :
    (walk callingNet (lookOptions none) 0 (some .empty)).passedCall = false ∧
      ∀ token, (callingNet.look 0 none (some .empty)).contains token = true ↔
        ∃ k, Reaches callingNet (lookOptions none) ⟨0, some .empty⟩ k ∧
          Contributes callingNet (lookOptions none) k token :=
  ⟨passedCall_callingNet, (callingNet.look_sound_and_exact 0 none .start
    (by simp [Session.start])).2 passedCall_callingNet⟩

end Network

end TransitionNetwork
