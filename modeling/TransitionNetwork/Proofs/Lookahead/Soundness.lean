import TransitionNetwork.Proofs.Lookahead.Configurations
import TransitionNetwork.Proofs.Sequences

/-!
# What a walk finds

Every token that a walk collects is contributed by a configuration that can be reached from its
start, and a call that it passes over is made in one. The pruning of the walk plays no part in this:
a walk only ever goes where a configuration leads.
-/

namespace TransitionNetwork

namespace Lookahead

variable [NodeDigest] {net : Network} {options : WalkOptions} {start : Configuration}
  {id : StateId} {s : State} {context : Option Context} {w w' : Walk}

/-- A property that a walk from the start keeps, which goes only where one can reach: where it has
been and which calls are open is of no account. -/
structure Kept (net : Network) (options : WalkOptions) (start : Configuration) (P : Walk → Prop) :
    Prop where
  of_found : ∀ {w w' : Walk}, P w → w'.tokens = w.tokens → w'.passedCall = w.passedCall → P w'
  collect : ∀ {w : Walk} {k : Configuration} {token : TokenType}, P w →
    Reaches net options start k → Contributes net options k token → P (w.collect token)
  collectAll : ∀ {w : Walk} {k : Configuration} {tokens : IntervalSet}, P w →
    Reaches net options start k →
    (∀ token, tokens.contains token = true → Contributes net options k token) →
    P (w.collectAll tokens)
  passOver : ∀ {w : Walk} {k : Configuration} {s : State} {t : Transition}, P w →
    Reaches net options start k → net.state? k.state = some s → t ∈ s.transitions →
    t.follow?.isSome → P { w with passedCall := true }

/-- A visit of what can be reached keeps the property. -/
def VisitKeeps (net : Network) (options : WalkOptions) (start : Configuration) (P : Walk → Prop)
    (visit : Visit) : Prop :=
  ∀ id context w w', Reaches net options start ⟨id, context⟩ → P w →
    visit id context w = some w' → P w'

namespace Kept

variable {P : Walk → Prop} {go : Visit}

/-- Following a transition keeps the property. -/
theorem followTransition (hkept : Kept net options start P)
    (hgo : VisitKeeps net options start P go)
    (hreaches : Reaches net options start ⟨id, context⟩) (hstate : net.state? id = some s)
    (hgoes : GoesOn options id s context) {t : Transition} (ht : t ∈ s.transitions) (hw : P w)
    (h : followTransition net options go context w t = some w') : P w' := by
  have hedge (k : Configuration) (hleads : EdgeLeads options context t k) :
      Reaches net options start k := hreaches.step (.edge hstate hgoes ht hleads)
  rcases calls_or_moves_or_blocks_or_consumes options t with
    ⟨rule, level, follow, hkind⟩ | hmoves | hblocks | hconsumes
  · cases hopen : w.called.contains rule with
    | true =>
      rw [followTransition_of_open hkind hopen] at h
      cases h
      exact hkept.passOver hw hreaches hstate ht (by simp [Transition.follow?, hkind])
    | false =>
      rw [followTransition_of_call hkind hopen] at h
      obtain ⟨w'', hvisited, rfl⟩ := Option.map_eq_some_iff.mp h
      -- Opening and closing a call is of no account for the property.
      have hopened : P ((w.push context follow).2.openCall rule) := hkept.of_found hw rfl rfl
      exact hkept.of_found (hgo _ _ _ _ (hedge _ (.call w.next hkind)) hopened hvisited) rfl rfl
  · rw [followTransition_of_moves hmoves] at h
    exact hgo _ _ _ _ (hedge _ (.move hmoves)) hw h
  · rw [followTransition_of_blocks hblocks] at h
    cases h
    exact hkept.collect hw hreaches (.edge hstate hgoes ht (Or.inr ⟨hblocks, rfl⟩))
  · rw [followTransition_of_consumes hconsumes] at h
    cases h
    exact hkept.collectAll hw hreaches fun token htoken =>
      .edge hstate hgoes ht (Or.inl ((t.contains_consumed net token).mp htoken))

/-- Returning through an entry keeps the property. -/
theorem returnTo (hkept : Kept net options start P) (hgo : VisitKeeps net options start P go)
    (hreaches : Reaches net options start ⟨id, context⟩) (hstate : net.state? id = some s)
    {c : Context} (hreturns : Returns s context c) {e : Entry Context} (he : e ∈ c.entries)
    (hw : P w) (h : returnTo options go w e = some w') : P w' := by
  unfold Lookahead.returnTo at h
  split at h
  next hbottom =>
    cases h
    split
    next heof => exact hkept.collect hw hreaches (.bottom hstate hreturns he hbottom heof)
    next heof => exact hw
  · split at h
    · cases h
      exact hw
    next hnonneg =>
      exact hgo _ _ _ _ (hreaches.step (.back hstate hreturns he (by omega))) hw h

/-- Leaving a state keeps the property. -/
theorem leaveState (hkept : Kept net options start P) (hgo : VisitKeeps net options start P go)
    (hreaches : Reaches net options start ⟨id, context⟩) (hstate : net.state? id = some s)
    (hw : P w) (h : leaveState net options go id s context w = some w') : P w' := by
  rcases endsWith_or_returns_or_goesOn options id s context with
    ⟨token, hends⟩ | ⟨c, hreturns⟩ | hgoes
  · rw [leaveState_of_endsWith go hends] at h
    cases h
    exact hkept.collect hw hreaches (.ends hstate hends)
  · rw [leaveState_of_returns go hreturns] at h
    have hfold {w w' : Walk} (hw : P w)
        (h : c.entries.foldlM (Lookahead.returnTo options go) w = some w') : P w' :=
      foldlM_keeps (fun e he _ _ hw h => hkept.returnTo hgo hreaches hstate hreturns he hw h) hw h
    unfold returnThrough at h
    split at h
    next rule _ =>
      obtain ⟨w'', hreturned, hopened⟩ := Option.bind_eq_some_iff.mp h
      cases hopened
      have hclosed : P (w.closeCall rule) := hkept.of_found hw rfl rfl
      exact hkept.of_found (hfold hclosed hreturned) rfl rfl
    · exact hfold hw h
  · rw [leaveState_of_goesOn go hgoes] at h
    exact foldlM_keeps (fun t ht _ _ hw h =>
      hkept.followTransition hgo hreaches hstate hgoes ht hw h) hw h

/-- A visit of any depth keeps the property. -/
theorem visit (hkept : Kept net options start P) (depth : Nat) :
    VisitKeeps net options start P (visit net options depth) := by
  induction depth with
  | zero =>
    intro id context w w' _ _ h
    cases h
  | succ depth ih =>
    intro id context w w' hreaches hw h
    have hentered : P (w.enter ⟨id, context⟩) := hkept.of_found hw rfl rfl
    cases hhas : w.entered.has id context with
    | true =>
      rw [visit_of_has depth hhas] at h
      cases h
      exact hw
    | false =>
      cases hstate : net.state? id with
      | none =>
        rw [visit_of_state?_eq_none depth hhas hstate] at h
        cases h
        exact hentered
      | some s =>
        rw [visit_of_state? depth hhas hstate] at h
        exact hkept.leaveState ih hreaches hstate hentered h

/-- A walk keeps the property if it holds of walks that have not begun. -/
theorem walk (hkept : Kept net options ⟨id, context⟩ P) (hstart : ∀ next, P (.start next)) :
    P (walk net options id context) := by
  rw [Lookahead.walk]
  cases hvisit : Lookahead.visit net options (depthBound net context) id context
      (.start (freshId context)) with
  | none => exact hstart _
  | some w => exact hkept.visit _ id context _ w .refl (hstart _) hvisit

end Kept

/-! ## Collected tokens -/

/-- The tokens so far are contributed by configurations that can be reached. -/
structure Collected (net : Network) (options : WalkOptions) (start : Configuration) (w : Walk) :
    Prop where
  canonical : IntervalSet.Canonical w.tokens.intervals
  contributed : ∀ token, w.tokens.contains token = true →
    ∃ k, Reaches net options start k ∧ Contributes net options k token

/-- Nothing is collected when a walk starts. -/
theorem collected_start (net : Network) (options : WalkOptions) (start : Configuration)
    (next : NodeId) : Collected net options start (.start next) where
  canonical := .nil
  contributed token htoken := by cases htoken

namespace Collected

/-- Only the tokens are of account. -/
theorem of_tokens (hw : Collected net options start w) (htokens : w'.tokens = w.tokens) :
    Collected net options start w' := by
  refine ⟨?_, ?_⟩
  · rw [htokens]
    exact hw.canonical
  · rw [htokens]
    exact hw.contributed

/-- A contributed token may be collected. -/
theorem collect (hw : Collected net options start w) {k : Configuration} {token : TokenType}
    (hreaches : Reaches net options start k) (htoken : Contributes net options k token) :
    Collected net options start (w.collect token) := by
  refine ⟨hw.canonical.insert token, fun other hother => ?_⟩
  rw [Walk.collect, IntervalSet.contains_insert hw.canonical] at hother
  rcases hother with rfl | hother
  · exact ⟨k, hreaches, htoken⟩
  · exact hw.contributed other hother

/-- A set of contributed tokens may be collected. -/
theorem collectAll (hw : Collected net options start w) {k : Configuration} {tokens : IntervalSet}
    (hreaches : Reaches net options start k)
    (htokens : ∀ token, tokens.contains token = true → Contributes net options k token) :
    Collected net options start (w.collectAll tokens) := by
  refine ⟨hw.canonical.union tokens, fun other hother => ?_⟩
  rw [Walk.collectAll, IntervalSet.contains_union hw.canonical] at hother
  rcases hother with hother | hother
  · exact hw.contributed other hother
  · exact ⟨k, hreaches, htokens other hother⟩

end Collected

/-- A walk collects only what reachable configurations contribute, step after step. -/
theorem kept_collected (net : Network) (options : WalkOptions) (start : Configuration) :
    Kept net options start (Collected net options start) where
  of_found hw htokens _ := hw.of_tokens htokens
  collect hw := hw.collect
  collectAll hw := hw.collectAll
  passOver hw _ _ _ _ := hw.of_tokens rfl

/-- A walk collects only contributed tokens. -/
theorem collected_walk (net : Network) (options : WalkOptions) (id : StateId)
    (context : Option Context) :
    Collected net options ⟨id, context⟩ (walk net options id context) :=
  (kept_collected net options _).walk (collected_start net options _)

/-! ## Passed calls -/

/-- If a call was passed over, then one is made in a state that can be reached. -/
def PassedReached (net : Network) (options : WalkOptions) (start : Configuration) (w : Walk) :
    Prop :=
  w.passedCall = true → ∃ k s t, Reaches net options start k ∧ net.state? k.state = some s ∧
    t ∈ s.transitions ∧ t.follow?.isSome

/-- A walk passes over a call only where a reachable configuration makes one. -/
theorem kept_passedReached (net : Network) (options : WalkOptions) (start : Configuration) :
    Kept net options start (PassedReached net options start) where
  of_found hw _ hpassed h := hw (hpassed ▸ h)
  collect hw _ _ := hw
  collectAll hw _ _ := hw
  passOver _ hreaches hstate ht hcalls _ := ⟨_, _, _, hreaches, hstate, ht, hcalls⟩

/-- A walk passes over a call only if a call can be reached. -/
theorem passedReached_walk (net : Network) (options : WalkOptions) (id : StateId)
    (context : Option Context) :
    PassedReached net options ⟨id, context⟩ (walk net options id context) :=
  (kept_passedReached net options _).walk fun _ h => by cases h

end Lookahead

end TransitionNetwork
