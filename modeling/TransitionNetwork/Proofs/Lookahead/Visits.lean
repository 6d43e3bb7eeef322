import Mathlib.Data.Set.Finite.Lattice
import Mathlib.Logic.Relation
import TransitionNetwork.Proofs.Lookahead.Configurations
import TransitionNetwork.Proofs.Sequences

/-!
# Visits within visits

A visit makes further visits: one for each transition that it follows and each entry through which
it returns, and each of them goes on with the walk that the earlier ones have left. The depth to
which a visit may go only says whether it has a result: a result that it has to some depth it has
to every greater one. Itself a visit makes finitely many further ones.
-/

namespace TransitionNetwork

namespace Lookahead

/-! ## Leaving a rule -/

/-- The walk while one returns from a rule, whose call is not open meanwhile. -/
def Walk.leave (w : Walk) (rule : Option RuleIndex) : Walk :=
  match rule.filter fun rule => w.called.contains rule with
  | some rule => w.closeCall rule
  | none => w

/-- The walk once one has returned from a rule, whose call is open again if it was. -/
def Walk.resume (left : Walk) (rule : Option RuleIndex) (w : Walk) : Walk :=
  match rule.filter fun rule => left.called.contains rule with
  | some rule => w.openCall rule
  | none => w

/-- Leaving a rule enters nothing. -/
theorem entered_leave (w : Walk) (rule : Option RuleIndex) : (w.leave rule).entered = w.entered := by
  rw [Walk.leave]
  split <;> rfl

/-- Opening a call again enters nothing. -/
theorem entered_resume (left : Walk) (rule : Option RuleIndex) (w : Walk) :
    (left.resume rule w).entered = w.entered := by
  rw [Walk.resume]
  split <;> rfl

variable [NodeDigest] {net : Network} {options : WalkOptions} {w w' : Walk} {id : StateId}
  {s : State} {context : Option Context} {go go' : Visit} {t : Transition}

omit [NodeDigest] in
/-- Returning goes through the entries one after the other, with the call of the rule closed. -/
theorem returnThrough_eq (rule : Option RuleIndex) (c : Context) (w : Walk) :
    returnThrough options go rule c w =
      (c.entries.foldlM (returnTo options go) (w.leave rule)).map (w.resume rule) := by
  unfold returnThrough Walk.leave Walk.resume
  cases rule.filter fun rule => w.called.contains rule with
  | some rule =>
    rw [Option.map_eq_bind]
    rfl
  | none => exact Option.map_id'.symm

/-! ## Greater depths -/

/-- The second visit has every result that the first one has. -/
def Visit.Le (go go' : Visit) : Prop :=
  ∀ id context w w', go id context w = some w' → go' id context w = some w'

/-- Where following a transition has a result, it has the same with a visit that goes deeper. -/
theorem followTransition_le (hle : go.Le go')
    (h : followTransition net options go context w t = some w') :
    followTransition net options go' context w t = some w' := by
  rcases calls_or_moves_or_blocks_or_consumes options t with
    ⟨rule, level, follow, hkind⟩ | hmoves | hblocks | hconsumes
  · cases hopen : w.called.contains rule with
    | true =>
      rw [followTransition_of_open hkind hopen] at h ⊢
      exact h
    | false =>
      rw [followTransition_of_call hkind hopen, Option.map_eq_some_iff] at h ⊢
      obtain ⟨left, hleft, heq⟩ := h
      exact ⟨left, hle _ _ _ _ hleft, heq⟩
  · rw [followTransition_of_moves hmoves] at h ⊢
    exact hle _ _ _ _ h
  · rw [followTransition_of_blocks hblocks] at h ⊢
    exact h
  · rw [followTransition_of_consumes hconsumes] at h ⊢
    exact h

omit [NodeDigest] in
/-- Where returning through an entry has a result, it has the same with a visit that goes deeper. -/
theorem returnTo_le (hle : go.Le go') {e : Entry Context} (h : returnTo options go w e = some w') :
    returnTo options go' w e = some w' := by
  unfold returnTo at h ⊢
  split
  next hbottom =>
    rw [if_pos hbottom] at h
    exact h
  next hbottom =>
    rw [if_neg hbottom] at h
    split
    next hnegative =>
      rw [if_pos hnegative] at h
      exact h
    next hnegative =>
      rw [if_neg hnegative] at h
      exact hle _ _ _ _ h

/-- Where leaving a state has a result, it has the same with a visit that goes deeper. -/
theorem leaveState_le (hle : go.Le go') (h : leaveState net options go id s context w = some w') :
    leaveState net options go' id s context w = some w' := by
  rcases endsWith_or_returns_or_goesOn options id s context with
    ⟨token, hends⟩ | ⟨c, hreturns⟩ | hgoes
  · rw [leaveState_of_endsWith _ hends] at h ⊢
    exact h
  · rw [leaveState_of_returns _ hreturns, returnThrough_eq, Option.map_eq_some_iff] at h ⊢
    obtain ⟨left, hleft, heq⟩ := h
    exact ⟨left, foldlM_eq_some_of_imp (fun _ _ _ => returnTo_le hle) hleft, heq⟩
  · rw [leaveState_of_goesOn _ hgoes] at h ⊢
    exact foldlM_eq_some_of_imp (fun _ _ _ => followTransition_le hle) h

/-- A visit to one more level finds what the one before found. -/
theorem visit_le_succ (net : Network) (options : WalkOptions) (depth : Nat) :
    (visit net options depth).Le (visit net options (depth + 1)) := by
  induction depth with
  | zero =>
    intro id context w w' h
    cases h
  | succ depth ih =>
    intro id context w w' h
    cases hhas : w.entered.has id context with
    | true =>
      rw [visit_of_has _ hhas] at h ⊢
      exact h
    | false =>
      cases hstate : net.state? id with
      | none =>
        rw [visit_of_state?_eq_none _ hhas hstate] at h ⊢
        exact h
      | some s =>
        rw [visit_of_state? _ hhas hstate] at h ⊢
        exact leaveState_le ih h

/-- The result that a visit has to some depth it has to every greater one. -/
theorem visit_le {depth depth' : Nat} (hdepth : depth ≤ depth') :
    (visit net options depth).Le (visit net options depth') := by
  induction hdepth with
  | refl => exact fun _ _ _ _ h => h
  | step _ ih => exact fun _ _ _ _ h => visit_le_succ net options _ _ _ _ _ (ih _ _ _ _ h)

/-- Transitions that are followed to some depth are followed alike to every greater one. -/
theorem foldlM_followTransition_le {depth depth' : Nat} (hdepth : depth ≤ depth')
    {ts : List Transition}
    (h : ts.foldlM (followTransition net options (visit net options depth) context) w = some w') :
    ts.foldlM (followTransition net options (visit net options depth') context) w = some w' :=
  foldlM_eq_some_of_imp (fun _ _ _ => followTransition_le (visit_le hdepth)) h

/-- One returns through entries to every greater depth as to some depth. -/
theorem foldlM_returnTo_le {depth depth' : Nat} (hdepth : depth ≤ depth') {es : List (Entry Context)}
    (h : es.foldlM (returnTo options (visit net options depth)) w = some w') :
    es.foldlM (returnTo options (visit net options depth')) w = some w' :=
  foldlM_eq_some_of_imp (fun _ _ _ => returnTo_le (visit_le hdepth)) h

/-! ## Visits made by a visit -/

/-- The walk once the transitions of a state before an index have been followed, to some depth. -/
def Followed (net : Network) (options : WalkOptions) (s : State) (context : Option Context)
    (i : Nat) (w w' : Walk) : Prop :=
  ∃ depth, (s.transitions.take i).foldlM
    (followTransition net options (visit net options depth) context) w = some w'

/-- The walk once one has returned through the entries before an index, to some depth. -/
def Returned (net : Network) (options : WalkOptions) (c : Context) (i : Nat) (w w' : Walk) : Prop :=
  ∃ depth, (c.entries.take i).foldlM (returnTo options (visit net options depth)) w = some w'

/-- The walk before a transition does not depend on the depth. -/
theorem Followed.unique {i : Nat} {w₁ w₂ : Walk} (h₁ : Followed net options s context i w w₁)
    (h₂ : Followed net options s context i w w₂) : w₁ = w₂ := by
  obtain ⟨depth₁, h₁⟩ := h₁
  obtain ⟨depth₂, h₂⟩ := h₂
  have h₁' := foldlM_followTransition_le (Nat.le_max_left depth₁ depth₂) h₁
  have h₂' := foldlM_followTransition_le (Nat.le_max_right depth₁ depth₂) h₂
  exact Option.some.inj (h₁'.symm.trans h₂')

/-- The walk before an entry does not depend on the depth. -/
theorem Returned.unique {c : Context} {i : Nat} {w₁ w₂ : Walk}
    (h₁ : Returned net options c i w w₁) (h₂ : Returned net options c i w w₂) : w₁ = w₂ := by
  obtain ⟨depth₁, h₁⟩ := h₁
  obtain ⟨depth₂, h₂⟩ := h₂
  have h₁' := foldlM_returnTo_le (Nat.le_max_left depth₁ depth₂) h₁
  have h₂' := foldlM_returnTo_le (Nat.le_max_right depth₁ depth₂) h₂
  exact Option.some.inj (h₁'.symm.trans h₂')

/-- A visit that a walk makes: where, and what the walk is before it. -/
structure Frame where
  place : Configuration
  walk : Walk

namespace Frame

/-- The result of a visit to a depth. -/
def result (net : Network) (options : WalkOptions) (depth : Nat) (f : Frame) : Option Walk :=
  visit net options depth f.place.state f.place.context f.walk

/-- The visit that a visit makes itself at the transition or the entry with an index. It makes some
only if its place was not entered before. -/
inductive VisitsAt (net : Network) (options : WalkOptions) (i : Nat) : Frame → Frame → Prop
  /-- A transition is followed that consumes nothing and calls no rule. -/
  | move {id : StateId} {context : Option Context} {w w' : Walk} {s : State} {t : Transition}
      (hnew : w.entered.has id context = false) (hstate : net.state? id = some s)
      (hgoes : GoesOn options id s context)
      (hbefore : Followed net options s context i (w.enter ⟨id, context⟩) w')
      (ht : s.transitions[i]? = some t) (hmoves : moves options t.kind = true) :
      VisitsAt net options i ⟨⟨id, context⟩, w⟩ ⟨⟨t.target, context⟩, w'⟩
  /-- A rule is called of which no call is open. -/
  | call {id : StateId} {context : Option Context} {w w' : Walk} {s : State} {t : Transition}
      {rule : RuleIndex} {level : Int} {follow : StateId}
      (hnew : w.entered.has id context = false) (hstate : net.state? id = some s)
      (hgoes : GoesOn options id s context)
      (hbefore : Followed net options s context i (w.enter ⟨id, context⟩) w')
      (ht : s.transitions[i]? = some t) (hkind : t.kind = .rule rule level follow)
      (hopen : w'.called.contains rule = false) :
      VisitsAt net options i ⟨⟨id, context⟩, w⟩
        ⟨⟨t.target, some (w'.push context follow).1⟩, (w'.push context follow).2.openCall rule⟩
  /-- The rule returns through an entry of the context. -/
  | back {id : StateId} {context : Option Context} {w w' : Walk} {s : State} {c : Context}
      {e : Entry Context} (hnew : w.entered.has id context = false)
      (hstate : net.state? id = some s) (hreturns : Returns s context c)
      (hbefore : Returned net options c i ((w.enter ⟨id, context⟩).leave s.rule) w')
      (he : c.entries[i]? = some e) (hreturn : 0 ≤ e.returnState) :
      VisitsAt net options i ⟨⟨id, context⟩, w⟩ ⟨⟨e.returnState.toNat, e.parent⟩, w'⟩

/-- The visits that a visit makes itself. -/
def Visits (net : Network) (options : WalkOptions) (f f' : Frame) : Prop :=
  ∃ i, VisitsAt net options i f f'

variable {f f' f'' : Frame} {depth : Nat}

/-! ### Steps of a visit -/

/-- A step of a visit does without a further visit and enters nothing, or it makes one visit and,
apart from open calls, has its result. -/
def Makes (net : Network) (options : WalkOptions) (i : Nat) (f : Frame) (w : Walk)
    (step : Visit → Option Walk) : Prop :=
  (∃ w', w'.entered = w.entered ∧ ∀ depth, step (visit net options depth) = some w') ∨
    ∃ f' after, VisitsAt net options i f f' ∧ f'.walk.entered = w.entered ∧
      (∀ v : Walk, (after v).entered = v.entered) ∧
      ∀ depth, step (visit net options depth) = (f'.result net options depth).map after

/-- Following a transition makes at most one visit. -/
theorem makes_followTransition (hnew : w.entered.has id context = false)
    (hstate : net.state? id = some s) (hgoes : GoesOn options id s context) {i : Nat}
    (hbefore : Followed net options s context i (w.enter ⟨id, context⟩) w')
    (ht : s.transitions[i]? = some t) :
    Makes net options i ⟨⟨id, context⟩, w⟩ w' (followTransition net options · context w' t) := by
  rcases calls_or_moves_or_blocks_or_consumes options t with
    ⟨rule, level, follow, hkind⟩ | hmoves | hblocks | hconsumes
  · cases hopen : w'.called.contains rule with
    | true =>
      exact .inl ⟨{ w' with passedCall := true }, rfl,
        fun depth => followTransition_of_open hkind hopen⟩
    | false =>
      exact .inr ⟨_, (Walk.closeCall · rule), .call hnew hstate hgoes hbefore ht hkind hopen, rfl,
        fun _ => rfl, fun depth => followTransition_of_call hkind hopen⟩
  · exact .inr ⟨_, fun v => v, .move hnew hstate hgoes hbefore ht hmoves, rfl, fun _ => rfl,
      fun depth => (followTransition_of_moves hmoves).trans Option.map_id'.symm⟩
  · exact .inl ⟨w'.collect Token.invalid, rfl, fun depth => followTransition_of_blocks hblocks⟩
  · exact .inl ⟨w'.collectAll (t.consumed net.vocabulary), rfl,
      fun depth => followTransition_of_consumes hconsumes⟩

/-- Returning through an entry makes at most one visit. -/
theorem makes_returnTo (hnew : w.entered.has id context = false) (hstate : net.state? id = some s)
    {c : Context} (hreturns : Returns s context c) {i : Nat}
    (hbefore : Returned net options c i ((w.enter ⟨id, context⟩).leave s.rule) w')
    {e : Entry Context} (he : c.entries[i]? = some e) :
    Makes net options i ⟨⟨id, context⟩, w⟩ w' (returnTo options · w' e) := by
  unfold returnTo
  split
  next =>
    refine .inl ⟨_, ?_, fun depth => rfl⟩
    split <;> rfl
  next =>
    split
    next => exact .inl ⟨w', rfl, fun depth => rfl⟩
    next hnonneg =>
      exact .inr ⟨_, fun v => v, .back hnew hstate hreturns hbefore he (Int.not_lt.mp hnonneg), rfl,
        fun _ => rfl, fun depth => Option.map_id'.symm⟩

/-! ### Finitely many visits -/

/-- At an index a visit makes one visit. -/
theorem VisitsAt.unique {i : Nat} (h : VisitsAt net options i f f')
    (h' : VisitsAt net options i f f'') : f' = f'' := by
  cases h with
  | move hnew hstate hgoes hbefore ht hmoves =>
    cases h' with
    | move hnew' hstate' hgoes' hbefore' ht' hmoves' =>
      -- The walk before the transition does not depend on the depth at which it was made.
      cases hstate.symm.trans hstate'
      cases ht.symm.trans ht'
      cases hbefore.unique hbefore'
      rfl
    | call hnew' hstate' hgoes' hbefore' ht' hkind' =>
      cases hstate.symm.trans hstate'
      cases ht.symm.trans ht'
      simp [moves, hkind'] at hmoves
    | back hnew' hstate' hreturns' =>
      cases hstate.symm.trans hstate'
      exact (hgoes.2 _ hreturns').elim
  | call hnew hstate hgoes hbefore ht hkind =>
    cases h' with
    | move hnew' hstate' hgoes' hbefore' ht' hmoves' =>
      cases hstate.symm.trans hstate'
      cases ht.symm.trans ht'
      simp [moves, hkind] at hmoves'
    | call hnew' hstate' hgoes' hbefore' ht' hkind' =>
      cases hstate.symm.trans hstate'
      cases ht.symm.trans ht'
      cases hkind.symm.trans hkind'
      cases hbefore.unique hbefore'
      rfl
    | back hnew' hstate' hreturns' =>
      cases hstate.symm.trans hstate'
      exact (hgoes.2 _ hreturns').elim
  | back hnew hstate hreturns hbefore he =>
    cases h' with
    | move hnew' hstate' hgoes' =>
      cases hstate.symm.trans hstate'
      exact (hgoes'.2 _ hreturns).elim
    | call hnew' hstate' hgoes' =>
      cases hstate.symm.trans hstate'
      exact (hgoes'.2 _ hreturns).elim
    | back hnew' hstate' hreturns' hbefore' he' =>
      cases hstate.symm.trans hstate'
      cases hreturns.2.1.symm.trans hreturns'.2.1
      cases he.symm.trans he'
      cases hbefore.unique hbefore'
      rfl

/-- The indices at which a visit makes visits are bounded. -/
theorem exists_index_lt (net : Network) (options : WalkOptions) (f : Frame) :
    ∃ n, ∀ i f', VisitsAt net options i f f' → i < n := by
  obtain ⟨⟨id, context⟩, w⟩ := f
  refine ⟨((net.state? id).map fun s => s.transitions.length).getD 0 +
    (context.map Context.size).getD 0, fun i f' h => ?_⟩
  cases h with
  | move hnew hstate hgoes hbefore ht =>
    rw [hstate, Option.map_some, Option.getD_some]
    exact Nat.lt_add_right _ (List.getElem?_eq_some_iff.mp ht).1
  | call hnew hstate hgoes hbefore ht =>
    rw [hstate, Option.map_some, Option.getD_some]
    exact Nat.lt_add_right _ (List.getElem?_eq_some_iff.mp ht).1
  | back hnew hstate hreturns hbefore he =>
    rw [hreturns.2.1, Option.map_some, Option.getD_some]
    exact Nat.lt_add_left _ (List.getElem?_eq_some_iff.mp he).1

/-- A visit makes finitely many visits itself. -/
theorem finite_visits (net : Network) (options : WalkOptions) (f : Frame) :
    {f' | f.Visits net options f'}.Finite := by
  obtain ⟨n, hn⟩ := exists_index_lt net options f
  have hfinite (i : Nat) : {f' | VisitsAt net options i f f'}.Finite :=
    Set.Subsingleton.finite fun _ h _ h' => h.unique h'
  refine ((Set.finite_lt_nat n).biUnion fun i _ => hfinite i).subset ?_
  rintro f' ⟨i, h⟩
  exact Set.mem_biUnion (hn i f' h) h

end Frame

end Lookahead

end TransitionNetwork
