import TransitionNetwork.Proofs.Lookahead.Exactness
import TransitionNetwork.Proofs.Lookahead.Visits

/-!
# Open calls are restored

A visit leaves the open calls as it found them, while the tokens and the entered pairs only grow.
A call is opened before the visit of its rule and closed behind it, and the call of a rule that
returns is closed meanwhile and opened again, so each of the two undoes what it did, whichever rule
the visits between them may end in. All transitions of a state are thus followed with the same open
calls: those with which the state was visited. Nothing is asked of the walk; its tokens need not be
canonical, nor its contexts belong to a history.
-/

namespace TransitionNetwork

namespace Lookahead

/-- The pairs that were entered are kept, in front of which others may stand. -/
def Entered.Grows (entered entered' : Entered) : Prop :=
  ∀ key, entered.getD key [] <:+ entered'.getD key []

/-- A part of a walk keeps what was found and entered, and leaves the open calls as they were. -/
structure Walk.Restores (w w' : Walk) : Prop where
  called : w'.called = w.called
  tokens : ∀ token, w.tokens.contains token = true → w'.tokens.contains token = true
  entered : w.entered.Grows w'.entered

namespace Walk

variable {w w' w'' : Walk}

namespace Restores

/-- Doing nothing restores a walk. -/
theorem refl (w : Walk) : w.Restores w :=
  ⟨rfl, fun _ htoken => htoken, fun _ => List.suffix_rfl⟩

/-- Two parts of a walk that restore the open calls, one after the other, restore them together. -/
theorem trans (h : w.Restores w') (h' : w'.Restores w'') : w.Restores w'' :=
  ⟨h'.called.trans h.called, fun token htoken => h'.tokens token (h.tokens token htoken),
    fun key => (h.entered key).trans (h'.entered key)⟩

end Restores

/-- Collecting a token opens no call. -/
theorem restores_collect (w : Walk) (token : TokenType) : w.Restores (w.collect token) :=
  ⟨rfl, fun _ htoken => IntervalSet.contains_insertRange_of_contains htoken token token,
    fun _ => List.suffix_rfl⟩

/-- Collecting tokens opens no call. -/
theorem restores_collectAll (w : Walk) (tokens : IntervalSet) : w.Restores (w.collectAll tokens) :=
  ⟨rfl, fun _ htoken => IntervalSet.contains_union_of_contains htoken tokens,
    fun _ => List.suffix_rfl⟩

/-- Entering a configuration opens no call. -/
theorem restores_enter [NodeDigest] (w : Walk) (k : Configuration) : w.Restores (w.enter k) := by
  refine ⟨rfl, fun _ htoken => htoken, fun key => ?_⟩
  change w.entered.getD key [] <:+ (w.entered.add k.state k.context).getD key []
  rw [Entered.add, Std.HashMap.getD_insert]
  split
  next hkey => exact beq_iff_eq.mp hkey ▸ List.suffix_cons _ _
  next => exact List.suffix_rfl

/-- What a called rule restores from the opened call on is restored once the call is closed. -/
theorem Restores.closeCall [NodeDigest] {rule : RuleIndex} (hopen : w.called.contains rule = false)
    {context : Option Context} {follow : StateId}
    (h : ((w.push context follow).2.openCall rule).Restores w') :
    w.Restores (w'.closeCall rule) := by
  refine ⟨?_, h.tokens, h.entered⟩
  change w'.called.erase rule = w.called
  rw [h.called]
  exact erase_insert_called hopen

/-- What is restored while one returns from a rule is restored once one has returned. -/
theorem Restores.resume {rule : Option RuleIndex} (h : (w.leave rule).Restores w') :
    w.Restores (w.resume rule w') := by
  unfold Walk.leave at h
  unfold Walk.resume
  cases hfilter : rule.filter fun rule => w.called.contains rule with
  | none =>
    rw [hfilter] at h
    exact h
  | some rule =>
    rw [hfilter] at h
    have hopen : w.called.contains rule = true := (Option.filter_eq_some_iff.mp hfilter).2
    refine ⟨?_, h.tokens, h.entered⟩
    change w'.called.insert rule = w.called
    rw [h.called]
    exact insert_erase_called hopen

end Walk

/-! ## Parts of a visit -/

/-- A visit restores the open calls wherever it has a result. -/
def Visit.Restores (go : Visit) : Prop :=
  ∀ id context w w', go id context w = some w' → w.Restores w'

variable [NodeDigest] {net : Network} {options : WalkOptions} {w w' : Walk} {id : StateId}
  {s : State} {context : Option Context} {go : Visit} {t : Transition} {depth : Nat}

/-- Following a transition closes the call that it opens. -/
theorem restores_followTransition (hgo : go.Restores)
    (h : followTransition net options go context w t = some w') : w.Restores w' := by
  rcases calls_or_moves_or_blocks_or_consumes options t with
    ⟨rule, level, follow, hkind⟩ | hmoves | hblocks | hconsumes
  · cases hopen : w.called.contains rule with
    | true =>
      rw [followTransition_of_open hkind hopen] at h
      cases h
      exact ⟨rfl, fun _ htoken => htoken, fun _ => List.suffix_rfl⟩
    | false =>
      rw [followTransition_of_call hkind hopen, Option.map_eq_some_iff] at h
      obtain ⟨left, hleft, rfl⟩ := h
      exact (hgo _ _ _ _ hleft).closeCall hopen
  · rw [followTransition_of_moves hmoves] at h
    exact hgo _ _ _ _ h
  · rw [followTransition_of_blocks hblocks] at h
    cases h
    exact w.restores_collect _
  · rw [followTransition_of_consumes hconsumes] at h
    cases h
    exact w.restores_collectAll _

omit [NodeDigest] in
/-- Returning through an entry restores the open calls, if the visit of its state does. -/
theorem restores_returnTo (hgo : go.Restores) {e : Entry Context}
    (h : returnTo options go w e = some w') : w.Restores w' := by
  unfold returnTo at h
  split at h
  · cases h
    split
    · exact w.restores_collect _
    · exact .refl w
  · split at h
    · cases h
      exact .refl w
    · exact hgo _ _ _ _ h

omit [NodeDigest] in
/-- Returning through a context restores the call of the rule that returns. -/
theorem restores_returnThrough (hgo : go.Restores) {rule : Option RuleIndex} {c : Context}
    (h : returnThrough options go rule c w = some w') : w.Restores w' := by
  rw [returnThrough_eq, Option.map_eq_some_iff] at h
  obtain ⟨left, hleft, rfl⟩ := h
  exact (holds_of_foldlM (P := (w.leave rule).Restores) (.refl _)
    (fun _ _ _ _ _ _ hbefore hstep => hbefore.trans (restores_returnTo hgo hstep)) hleft).resume

/-- Following transitions one after the other restores the open calls. -/
theorem restores_foldlM_followTransition (hgo : go.Restores) {ts : List Transition}
    (h : ts.foldlM (followTransition net options go context) w = some w') : w.Restores w' :=
  holds_of_foldlM (P := w.Restores) (.refl w)
    (fun _ _ _ _ _ _ hbefore hstep => hbefore.trans (restores_followTransition hgo hstep)) h

/-- Going through the transitions of a state closes all calls that they open. -/
theorem restores_leaveState (hgo : go.Restores)
    (h : leaveState net options go id s context w = some w') : w.Restores w' := by
  rcases endsWith_or_returns_or_goesOn options id s context with
    ⟨token, hends⟩ | ⟨c, hreturns⟩ | hgoes
  · rw [leaveState_of_endsWith _ hends] at h
    cases h
    exact w.restores_collect token
  · rw [leaveState_of_returns _ hreturns] at h
    exact restores_returnThrough hgo h
  · rw [leaveState_of_goesOn _ hgoes] at h
    exact restores_foldlM_followTransition hgo h

/-! ## Whole visits -/

/-- A visit to any depth restores the open calls. -/
theorem restores_visit (net : Network) (options : WalkOptions) (depth : Nat) :
    (visit net options depth).Restores := by
  induction depth with
  | zero =>
    intro id context w w' h
    cases h
  | succ depth ih =>
    intro id context w w' h
    cases hhas : w.entered.has id context with
    | true =>
      rw [visit_of_has depth hhas] at h
      cases h
      exact .refl w
    | false =>
      have henter := w.restores_enter ⟨id, context⟩
      cases hstate : net.state? id with
      | none =>
        rw [visit_of_state?_eq_none depth hhas hstate] at h
        cases h
        exact henter
      | some s =>
        rw [visit_of_state? depth hhas hstate] at h
        exact henter.trans (restores_leaveState ih h)

/-- Every transition of a state is followed with the open calls with which the state was visited. -/
theorem Followed.called {i : Nat} (h : Followed net options s context i w w') :
    w'.called = w.called := by
  obtain ⟨depth, h⟩ := h
  exact (restores_foldlM_followTransition (restores_visit net options depth) h).called

/-- A visit that has a result comes to every transition of a state that it leaves by them, and
follows it. -/
theorem exists_followed {f : Frame} (hresult : f.result net options depth = some w')
    (hnew : f.walk.entered.has f.place.state f.place.context = false)
    (hstate : net.state? f.place.state = some s)
    (hgoes : GoesOn options f.place.state s f.place.context) {i : Nat}
    (ht : s.transitions[i]? = some t) :
    ∃ before after, Followed net options s f.place.context i (f.walk.enter f.place) before ∧
      followTransition net options (visit net options depth) f.place.context before t =
        some after := by
  obtain ⟨⟨id, context⟩, w⟩ := f
  cases depth with
  | zero => cases hresult
  | succ depth =>
    change visit net options (depth + 1) id context w = some w' at hresult
    rw [visit_of_state? depth hnew hstate, leaveState_of_goesOn _ hgoes, followAll,
      ← List.take_append_drop (i + 1) s.transitions, List.foldlM_append, foldlM_take_succ ht,
      Option.bind_eq_bind, Option.bind_eq_some_iff] at hresult
    obtain ⟨after, hafter, -⟩ := hresult
    obtain ⟨before, hbefore, hstep⟩ := Option.bind_eq_some_iff.mp hafter
    exact ⟨before, after, ⟨depth, hbefore⟩,
      followTransition_le (visit_le_succ net options depth) hstep⟩

section

variable {f : Frame} {i : Nat} {rule : RuleIndex} {level : Int} {follow : StateId}
  (hstate : net.state? f.place.state = some s)
  (hgoes : GoesOn options f.place.state s f.place.context) (ht : s.transitions[i]? = some t)
  (hkind : t.kind = .rule rule level follow)

include hstate hgoes ht hkind

/-- A rule is not visited from a state that was visited while a call of it was open. -/
theorem not_visitsAt_of_open (hopen : f.walk.called.contains rule = true) (f' : Frame) :
    ¬ f.VisitsAt net options i f' := by
  intro hvisits
  cases hvisits with
  | move hnew' hstate' hgoes' hbefore' ht' hmoves =>
    cases hstate.symm.trans hstate'
    cases ht.symm.trans ht'
    simp [moves, hkind] at hmoves
  | call hnew' hstate' hgoes' hbefore' ht' hkind' hclosed =>
    cases hstate.symm.trans hstate'
    cases ht.symm.trans ht'
    cases hkind.symm.trans hkind'
    rw [hbefore'.called] at hclosed
    cases hclosed.symm.trans hopen
  | back hnew' hstate' hreturns =>
    cases hstate.symm.trans hstate'
    exact hgoes.2 _ hreturns

/-- Any other rule is visited with the open calls of the state and its own, and that visit has a
result. -/
theorem exists_visitsAt_of_closed (hresult : f.result net options depth = some w')
    (hnew : f.walk.entered.has f.place.state f.place.context = false)
    (hclosed : f.walk.called.contains rule = false) :
    ∃ f', f.VisitsAt net options i f' ∧ f'.place.state = t.target ∧
      f'.walk.called = f.walk.called.insert rule ∧ (f'.result net options depth).isSome := by
  obtain ⟨before, after, hbefore, hafter⟩ := exists_followed hresult hnew hstate hgoes ht
  have hcalled : before.called = f.walk.called := hbefore.called
  rw [← hcalled] at hclosed ⊢
  rw [followTransition_of_call hkind hclosed, Option.map_eq_some_iff] at hafter
  obtain ⟨left, hleft, -⟩ := hafter
  exact ⟨_, .call hnew hstate hgoes hbefore ht hkind hclosed, rfl, rfl,
    Option.isSome_iff_exists.mpr ⟨left, hleft⟩⟩

end

/-- Whatever the walk, a visit that has a result leaves the open calls as they were and keeps the
tokens and the entered pairs, and so does a return through a context. If it follows the transitions
of a state, then a call among them is passed over if a call of the rule was open when the state was
visited, and else it is visited with the calls that were open then and its own. -/
theorem visit_restores_called (net : Network) (options : WalkOptions) (depth : Nat) :
    (∀ id context w w', visit net options depth id context w = some w' → w.Restores w') ∧
    (∀ rule c w w', returnThrough options (visit net options depth) rule c w = some w' →
      w.Restores w') ∧
    ∀ (f : Frame) (w' : Walk) (s : State) (i : Nat) (t : Transition) (rule : RuleIndex)
      (level : Int) (follow : StateId), f.result net options depth = some w' →
      f.walk.entered.has f.place.state f.place.context = false →
      net.state? f.place.state = some s → GoesOn options f.place.state s f.place.context →
      s.transitions[i]? = some t → t.kind = .rule rule level follow →
      if f.walk.called.contains rule then ∀ f', ¬ f.VisitsAt net options i f'
      else ∃ f', f.VisitsAt net options i f' ∧ f'.place.state = t.target ∧
        f'.walk.called = f.walk.called.insert rule ∧ (f'.result net options depth).isSome := by
  refine ⟨restores_visit net options depth,
    fun _ _ _ _ => restores_returnThrough (restores_visit net options depth), ?_⟩
  intro f w' s i t rule level follow hresult hnew hstate hgoes ht hkind
  split
  next hopen => exact not_visitsAt_of_open hstate hgoes ht hkind hopen
  next hclosed =>
    exact exists_visitsAt_of_closed hstate hgoes ht hkind hresult hnew
      (Bool.eq_false_iff.mpr hclosed)

end Lookahead

namespace Network

open Lookahead

/-- A parser whose first state has two calls of one rule, which consumes a token of type 5. -/
def callingTwiceNet : Network :=
  { callingNet with
    slots := #[
      some { State.new .basic (some 0) with transitions := [⟨1, .rule 1 0 0⟩, ⟨1, .rule 1 0 2⟩] },
      some { State.new .basic (some 1) with number := 1, transitions := [.atom 1 5] }] }

/-- The second of two calls of a rule is visited with the open calls of the state and that call,
though the first one has opened a call of that rule. A return that leads nowhere restores the call
of its rule. -/
theorem visit_restores_called_callingTwiceNet :
    let options := lookOptions none
    let first : Frame := ⟨⟨0, some .empty⟩, .start 1⟩
    let within := (Walk.start 2).openCall 1
    (∃ depth w, first.result callingTwiceNet options depth = some w ∧ first.walk.Restores w) ∧
    (∃ depth f', first.VisitsAt callingTwiceNet options 1 f' ∧ f'.place.state = 1 ∧
      f'.walk.called = first.walk.called.insert 1 ∧
      (f'.result callingTwiceNet options depth).isSome) ∧
    ∃ w, returnThrough options (visit callingTwiceNet options 1) (some 1)
      (Context.singleton ⟨some .empty, 7⟩ 1).1 within = some w ∧ within.Restores w := by
  intro options first within
  obtain ⟨h, hsound⟩ := Session.Reached.start.sound
  have hheld : h.HoldsParent (some .empty) := by
    rintro _ ⟨⟩
    exact hsound.contexts _ List.mem_cons_self
  obtain ⟨base, hbase, hready, hfits⟩ := exists_ready_start callingTwiceNet hheld
  obtain ⟨w, hw, -⟩ := completes_visit callingTwiceNet options base
    (depthBound callingTwiceNet (some .empty)) 0 _ _ base hready hfits
    (unentered_start_lt callingTwiceNet hbase)
  have hresult : first.result callingTwiceNet options (depthBound callingTwiceNet (some .empty)) =
      some w := hw
  obtain ⟨hvisits, -, hcalls⟩ := visit_restores_called callingTwiceNet options
    (depthBound callingTwiceNet (some .empty))
  have hsecond := hcalls first w _ 1 _ 1 0 2 hresult (has_start _ _ _) rfl
    (goesOn_of_basic rfl rfl) rfl rfl
  have hreturn : returnThrough options (visit callingTwiceNet options 1) (some 1)
      (Context.singleton ⟨some .empty, 7⟩ 1).1 within =
        some (((within.closeCall 1).enter ⟨7, some .empty⟩).openCall 1) := by
    have hopen : within.called.contains 1 = true := by simp [within, Walk.openCall]
    have hnew : (within.closeCall 1).entered.has 7 (some .empty) = false := has_start _ _ _
    have hvisit : visit callingTwiceNet options 1 7 (some .empty) (within.closeCall 1) =
        some ((within.closeCall 1).enter ⟨7, some .empty⟩) := visit_of_state?_eq_none 0 hnew rfl
    have hloop : (Context.singleton ⟨some .empty, 7⟩ 1).1.entries.foldlM
        (returnTo options (visit callingTwiceNet options 1)) (within.closeCall 1) =
          some ((within.closeCall 1).enter ⟨7, some .empty⟩) :=
      List.foldlM_cons.trans ((bind_pure _).trans hvisit)
    simp only [returnThrough, Option.filter, hopen, if_true, hloop]
    rfl
  refine ⟨⟨_, w, hresult, hvisits _ _ _ _ hw⟩, ?_, ?_⟩
  · rw [if_neg (by simp [first, Walk.start])] at hsecond
    exact ⟨_, hsecond⟩
  · exact ⟨_, hreturn, (visit_restores_called callingTwiceNet options 1).2.1 _ _ _ _ hreturn⟩

end Network

end TransitionNetwork
