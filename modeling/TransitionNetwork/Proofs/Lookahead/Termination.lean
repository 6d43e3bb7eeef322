import TransitionNetwork.Proofs.Context.Sessions
import TransitionNetwork.Proofs.Lookahead.Completeness
import TransitionNetwork.Proofs.Lookahead.Exactness
import TransitionNetwork.Proofs.Lookahead.Visits

/-!
# Termination of walks

On the way down from one visit to the visits that it makes, neither the open calls nor the contexts
tell alone why there is an end: a return closes the call of the rule that is left, whichever call
was pushed last. But a return also takes a state off the context. So the height of the context
exceeds that of the first one by no more than the number of open calls, and hence of the rules that
are called at all. Then only finitely many positions are within reach, and each visit that makes
others enters a new one.
-/

namespace TransitionNetwork

namespace Context

/-! ## Height -/

mutual

/-- The greatest number of states on the stacks of a context. -/
def height : Context → Nat
  | empty => 0
  | node _ _ first rest => max (entryHeight first) (entriesHeight rest) + 1

/-- The height of the rest of the stack under an entry. -/
def entryHeight : Entry Context → Nat
  | ⟨none, _⟩ => 0
  | ⟨some p, _⟩ => p.height

/-- The greatest height of the rests under entries. -/
def entriesHeight : List (Entry Context) → Nat
  | [] => 0
  | e :: rest => max (entryHeight e) (entriesHeight rest)

end

/-- The height of a rest of the stack. -/
def restHeight (p : Option Context) : Nat := (p.map height).getD 0

/-- An entry is as high as the rest of the stack under it. -/
theorem entryHeight_eq (e : Entry Context) : entryHeight e = restHeight e.parent := by
  rcases e with ⟨_ | p, r⟩ <;> simp only [entryHeight] <;> rfl

/-- The rest under an entry is no higher than the greatest of them. -/
theorem restHeight_le_of_mem {e : Entry Context} {es : List (Entry Context)} (he : e ∈ es) :
    restHeight e.parent ≤ entriesHeight es := by
  induction es with
  | nil => cases he
  | cons f rest ih =>
    rw [entriesHeight]
    rcases List.mem_cons.mp he with rfl | he
    · exact (entryHeight_eq e).symm.le.trans (Nat.le_max_left _ _)
    · exact (ih he).trans (Nat.le_max_right _ _)

/-- A return takes a state off. -/
theorem restHeight_le_of_mem_entries {c : Context} {e : Entry Context} (he : e ∈ c.entries) :
    restHeight e.parent ≤ c.height - 1 := by
  cases c with
  | empty =>
    obtain rfl := List.mem_singleton.mp he
    exact Nat.zero_le _
  | node id digest first rest =>
    have hmem := restHeight_le_of_mem he
    simp only [entries, entriesHeight] at hmem
    rw [height]
    omega

/-- A call pushes a state. -/
theorem height_singleton [NodeDigest] (p : Option Context) (state next : Nat) :
    (singleton ⟨p, (state : Int)⟩ next).1.height = restHeight p + 1 := by
  have hstate : (state : Int) ≠ emptyReturn := by
    have hvalue : emptyReturn = -1 := rfl
    omega
  rw [singleton, if_neg fun h => hstate h.2, height, entriesHeight, entryHeight_eq]
  simp

end Context

namespace Lookahead

/-! ## Open calls -/

/-- There are no more open calls than rules that are called. -/
theorem OpenCalls.size_le_card {net : Network} {w : Walk} (h : OpenCalls net w) :
    w.called.size ≤ (calledRules net).toFinset.card := by
  have hnodup : w.called.toList.Nodup :=
    w.called.distinct_toList.imp fun hne heq => hne (by simp [heq])
  have hsubset : w.called.toList.toFinset ⊆ (calledRules net).toFinset := by
    intro rule hrule
    rw [List.mem_toFinset] at hrule ⊢
    exact h rule (Std.ExtTreeSet.mem_toList.mp hrule)
  calc w.called.size = w.called.toList.length := Std.ExtTreeSet.length_toList.symm
    _ = w.called.toList.toFinset.card := (List.toFinset_card_of_nodup hnodup).symm
    _ ≤ (calledRules net).toFinset.card := Finset.card_le_card hsubset

variable [NodeDigest] {net : Network} {options : WalkOptions} {w w' : Walk} {h base : History}
  {context : Option Context} {id : StateId} {s : State} {bound depth : Nat}

/-- Leaving a rule keeps a walk ready. -/
theorem Ready.leave (hready : Ready net base h w) (rule : Option RuleIndex) :
    Ready net base h (w.leave rule) := by
  rw [Walk.leave]
  split
  · exact ⟨hready.later, ⟨hready.sound.next, hready.sound.entered, hready.sound.canonical⟩,
      fun other hother => hready.calls other (Std.ExtTreeSet.mem_erase.mp hother).2⟩
  · exact hready

omit [NodeDigest] in
/-- Leaving a rule closes at most one call. -/
theorem size_le_size_leave (w : Walk) (rule : Option RuleIndex) :
    w.called.size - 1 ≤ (w.leave rule).called.size := by
  rw [Walk.leave]
  split
  · change _ ≤ (w.called.erase _).size
    rw [Std.ExtTreeSet.size_erase]
    split <;> omega
  · exact Nat.sub_le _ _

/-- Transitions that are followed advance the walk. -/
theorem advances_of_followed (hstate : net.state? id = some s) (hready : Ready net base h w)
    (hfits : Fits net base h w context) {i : Nat} (hfollowed : Followed net options s context i w w') :
    Advances net options h w w' := by
  obtain ⟨depth, hfold⟩ := hfollowed
  let enough := max depth (unentered net base w + 1)
  have hdepth : unentered net base w < enough := Nat.le_max_right depth _
  have hstep : ∀ t ∈ s.transitions.take i, ∀ v h', h.Extends h' → v.called = w.called →
      Ready net base h' v → unentered net base v < enough →
      ∃ v', followTransition net options (visit net options enough) context v t = some v' ∧
        Advances net options h' v v' ∧ EdgeClosed net options context t v' := by
    intro t ht v h' hext hcalled hready' hdepth'
    exact exists_followTransition (completes_visit net options base enough) hstate
      (List.mem_of_mem_take ht) hready' (hfits.mono hext hcalled) hdepth'
  have hkept : ∀ t v v', Covers net options v v' → EdgeClosed net options context t v →
      EdgeClosed net options context t v' := fun _ _ _ hcovers hclosed => hclosed.mono hcovers
  obtain ⟨w'', hw'', hadvances, -⟩ := exists_foldlM hkept hstep hready hdepth
  have hsame := (foldlM_followTransition_le (Nat.le_max_left depth _) hfold).symm.trans hw''
  exact Option.some.inj hsame ▸ hadvances

/-- Entries through which one returns advance the walk. -/
theorem advances_of_returned {c : Context} {v : Walk} (hready : Ready net base h v)
    (hfits : Fits net base h w (some c)) (hsize : w.called.size - 1 ≤ v.called.size) {i : Nat}
    (hreturned : Returned net options c i v w') : Advances net options h v w' := by
  obtain ⟨depth, hfold⟩ := hreturned
  let enough := max depth (unentered net base v + 1)
  have hdepth : unentered net base v < enough := Nat.le_max_right depth _
  have hstep : ∀ e ∈ c.entries.take i, ∀ v' h', h.Extends h' → v'.called = v.called →
      Ready net base h' v' → unentered net base v' < enough →
      ∃ v'', returnTo options (visit net options enough) v' e = some v'' ∧
        Advances net options h' v' v'' ∧ ReturnClosed options e v'' := by
    intro e he v' h' hext hcalled hready' hdepth'
    exact exists_returnTo (completes_visit net options base enough) hready'
      ((hfits.parent (List.mem_of_mem_take he) hsize).mono hext hcalled) hdepth'
  have hkept : ∀ e v' v'', Covers net options v' v'' → ReturnClosed options e v' →
      ReturnClosed options e v'' := fun _ _ _ hcovers hclosed => hclosed.mono hcovers
  obtain ⟨w'', hw'', hadvances, -⟩ := exists_foldlM hkept hstep hready hdepth
  have hsame := (foldlM_returnTo_le (Nat.le_max_left depth _) hfold).symm.trans hw''
  exact Option.some.inj hsame ▸ hadvances

namespace Frame

variable {f f' : Frame}

/-! ## What visits keep -/

/-- A visit whose walk may come to its context. The context is higher than the bound by at most the
number of open calls. -/
structure Within (net : Network) (base : History) (bound : Nat) (f : Frame) : Prop where
  ready : ∃ h, Ready net base h f.walk ∧ Fits net base h f.walk f.place.context
  height : Context.restHeight f.place.context ≤ bound + f.walk.called.size

/-- No context is higher than the bound by more than the number of rules that are called. -/
theorem Within.height_le (hf : f.Within net base bound) :
    Context.restHeight f.place.context ≤ bound + (calledRules net).toFinset.card := by
  obtain ⟨h, hready, -⟩ := hf.ready
  exact hf.height.trans (Nat.add_le_add_left hready.calls.size_le_card bound)

/-- A visit of a state that exists to a new place leaves fewer positions. -/
theorem unentered_lt (hready : Ready net base h w) (hfits : Fits net base h w context)
    (hnew : w.entered.has id context = false) (hstate : net.state? id = some s) :
    unentered net base (w.enter ⟨id, context⟩) < unentered net base w := by
  apply unentered_enter_lt
  · exact mem_positionsWithin (Network.lt_size_of_state? hstate) hready.calls.size_le hfits.above
  · rw [← Entered.has_iff hready.sound.entered hfits.held, hnew]
    exact Bool.false_ne_true

/-- What a walk keeps that advances. -/
theorem ready_of_advances (hready : Ready net base h w) (hadvances : Advances net options h w w') :
    ∃ h', h.Extends h' ∧ Ready net base h' w' := by
  obtain ⟨h', hext, hsound⟩ := hadvances.sound
  refine ⟨h', hext, hready.later.trans hext, hsound, ?_⟩
  rw [OpenCalls, hadvances.called]
  exact hready.calls

/-- From a new place, the transitions before an index lead to a later history, with the same calls
open and fewer positions left. -/
theorem exists_ready_of_followed (hready : Ready net base h w) (hfits : Fits net base h w context)
    (hnew : w.entered.has id context = false) (hstate : net.state? id = some s) {i : Nat}
    (hfollowed : Followed net options s context i (w.enter ⟨id, context⟩) w') :
    ∃ h', Ready net base h' w' ∧ Fits net base h' w' context ∧ w'.called = w.called ∧
      unentered net base w' < unentered net base w := by
  have hentered : Fits net base h (w.enter ⟨id, context⟩) context := ⟨hfits.held, hfits.above⟩
  have hadvances := advances_of_followed hstate (hready.enter hfits) hentered hfollowed
  obtain ⟨h', hext, hready'⟩ := ready_of_advances (hready.enter hfits) hadvances
  exact ⟨h', hready', hfits.mono hext hadvances.called, hadvances.called,
    (unentered_le hadvances.covers.entered).trans_lt (unentered_lt hready hfits hnew hstate)⟩

/-- Each visit that a visit makes keeps the bound, and there are fewer positions left. -/
theorem VisitsAt.within {i : Nat} (hvisits : VisitsAt net options i f f')
    (hf : f.Within net base bound) :
    f'.Within net base bound ∧ unentered net base f'.walk < unentered net base f.walk := by
  obtain ⟨⟨h, hready, hfits⟩, hheight⟩ := hf
  cases hvisits with
  | @move id context w w' s t hnew hstate hgoes hfollowed ht hmoves =>
    obtain ⟨h', hready', hfits', hcalled, hfewer⟩ :=
      exists_ready_of_followed hready hfits hnew hstate hfollowed
    exact ⟨⟨⟨h', hready', hfits'⟩, hcalled ▸ hheight⟩, hfewer⟩
  | @call id context w w' s t rule level follow hnew hstate hgoes hfollowed ht hkind hopen =>
    obtain ⟨h', hready', hfits', hcalled, hfewer⟩ :=
      exists_ready_of_followed hready hfits hnew hstate hfollowed
    obtain ⟨hrule, hfollow⟩ := mem_calls hstate (List.mem_of_getElem? ht) hkind
    obtain ⟨h'', -, hpushed⟩ := exists_ready_openCall hready' hfits' hrule hfollow hopen
    refine ⟨⟨⟨h'', hpushed⟩, ?_⟩, hfewer⟩
    -- The call pushes one state and opens one more call, so the bound is kept.
    change (Context.singleton _ _).1.height ≤ bound + (w'.called.insert rule).size
    have hsize : (w'.called.insert rule).size = w.called.size + 1 := by
      rw [Std.ExtTreeSet.size_insert, hopen, hcalled]
      rfl
    rw [Context.height_singleton, hsize]
    exact Nat.succ_le_succ hheight
  | @back id context w w' s c e hnew hstate hreturns hreturned he hreturn =>
    obtain rfl := hreturns.2.1
    have hentered : Fits net base h (w.enter ⟨id, some c⟩) (some c) := ⟨hfits.held, hfits.above⟩
    have hleft : Ready net base h ((w.enter ⟨id, some c⟩).leave s.rule) :=
      (hready.enter hfits).leave s.rule
    -- At most one call is closed here, and the return takes a state off the stack.
    have hsize := size_le_size_leave (w.enter ⟨id, some c⟩) s.rule
    have hadvances := advances_of_returned hleft hentered hsize hreturned
    obtain ⟨h', hext, hready'⟩ := ready_of_advances hleft hadvances
    have hmem := List.mem_of_getElem? he
    have hcalled := hadvances.called
    refine ⟨⟨⟨h', hready', (hentered.parent hmem hsize).mono hext hcalled⟩, ?_⟩, ?_⟩
    · have hrest := Context.restHeight_le_of_mem_entries hmem
      change c.height ≤ bound + w.called.size at hheight
      change w.called.size - 1 ≤ _ at hsize
      rw [← hcalled] at hsize
      change Context.restHeight e.parent ≤ bound + w'.called.size
      omega
    · refine (unentered_le (Set.Subset.trans ?_ hadvances.covers.entered)).trans_lt
        (unentered_lt hready hfits hnew hstate)
      rw [entered_leave]

/-- Every visit below one within the bound is within it. -/
theorem Within.of_visits (hf : f.Within net base bound)
    (hvisits : Relation.ReflTransGen (Visits net options) f f') : f'.Within net base bound := by
  induction hvisits with
  | refl => exact hf
  | tail _ hlast ih =>
    obtain ⟨i, hlast⟩ := hlast
    exact (hlast.within ih).1

/-! ## The end of visits -/

/-- There is no endless way down, because fewer and fewer positions are left. -/
theorem Within.acc (hf : f.Within net base bound) :
    Acc (fun f' f => Visits net options f f') f := by
  induction hleft : unentered net base f.walk using Nat.strong_induction_on generalizing f with
  | _ left ih =>
    refine .intro f fun f' hvisits => ?_
    obtain ⟨i, hvisits⟩ := hvisits
    obtain ⟨hf', hless⟩ := hvisits.within hf
    exact ih _ (hleft ▸ hless) hf' rfl

/-! ## Positions that are entered -/

/-- The position was entered before the visit, or it is that of the visit or of one below it. -/
def Knows (net : Network) (options : WalkOptions) (f : Frame) (x : StateId × Option Context) :
    Prop :=
  x ∈ f.walk.entered.positions ∨
    ∃ g, Relation.ReflTransGen (Visits net options) f g ∧ g.place.position = x

/-- What a visit made by a visit knows, that one knows, if its walk is known. -/
theorem Knows.of_visits (hvisits : f.Visits net options f')
    (hwalk : ∀ x ∈ f'.walk.entered.positions, f.Knows net options x)
    {x : StateId × Option Context} (hx : f'.Knows net options x) : f.Knows net options x := by
  rcases hx with hx | ⟨g, hg, hx⟩
  · exact hwalk x hx
  · exact .inr ⟨g, .head hvisits hg, hx⟩

/-- After a step of a visit only positions are entered that the visit knows, if that holds before
it and after the visit that the step makes. -/
theorem knows_of_makes {i : Nat} {step : Visit → Option Walk} (hmakes : Makes net options i f w step)
    (hvisit : ∀ {f' : Frame} {w' : Walk}, f'.result net options depth = some w' →
      ∀ x ∈ w'.entered.positions, f'.Knows net options x)
    (hw : ∀ x ∈ w.entered.positions, f.Knows net options x)
    (hresult : step (visit net options depth) = some w') :
    ∀ x ∈ w'.entered.positions, f.Knows net options x := by
  obtain ⟨v, hentered, hsome⟩ | ⟨f', after, hvisits, hentered, hafter, hmade⟩ := hmakes
  · obtain rfl := Option.some.inj ((hsome depth).symm.trans hresult)
    rw [hentered]
    exact hw
  · rw [hmade, Option.map_eq_some_iff] at hresult
    obtain ⟨left, hleft, rfl⟩ := hresult
    rw [hafter]
    rw [← hentered] at hw
    exact fun x hx => .of_visits ⟨i, hvisits⟩ hw (hvisit hleft x hx)

/-- After a visit only positions are entered that it knows. -/
theorem knows_of_result (hresult : f.result net options depth = some w') :
    ∀ x ∈ w'.entered.positions, f.Knows net options x := by
  induction depth generalizing f w' with
  | zero => cases hresult
  | succ depth ih =>
    obtain ⟨⟨id, context⟩, w⟩ := f
    change visit net options (depth + 1) id context w = some w' at hresult
    have hentered : ∀ x ∈ (w.enter ⟨id, context⟩).entered.positions,
        Knows net options ⟨⟨id, context⟩, w⟩ x := by
      intro x hx
      rw [positions_enter, Set.mem_insert_iff] at hx
      rcases hx with rfl | hx
      · exact .inr ⟨_, .refl, rfl⟩
      · exact .inl hx
    cases hnew : w.entered.has id context with
    | true =>
      rw [visit_of_has depth hnew] at hresult
      cases hresult
      exact fun x hx => .inl hx
    | false =>
      cases hstate : net.state? id with
      | none =>
        rw [visit_of_state?_eq_none depth hnew hstate] at hresult
        cases hresult
        exact hentered
      | some s =>
        rw [visit_of_state? depth hnew hstate] at hresult
        rcases endsWith_or_returns_or_goesOn options id s context with
          ⟨token, hends⟩ | ⟨c, hreturns⟩ | hgoes
        · rw [leaveState_of_endsWith _ hends] at hresult
          cases hresult
          exact hentered
        · rw [leaveState_of_returns _ hreturns, returnThrough_eq, Option.map_eq_some_iff] at hresult
          obtain ⟨left, hfold, rfl⟩ := hresult
          rw [← entered_leave _ s.rule] at hentered
          rw [entered_resume]
          -- Each entry makes one visit at most, which knows what it enters.
          exact holds_of_foldlM (P := fun v => ∀ x ∈ v.entered.positions, Knows _ _ _ x) hentered
            (fun i e v v' he hbefore hv => knows_of_makes
              (makes_returnTo hnew hstate hreturns ⟨depth, hbefore⟩ he) ih hv) hfold
        · rw [leaveState_of_goesOn _ hgoes] at hresult
          exact holds_of_foldlM (P := fun v => ∀ x ∈ v.entered.positions, Knows _ _ _ x) hentered
            (fun i t v v' ht hbefore hv => knows_of_makes
              (makes_followTransition hnew hstate hgoes ⟨depth, hbefore⟩ ht) ih hv) hresult

end Frame

omit [NodeDigest] in
/-- Where every way ends and there are finitely many steps from each place, one comes to finitely
many places. -/
theorem finite_of_acc {α : Type} {r : α → α → Prop} (hfinite : ∀ a, {b | r a b}.Finite) {a : α}
    (hacc : Acc (fun b a => r a b) a) : {b | Relation.ReflTransGen r a b}.Finite := by
  induction hacc with
  | intro a _ ih =>
    have hsubset : {b | Relation.ReflTransGen r a b} ⊆
        insert a (⋃ c ∈ {c | r a c}, {b | Relation.ReflTransGen r c b}) := by
      intro b hb
      rcases Relation.ReflTransGen.cases_head hb with rfl | ⟨c, hc, hcb⟩
      · exact Set.mem_insert _ _
      · exact Set.mem_insert_of_mem _ (Set.mem_biUnion hc hcb)
    exact (((hfinite a).biUnion ih).insert a).subset hsubset

/-- A walk ends on every network, from every state and every context of a session, whatever it does
at predicates, at the end of the input and at a state that ends it. Its visits do not go down for
ever, and there are finitely many of them. Down the visits no context is higher than the first one
by more than the number of rules that are called. All positions that are entered are those of
visits, so that only finitely many are. The depth that is computed for a walk is enough, and no
greater one gives another result. -/
theorem walk_ends (net : Network) (options : WalkOptions) (id : StateId) {s : Session}
    (hs : s.Reached) {context : Option Context} (hcontext : ∀ c ∈ context, c ∈ s.contexts) :
    let first : Frame := ⟨⟨id, context⟩, .start (freshId context)⟩
    let below := {f | Relation.ReflTransGen (Frame.Visits net options) first f}
    Acc (fun f' f => Frame.Visits net options f f') first ∧
      below.Finite ∧
      (∀ f ∈ below, Context.restHeight f.place.context ≤
        Context.restHeight context + (calledRules net).toFinset.card) ∧
      (∀ x ∈ (walk net options id context).entered.positions, ∃ f ∈ below, f.place.position = x) ∧
      ∀ depth, depthBound net context ≤ depth →
        first.result net options depth = some (walk net options id context) := by
  intro first below
  obtain ⟨h, hsound⟩ := hs.sound
  have hheld : h.HoldsParent context := fun c hc => hsound.contexts c (hcontext c hc)
  obtain ⟨base, hbase, hready, hfits⟩ := exists_ready_start net hheld
  have hwithin : first.Within net base (Context.restHeight context) :=
    ⟨⟨base, hready, hfits⟩, Nat.le_add_right _ _⟩
  obtain ⟨w, hw, -⟩ := completes_visit net options base (depthBound net context) id context _ base
    hready hfits (unentered_start_lt net hbase)
  have hwalk : walk net options id context = w := by
    rw [walk, hw, Option.getD_some]
  have hresult : first.result net options (depthBound net context) =
      some (walk net options id context) := hwalk ▸ hw
  refine ⟨hwithin.acc, finite_of_acc (Frame.finite_visits net options) hwithin.acc, ?_, ?_, ?_⟩
  · intro f hf
    exact (hwithin.of_visits hf).height_le
  · intro x hx
    rcases Frame.knows_of_result hresult x hx with hbefore | hbelow
    · have hempty : (Walk.start (freshId context)).entered.positions = ∅ := Entered.positions_empty
      change x ∈ (Walk.start (freshId context)).entered.positions at hbefore
      rw [hempty] at hbefore
      exact hbefore.elim
    · exact hbelow
  · intro depth hdepth
    exact visit_le hdepth _ _ _ _ hresult

end Lookahead

/-- In the parser that calls one rule, no context below the first visit holds more than one state.
-/
theorem Lookahead.walk_ends_callingNet :
    let first : Frame := ⟨⟨0, some .empty⟩, .start 1⟩
    let below := {f | Relation.ReflTransGen
      (Frame.Visits Network.callingNet (lookOptions none)) first f}
    below.Finite ∧ (∀ f ∈ below, Context.restHeight f.place.context ≤ 1) ∧
      first.result Network.callingNet (lookOptions none) 18 =
        some (walk Network.callingNet (lookOptions none) 0 (some .empty)) := by
  have hcontext : ∀ c ∈ some Context.empty, c ∈ Session.start.contexts := by
    simp [Session.start]
  obtain ⟨-, hfinite, hheight, -, hresult⟩ :=
    walk_ends Network.callingNet (lookOptions none) 0 .start hcontext
  have hrules : (calledRules Network.callingNet).toFinset.card = 1 := by decide
  have hbottom : Context.restHeight (some .empty) = 0 := by
    simp [Context.restHeight, Context.height]
  rw [hrules, hbottom] at hheight
  exact ⟨hfinite, hheight, hresult 18 (by decide)⟩

end TransitionNetwork
