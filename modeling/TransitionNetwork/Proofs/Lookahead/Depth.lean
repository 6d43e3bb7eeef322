import Mathlib.Data.List.ProdSigma
import Mathlib.Data.Set.Card
import Std.Data.ExtTreeSet.Lemmas
import TransitionNetwork.Proofs.Lookahead.Entered
import TransitionNetwork.Proofs.Network.Slots

/-!
# Depth of a walk

A walk from a context only comes to contexts that are the start context, or a rest of it, with the
follow states of at most as many calls pushed on it as there are open calls. An open call is one of
a rule that some transition of the network calls, so there are finitely many positions, and fewer
than the depth that is computed for a walk beforehand.
-/

namespace TransitionNetwork

namespace Lookahead

/-! ## Calls of a network -/

/-- The transitions that call a rule. -/
def calls (net : Network) : List Transition :=
  (net.states.flatMap State.transitions).filter fun t => t.type = .rule

/-- The states in which the calls continue. -/
def followStates (net : Network) : List StateId := (calls net).filterMap Transition.follow?

/-- The rule that a transition calls. -/
def rule? (t : Transition) : Option RuleIndex :=
  match t.kind with
  | .rule rule _ _ => some rule
  | _ => none

/-- The rules that are called. -/
def calledRules (net : Network) : List RuleIndex := (calls net).filterMap rule?

/-- Each call continues in at most one state. -/
theorem length_followStates_le (net : Network) : (followStates net).length ≤ callCount net :=
  List.length_filterMap_le _ _

/-- Each call is of at most one rule. -/
theorem length_calledRules_le (net : Network) : (calledRules net).length ≤ callCount net :=
  List.length_filterMap_le _ _

/-- The rule and the follow state of a transition that calls are among those of the network. -/
theorem mem_calls {net : Network} {id : StateId} {s : State} (hstate : net.state? id = some s)
    {t : Transition} (ht : t ∈ s.transitions) {rule : RuleIndex} {level : Int} {follow : StateId}
    (hkind : t.kind = .rule rule level follow) :
    rule ∈ calledRules net ∧ follow ∈ followStates net := by
  have hcall : t ∈ calls net := by
    refine List.mem_filter.mpr ⟨List.mem_flatMap.mpr ⟨s, ?_, ht⟩, ?_⟩
    · refine List.mem_filterMap.mpr ⟨some s, ?_, rfl⟩
      have hslot : net.slots[id]? = some (some s) := Option.join_eq_some_iff.mp hstate
      exact List.mem_of_getElem? (by rw [Array.getElem?_toList, hslot])
    · simp [Transition.type, hkind, TransitionKind.type]
  exact ⟨List.mem_filterMap.mpr ⟨t, hcall, by simp [rule?, hkind]⟩,
    List.mem_filterMap.mpr ⟨t, hcall, by simp [Transition.follow?, hkind]⟩⟩

/-- Every open call is one of a rule that the network calls. -/
def OpenCalls (net : Network) (w : Walk) : Prop := ∀ rule ∈ w.called, rule ∈ calledRules net

/-- There are no more open calls than transitions that call a rule. -/
theorem OpenCalls.size_le {net : Network} {w : Walk} (h : OpenCalls net w) :
    w.called.size ≤ callCount net := by
  have hnodup : w.called.toList.Nodup :=
    w.called.distinct_toList.imp fun hne heq => hne (by simp [heq])
  have hsubset : w.called.toList ⊆ calledRules net := fun rule hrule =>
    h rule (Std.ExtTreeSet.mem_toList.mp hrule)
  rw [← Std.ExtTreeSet.length_toList]
  exact Nat.le_trans (List.subperm_of_subset hnodup hsubset).length_le (length_calledRules_le net)

/-! ## Pushed states -/

/-- The structure of a rest of the stack with states pushed on it, the last of the list first. -/
def stacked : List StateId → Option Context → Option Context
  | [], p => p
  | follow :: pushed, p => some (.node 0 0 ⟨stacked pushed p, (follow : Int)⟩ [])

/-- The rest of a stack is one of the history with at most the given number of follow states of
calls pushed on it. -/
def Above [NodeDigest] (net : Network) (base : History) (bound : Nat) (p : Option Context) :
    Prop :=
  ∃ pushed q, pushed.length ≤ bound ∧ (∀ follow ∈ pushed, follow ∈ followStates net) ∧
    base.HoldsParent q ∧ p.map Context.skeleton = stacked pushed (q.map Context.skeleton)

namespace Above

variable [NodeDigest] {net : Network} {base : History} {bound : Nat} {p : Option Context}

/-- A rest of a stack of the history has nothing pushed on it. -/
theorem of_holds (hp : base.HoldsParent p) (bound : Nat) : Above net base bound p :=
  ⟨[], p, Nat.zero_le _, by simp, hp, rfl⟩

/-- A bound on what is pushed can be raised. -/
theorem mono (h : Above net base bound p) {bound' : Nat} (hle : bound ≤ bound') :
    Above net base bound' p := by
  obtain ⟨pushed, q, hlength, hrest⟩ := h
  exact ⟨pushed, q, Nat.le_trans hlength hle, hrest⟩

/-- A call pushes one more state. -/
theorem push (h : Above net base bound p) {follow : StateId} (hfollow : follow ∈ followStates net)
    (next : NodeId) :
    Above net base (bound + 1) (some (Context.singleton ⟨p, (follow : Int)⟩ next).1) := by
  obtain ⟨pushed, q, hlength, hpushed, hq, hsame⟩ := h
  refine ⟨follow :: pushed, q, Nat.succ_le_succ hlength,
    List.forall_mem_cons.mpr ⟨hfollow, hpushed⟩, hq, ?_⟩
  rw [Option.map_some, Context.skeleton_singleton, hsame, stacked]

/-- A return takes the last pushed state off, or leaves a rest of what was there before. -/
theorem back {c : Context} (h : Above net base bound (some c)) {e : Entry Context}
    (he : e ∈ c.entries) : Above net base (bound - 1) e.parent := by
  obtain ⟨pushed, q, hlength, hpushed, hq, hsame⟩ := h
  have hmem : Context.entrySkeleton e ∈ c.skeleton.entries := by
    rw [Context.entries_skeleton]
    exact List.mem_map_of_mem he
  cases pushed with
  | nil =>
    obtain ⟨d, hd, hskeleton⟩ := Option.map_eq_some_iff.mp hsame.symm
    obtain ⟨e', he', -, hparent⟩ := exists_entry_of_skeleton_eq hskeleton.symm he
    exact ⟨[], e'.parent, Nat.zero_le _, by simp, (hq d hd).entries e' he', hparent⟩
  | cons follow pushed =>
    rw [Option.map_some, stacked, Option.some.injEq] at hsame
    rw [hsame, Context.entries, List.mem_singleton, Context.entrySkeleton_eq,
      Entry.mk.injEq] at hmem
    refine ⟨pushed, q, ?_, (List.forall_mem_cons.mp hpushed).2, hq, hmem.1⟩
    rw [List.length_cons] at hlength
    omega

end Above

/-! ## Positions within reach -/

/-- The lists of at most the given length of listed states. -/
def pushes (follows : List StateId) : Nat → List (List StateId)
  | 0 => [[]]
  | bound + 1 => [] :: (follows ×ˢ pushes follows bound).map fun x => x.1 :: x.2

/-- All lists of listed states up to the length are enumerated. -/
theorem mem_pushes {follows pushed : List StateId} {bound : Nat} (hlength : pushed.length ≤ bound)
    (hpushed : ∀ follow ∈ pushed, follow ∈ follows) : pushed ∈ pushes follows bound := by
  induction bound generalizing pushed with
  | zero =>
    rw [List.length_eq_zero_iff.mp (Nat.le_zero.mp hlength), pushes]
    exact List.mem_singleton_self _
  | succ bound ih =>
    cases pushed with
    | nil => exact List.mem_cons_self
    | cons follow pushed =>
      obtain ⟨hfollow, hrest⟩ := List.forall_mem_cons.mp hpushed
      have hmem := ih (Nat.le_of_succ_le_succ hlength) hrest
      exact List.mem_cons_of_mem _
        (List.mem_map.mpr ⟨(follow, pushed), List.mem_product.mpr ⟨hfollow, hmem⟩, rfl⟩)

/-- Pushing nothing is always among the lists. -/
theorem length_pushes_pos (follows : List StateId) (bound : Nat) :
    0 < (pushes follows bound).length := by
  cases bound <;> simp [pushes]

/-- The number of lists is bounded by a power of the number of states, or of none in its place. -/
theorem length_pushes_le (follows : List StateId) (bound : Nat) :
    (pushes follows bound).length ≤ (follows.length + 1) ^ bound := by
  induction bound with
  | zero => simp [pushes]
  | succ bound ih =>
    have hpos := length_pushes_pos follows bound
    calc (pushes follows (bound + 1)).length
        = follows.length * (pushes follows bound).length + 1 := by
          simp [pushes, List.length_product]
      _ ≤ follows.length * (pushes follows bound).length + (pushes follows bound).length := by omega
      _ = (pushes follows bound).length * (follows.length + 1) := by
        rw [Nat.mul_add, Nat.mul_one, Nat.mul_comm]
      _ ≤ (follows.length + 1) ^ bound * (follows.length + 1) := Nat.mul_le_mul_right _ ih
      _ = (follows.length + 1) ^ (bound + 1) := (Nat.pow_succ ..).symm

/-- The structures of the rests of a stack of a history. -/
def bases (base : History) : List (Option Context) :=
  none :: (List.range base.next).map fun id => some (base.node id).skeleton

/-- The structures of a history's rests of stacks are enumerated. -/
theorem mem_bases [NodeDigest] {base : History} {p : Option Context} (hp : base.HoldsParent p) :
    p.map Context.skeleton ∈ bases base := by
  cases p with
  | none => exact List.mem_cons_self
  | some c =>
    have hc := hp c rfl
    refine List.mem_cons_of_mem _ (List.mem_map.mpr ⟨c.identity, ?_, ?_⟩)
    · exact List.mem_range.mpr hc.identity_lt
    · rw [hc.node_identity, Option.map_some]

/-- The positions to which a walk on the network may come from contexts of a history. -/
def positionsWithin (net : Network) (base : History) : List (StateId × Option Context) :=
  (List.range net.slots.size ×ˢ bases base ×ˢ pushes (followStates net) (callCount net)).map
    fun x => (x.1, stacked x.2.2 x.2.1)

/-- A position in whose context only follow states of calls were pushed is within reach. -/
theorem mem_positionsWithin [NodeDigest] {net : Network} {base : History} {k : Configuration}
    {bound : Nat} (hstate : k.state < net.slots.size) (hbound : bound ≤ callCount net)
    (habove : Above net base bound k.context) : k.position ∈ positionsWithin net base := by
  obtain ⟨pushed, q, hlength, hpushed, hq, hsame⟩ := habove
  refine List.mem_map.mpr ⟨(k.state, q.map Context.skeleton, pushed), ?_, ?_⟩
  · exact List.mem_product.mpr ⟨List.mem_range.mpr hstate, List.mem_product.mpr
      ⟨mem_bases hq, mem_pushes (Nat.le_trans hlength hbound) hpushed⟩⟩
  · exact Prod.ext rfl hsame.symm

/-- The computed depth exceeds the number of positions. -/
theorem length_positionsWithin_lt (net : Network) {base : History} {context : Option Context}
    (hbase : base.next = freshId context) :
    (positionsWithin net base).length < depthBound net context := by
  have hpushes : (pushes (followStates net) (callCount net)).length ≤
      (callCount net + 1) ^ (callCount net + 1) := by
    refine Nat.le_trans (length_pushes_le _ _) (Nat.le_trans (Nat.pow_le_pow_left
      (Nat.succ_le_succ (length_followStates_le net)) _) (Nat.pow_le_pow_right ?_ ?_))
    · exact Nat.succ_pos _
    · exact Nat.le_succ _
  have hlength : (positionsWithin net base).length = net.slots.size * ((freshId context + 1) *
      (pushes (followStates net) (callCount net)).length) := by
    simp only [positionsWithin, bases, List.length_map, List.length_product, List.length_cons,
      List.length_range, hbase]
  have hle := Nat.mul_le_mul_left (net.slots.size * (freshId context + 1)) hpushes
  rw [hlength, ← Nat.mul_assoc]
  unfold depthBound
  exact Nat.lt_of_le_of_lt hle (Nat.lt_add_of_pos_right (by decide))

/-- The number of positions within reach that have not been entered. -/
noncomputable def unentered (net : Network) (base : History) (w : Walk) [NodeDigest] : Nat :=
  ({x | x ∈ positionsWithin net base} \ w.entered.positions).ncard

section

variable [NodeDigest] {net : Network} {base : History} {w w' : Walk}

/-- Only finitely many positions within reach are left to enter. -/
theorem finite_positionsWithin (net : Network) (base : History) (w : Walk) :
    ({x | x ∈ positionsWithin net base} \ w.entered.positions).Finite :=
  (List.finite_toSet _).subset Set.sdiff_subset

/-- No more positions are left if more were entered. -/
theorem unentered_le (h : w.entered.positions ⊆ w'.entered.positions) :
    unentered net base w' ≤ unentered net base w :=
  Set.ncard_le_ncard (Set.sdiff_subset_sdiff_right h) (finite_positionsWithin net base w)

/-- Entering a new position within reach leaves fewer of them. -/
theorem unentered_enter_lt {k : Configuration} (hk : k.position ∈ positionsWithin net base)
    (hnew : k.position ∉ w.entered.positions) :
    unentered net base (w.enter k) < unentered net base w := by
  refine Set.ncard_lt_ncard ⟨Set.sdiff_subset_sdiff_right ?_, fun hback => ?_⟩
    (finite_positionsWithin net base w)
  · rw [positions_enter]
    exact Set.subset_insert _ _
  · exact (hback ⟨hk, hnew⟩).2 (position_mem_enter w k)

/-- Before a walk there are no more positions left than there are at all. -/
theorem unentered_le_length (net : Network) (base : History) (w : Walk) :
    unentered net base w ≤ (positionsWithin net base).length := by
  classical
  have hset : {x | x ∈ positionsWithin net base} =
      ((positionsWithin net base).toFinset : Set (StateId × Option Context)) := by
    ext x
    simp
  calc unentered net base w
      ≤ {x | x ∈ positionsWithin net base}.ncard :=
        Set.ncard_le_ncard Set.sdiff_subset (List.finite_toSet _)
    _ = (positionsWithin net base).toFinset.card := by rw [hset, Set.ncard_coe_finset]
    _ ≤ (positionsWithin net base).length := List.toFinset_card_le _

end

end Lookahead

end TransitionNetwork
