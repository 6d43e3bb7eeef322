import Mathlib.Data.List.DropRight
import TransitionNetwork.Proofs.Context.SettledPairs

/-!
# Histories of a merge cache

What a merge cache answers after any calls to it. Of the results that were given for a pair since
the cache was last cleared, the first one counts, but for each order of the pair on its own: a
lookup prefers the order in which it is made. So a pair has one result, the first one given for it,
exactly if no two different results were given first in its two orders. Merges give a result only
after a lookup that found none, which is enough.
-/

namespace TransitionNetwork

/-- A call to a merge cache. -/
inductive CacheCall where
  /-- Keep a result for two nodes. -/
  | insert (a b result : Context)
  /-- Look up the result for two nodes. -/
  | get (a b : Context)
  /-- Drop every result. -/
  | clear

namespace CacheCall

/-- Whether a call drops every result. -/
def isClear : CacheCall → Bool
  | clear => true
  | insert _ _ _ | get _ _ => false

/-- The result that a call gives for two nodes in this order. -/
def given? (a b : Context) : CacheCall → Option Context
  | insert x y result => if x.sameNode a && y.sameNode b then some result else none
  | get _ _ | clear => none

/-- An insertion gives its result for two nodes exactly if it names both. -/
theorem given?_insert (a b x y result : Context) :
    given? a b (insert x y result) =
      if x.identity = a.identity ∧ y.identity = b.identity then some result else none := by
  simp [given?, Context.sameNode]

/-- An insertion gives its own result only. -/
theorem eq_of_given? {a b x y result kept : Context}
    (h : kept ∈ given? a b (insert x y result)) : kept = result := by
  rw [given?_insert, Option.mem_def, Option.ite_none_right_eq_some] at h
  exact (Option.some.inj h.2).symm

end CacheCall

namespace MergeCache

/-! ## What was given -/

/-- The cache after a call. -/
def call (cache : MergeCache) : CacheCall → MergeCache
  | .insert a b result => cache.insert a b result
  | .get _ _ => cache
  | .clear => ∅

/-- The cache after calls in order, the first of them to a cache without results. -/
def after (calls : List CacheCall) : MergeCache := calls.foldl call ∅

/-- The calls behind the last one that dropped every result. -/
def sinceClear (calls : List CacheCall) : List CacheCall := calls.rtakeWhile (!·.isClear)

/-- The result given first for two nodes in this order, of those not dropped. -/
def firstGiven? (calls : List CacheCall) (a b : Context) : Option Context :=
  (sinceClear calls).findSome? (·.given? a b)

/-- The result given first for two nodes in either order, of those not dropped. -/
def firstOfPair? (calls : List CacheCall) (a b : Context) : Option Context :=
  (sinceClear calls).findSome? fun call => (call.given? a b).or (call.given? b a)

/-- Calls that give results only for pairs for which none is found. -/
inductive GivenWhenMissed : List CacheCall → Prop
  | nil : GivenWhenMissed []
  | insert {calls : List CacheCall} {a b : Context} (result : Context)
      (hcalls : GivenWhenMissed calls) (hmissed : (after calls).get? a b = none) :
      GivenWhenMissed (calls ++ [.insert a b result])
  | get {calls : List CacheCall} (a b : Context) (hcalls : GivenWhenMissed calls) :
      GivenWhenMissed (calls ++ [.get a b])
  | clear {calls : List CacheCall} (hcalls : GivenWhenMissed calls) :
      GivenWhenMissed (calls ++ [.clear])

/-! ## What is kept -/

/-- The last call is made to the cache that the others have left. -/
theorem after_concat (calls : List CacheCall) (call : CacheCall) :
    after (calls ++ [call]) = (after calls).call call := by
  rw [after, List.foldl_concat, after]

/-- A call gives its result behind those that were given before it. -/
theorem firstGiven?_concat (calls : List CacheCall) (call : CacheCall) (a b : Context) :
    firstGiven? (calls ++ [call]) a b =
      if call.isClear then none else (firstGiven? calls a b).or (call.given? a b) := by
  rw [firstGiven?, sinceClear, List.rtakeWhile_concat]
  cases call.isClear with
  | true => rfl
  | false => simp [firstGiven?, sinceClear, List.findSome?_append]

/-- A new result stands behind one that is kept for its pair in the same order. -/
theorem getElem?_insert (cache : MergeCache) (a b x y result : Context) :
    (cache.insert x y result).results[(a.identity, b.identity)]? =
      cache.results[(a.identity, b.identity)]?.or
        (CacheCall.given? a b (.insert x y result)) := by
  rw [insert, Std.HashMap.getElem?_insertIfNew, CacheCall.given?_insert]
  by_cases hpair : x.identity = a.identity ∧ y.identity = b.identity
  · rw [hpair.1, hpair.2]
    cases hkept : cache.results[(a.identity, b.identity)]? with
    | none => simp [Std.HashMap.mem_iff_isSome_getElem?, hkept]
    | some kept => simp [Std.HashMap.mem_iff_isSome_getElem?, hkept]
  · rw [if_neg fun h => hpair (Prod.mk.inj (beq_iff_eq.mp h.1)), if_neg hpair, Option.or_none]

/-- For each order of a pair the cache keeps the result that was given first. -/
theorem getElem?_results_after (calls : List CacheCall) (a b : Context) :
    (after calls).results[(a.identity, b.identity)]? = firstGiven? calls a b := by
  induction calls using List.reverseRecOn with
  | nil => exact getElem?_results_empty _ _
  | append_singleton calls call ih =>
    rw [after_concat, firstGiven?_concat, ← ih]
    cases call with
    | insert x y result => exact getElem?_insert _ a b x y result
    | get x y => exact (Option.or_none).symm
    | clear => exact getElem?_results_empty _ _

/-- A lookup prefers its own order of the pair. -/
theorem get?_after (calls : List CacheCall) (a b : Context) :
    (after calls).get? a b = (firstGiven? calls a b).or (firstGiven? calls b a) := by
  rw [get?, Option.orElse_eq_orElse, Option.orElse_eq_or, getElem?_results_after,
    getElem?_results_after]

/-! ## One result for each pair -/

/-- No two different results were given first in the two orders of a pair. -/
def Agree (calls : List CacheCall) (a b : Context) : Prop :=
  ∀ kept ∈ firstGiven? calls a b, ∀ kept' ∈ firstGiven? calls b a, kept = kept'

/-- The first of all results is the first one of either sort, if the first ones agree. -/
theorem findSome?_or {f g : CacheCall → Option Context} {calls : List CacheCall}
    (h : ∀ c ∈ calls.findSome? f, ∀ c' ∈ calls.findSome? g, c = c') :
    calls.findSome? (fun call => (f call).or (g call)) =
      (calls.findSome? f).or (calls.findSome? g) := by
  induction calls with
  | nil => rfl
  | cons call rest ih =>
    rw [List.findSome?_cons, List.findSome?_cons] at h
    rw [List.findSome?_cons, List.findSome?_cons, List.findSome?_cons]
    cases hf : f call with
    | some c => rfl
    | none =>
      rw [hf] at h
      cases hg : g call with
      | none =>
        rw [hg] at h
        exact ih h
      | some c' =>
        rw [hg] at h
        cases hrest : rest.findSome? f with
        | none => rfl
        | some c => exact congrArg some (h c hrest c' rfl).symm

/-- Where the orders of a pair agree, the first result for it is the first one of either order. -/
theorem firstOfPair?_eq {calls : List CacheCall} {a b : Context} (h : Agree calls a b) :
    firstOfPair? calls a b = (firstGiven? calls a b).or (firstGiven? calls b a) :=
  findSome?_or h

/-- Where the orders of a pair agree, it does not matter which one is preferred. -/
theorem Agree.or_comm {calls : List CacheCall} {a b : Context} (h : Agree calls a b) :
    (firstGiven? calls a b).or (firstGiven? calls b a) =
      (firstGiven? calls b a).or (firstGiven? calls a b) := by
  cases hab : firstGiven? calls a b with
  | none => cases firstGiven? calls b a <;> rfl
  | some kept =>
    cases hba : firstGiven? calls b a with
    | none => rfl
    | some kept' => exact congrArg some (h kept hab kept' hba)

/-- Both orders find the first result of a pair exactly if they agree. -/
theorem finds_firstOfPair_iff (calls : List CacheCall) (a b : Context) :
    (after calls).get? a b = firstOfPair? calls a b ∧
        (after calls).get? b a = firstOfPair? calls a b ↔ Agree calls a b := by
  rw [get?_after, get?_after]
  constructor
  · rintro ⟨hab, hba⟩ kept hkept kept' hkept'
    have hsame := hab.trans hba.symm
    rw [Option.mem_def.mp hkept, Option.mem_def.mp hkept'] at hsame
    exact Option.some.inj hsame
  · intro h
    rw [firstOfPair?_eq h]
    exact ⟨rfl, h.or_comm.symm⟩

/-- What is given only for pairs without a result agrees. -/
theorem GivenWhenMissed.agree {calls : List CacheCall} (h : GivenWhenMissed calls)
    (a b : Context) : Agree calls a b := by
  induction h with
  | nil => exact fun _ h => nomatch h
  | get x y hcalls ih =>
    rw [Agree, firstGiven?_concat, firstGiven?_concat, CacheCall.given?, CacheCall.given?,
      Option.or_none, Option.or_none]
    exact ih
  | clear hcalls ih =>
    rw [Agree, firstGiven?_concat]
    exact fun _ h => nomatch h
  | @insert calls x y result hcalls hmissed ih =>
    have hgiven (a b : Context) : firstGiven? (calls ++ [.insert x y result]) a b =
        (firstGiven? calls a b).or (CacheCall.given? a b (.insert x y result)) :=
      firstGiven?_concat calls _ a b
    rw [Agree, hgiven, hgiven]
    by_cases hpair : (x.identity = a.identity ∧ y.identity = b.identity) ∨
        (x.identity = b.identity ∧ y.identity = a.identity)
    · -- Nothing was found for the pair, so whatever is found now is the new result.
      have hnone : firstGiven? calls a b = none ∧ firstGiven? calls b a = none := by
        rw [get?_after, Option.or_eq_none_iff, ← getElem?_results_after,
          ← getElem?_results_after] at hmissed
        rw [← getElem?_results_after, ← getElem?_results_after]
        rcases hpair with ⟨hx, hy⟩ | ⟨hx, hy⟩
        · rwa [← hx, ← hy]
        · rw [← hx, ← hy]
          exact hmissed.symm
      rw [hnone.1, hnone.2, Option.none_or, Option.none_or]
      intro kept hkept kept' hkept'
      rw [CacheCall.eq_of_given? hkept, CacheCall.eq_of_given? hkept']
    -- The result is for another pair, whatever the order.
    · rw [not_or] at hpair
      rw [CacheCall.given?_insert, CacheCall.given?_insert, if_neg hpair.1, if_neg hpair.2,
        Option.or_none, Option.or_none]
      exact ih

/-! ## A map on pairs -/

/-- After any calls a lookup finds the result that was given first for its order of the pair, or
else for the other order. That is the first result of the pair, for both orders, exactly if the
results given first in the two orders agree; and they do if results are given only for pairs for
which none is found. -/
theorem get?_after_eq_firstOfPair? (calls : List CacheCall) (a b : Context) :
    (after calls).get? a b = (firstGiven? calls a b).or (firstGiven? calls b a) ∧
      ((after calls).get? a b = firstOfPair? calls a b ∧
          (after calls).get? b a = firstOfPair? calls a b ↔
        ∀ kept ∈ firstGiven? calls a b, ∀ kept' ∈ firstGiven? calls b a, kept = kept') ∧
      (GivenWhenMissed calls →
        (after calls).get? a b = firstOfPair? calls a b ∧
          (after calls).get? b a = firstOfPair? calls a b) :=
  ⟨get?_after calls a b, finds_firstOfPair_iff calls a b, fun h =>
    (finds_firstOfPair_iff calls a b).mpr (h.agree a b)⟩

open Context in
/-- A result that is kept for two callers is found in the other order as well. -/
theorem get?_after_eq_firstOfPair?_callers :
    GivenWhenMissed [.insert soleCaller unsureCaller soleCaller] ∧
      (after [.insert soleCaller unsureCaller soleCaller]).get? unsureCaller soleCaller =
        some soleCaller := by
  have hcalls : GivenWhenMissed [.insert soleCaller unsureCaller soleCaller] :=
    .insert _ .nil (by rw [get?_after]; rfl)
  refine ⟨hcalls, ?_⟩
  rw [((get?_after_eq_firstOfPair? _ unsureCaller soleCaller).2.2 hcalls).1]
  rfl

open Context in
/-- Results that are given for both orders of a pair are both kept: a lookup does not find the first
of them, and the two orders find different ones. -/
theorem not_firstOfPair_of_swapped :
    let calls : List CacheCall :=
      [.insert soleCaller unsureCaller soleCaller, .insert unsureCaller soleCaller unsureCaller]
    (after calls).get? soleCaller unsureCaller = some soleCaller ∧
      (after calls).get? unsureCaller soleCaller = some unsureCaller ∧
      firstOfPair? calls unsureCaller soleCaller = some soleCaller ∧
      ¬ ((after calls).get? unsureCaller soleCaller =
        firstOfPair? calls unsureCaller soleCaller) := by
  have hne : unsureCaller ≠ soleCaller := fun h => absurd (congrArg identity h) (by decide)
  refine ⟨by rw [get?_after]; rfl, by rw [get?_after]; rfl, rfl, fun h => ?_⟩
  rw [get?_after] at h
  exact hne (Option.some.inj h)

end MergeCache

end TransitionNetwork
