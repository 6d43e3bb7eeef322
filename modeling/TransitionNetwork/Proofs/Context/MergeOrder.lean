import TransitionNetwork.Proofs.Context.Sessions

/-!
# Order of merges

Merging the contexts of a family one after the other can follow any order and any bracketing. What
every bracketing gives is a union of the family, and unions of one family are equal. Commutativity,
associativity and idempotence of merging are cases of this.
-/

namespace TransitionNetwork

/-- An order in which to merge contexts by pairs. -/
inductive Bracketing where
  /-- A context of the family. -/
  | leaf (c : Context)
  /-- What two bracketings give, merged. -/
  | pair (left right : Bracketing)

namespace Bracketing

/-- The contexts of the family, from left to right. -/
def contexts : Bracketing → List Context
  | leaf c => [c]
  | pair left right => left.contexts ++ right.contexts

variable [NodeDigest] {root : RootReading}

/-- What the merges give one after the other, those on the left first. -/
def merged (root : RootReading) : Bracketing → MergeState → Context × MergeState
  | leaf c, m => (c, m)
  | pair left right, m =>
    let (a, m) := left.merged root m
    let (b, m) := right.merged root m
    Context.merge root a b m

/-- A bracketing gives a context of a later history that shows what some context of the family
shows and is well formed if all of them are. -/
theorem merged_spec {h : History} (t : Bracketing) (ht : ∀ c ∈ t.contexts, h.Holds c)
    {m : MergeState} (hm : m.Sound root h) :
    ∃ h' : History, h.Extends h' ∧ (t.merged root m).2.Sound root h' ∧
      h'.Holds (t.merged root m).1 ∧
      (∀ trace, Context.Shows root (t.merged root m).1 trace ↔
        ∃ c ∈ t.contexts, Context.Shows root c trace) ∧
      ((∀ c ∈ t.contexts, c.WellFormed) → (t.merged root m).1.WellFormed) := by
  induction t generalizing h m with
  | leaf c => exact ⟨h, .refl h, hm, ht c (by simp [contexts]), by simp [merged, contexts],
      fun hwell => hwell c (by simp [contexts])⟩
  | pair left right ihleft ihright =>
    obtain ⟨hleft, hright⟩ := List.forall_mem_append.mp ht
    obtain ⟨h₁, hext₁, hm₁, ha, hashows, hawell⟩ := ihleft hleft hm
    obtain ⟨h₂, hext₂, hm₂, hb, hbshows, hbwell⟩ :=
      ihright (fun c hc => (hright c hc).mono hext₁) hm₁
    obtain ⟨h₃, hext₃, hm₃, hheld, hunion⟩ := Context.merged_merge (ha.mono hext₂) hb hm₂
    refine ⟨h₃, hext₁.trans (hext₂.trans hext₃), hm₃, hheld, fun trace => ?_, fun hwell => ?_⟩
    · change Context.Shows root (Context.merge root _ _ _).1 trace ↔ _
      rw [hunion.shows, hashows, hbshows, contexts]
      simp only [List.mem_append, or_and_right, exists_or]
    · obtain ⟨hleftwell, hrightwell⟩ := List.forall_mem_append.mp hwell
      exact hunion.wellFormed (hawell hleftwell) (hbwell hrightwell)

/-- Two bracketings of well-formed contexts of one history give equal contexts if the same contexts
occur in them. -/
theorem merged_beq {h : History} (t u : Bracketing) (ht : ∀ c ∈ t.contexts, h.Holds c)
    (hwell : ∀ c ∈ t.contexts, c.WellFormed) (hsame : ∀ c, c ∈ t.contexts ↔ c ∈ u.contexts)
    {m : MergeState} (hm : m.Sound root h) :
    ((t.merged root m).1 == (u.merged root (t.merged root m).2).1) = true := by
  obtain ⟨h₁, hext₁, hm₁, ha, hashows, hawell⟩ := t.merged_spec ht hm
  obtain ⟨h₂, hext₂, -, hb, hbshows, hbwell⟩ :=
    u.merged_spec (fun c hc => (ht c ((hsame c).mpr hc)).mono hext₁) hm₁
  have hshows (trace : Trace) : Context.Shows root (t.merged root m).1 trace ↔
      Context.Shows root (u.merged root (t.merged root m).2).1 trace := by
    rw [hashows, hbshows]
    simp only [hsame]
  exact Context.beq_of_shows (ha.mono hext₂) hb (hawell hwell)
    (hbwell fun c hc => hwell c ((hsame c).mpr hc)) hshows

end Bracketing

namespace Context

/-- Merging well-formed contexts without a cache is commutative, associative and idempotent, and
merging a family of them gives the same in every order and bracketing. -/
theorem merge_order_irrelevant [NodeDigest] {s : Session} (hs : s.Reached) {a b c : Context}
    (ha : a ∈ s.contexts) (hb : b ∈ s.contexts) (hc : c ∈ s.contexts)
    (hawell : a.WellFormed) (hbwell : b.WellFormed) (hcwell : c.WellFormed)
    (root : RootReading) :
    (let ab := merge root a b ⟨s.next, none⟩
     let ba := merge root b a ab.2
     (ab.1 == ba.1) = true) ∧
    (let ab := merge root a b ⟨s.next, none⟩
     let abThenC := merge root ab.1 c ab.2
     let bc := merge root b c abThenC.2
     let aThenBc := merge root a bc.1 bc.2
     (abThenC.1 == aThenBc.1) = true) ∧
    ((merge root a a ⟨s.next, none⟩).1 == a) = true ∧
    ∀ t u : Bracketing, (∀ d ∈ t.contexts, d ∈ s.contexts ∧ d.WellFormed) →
      t.contexts.Perm u.contexts →
      ((t.merged root ⟨s.next, none⟩).1 ==
        (u.merged root (t.merged root ⟨s.next, none⟩).2).1) = true := by
  obtain ⟨h, hsound⟩ := hs.sound
  have hm : MergeState.Sound root h ⟨s.next, none⟩ := hsound.mergeState (by simp)
  have hfamily (t u : Bracketing) (ht : ∀ d ∈ t.contexts, d ∈ s.contexts ∧ d.WellFormed)
      (hsame : ∀ d, d ∈ t.contexts ↔ d ∈ u.contexts) :
      ((t.merged root ⟨s.next, none⟩).1 ==
        (u.merged root (t.merged root ⟨s.next, none⟩).2).1) = true :=
    t.merged_beq u (fun d hd => hsound.contexts d (ht d hd).1) (fun d hd => (ht d hd).2) hsame hm
  -- Each law compares two bracketings of the same contexts.
  refine ⟨?_, ?_, ?_, fun t u ht hperm => hfamily t u ht fun d => hperm.mem_iff⟩
  · refine hfamily (.pair (.leaf a) (.leaf b)) (.pair (.leaf b) (.leaf a)) ?_ ?_
    · simp [Bracketing.contexts, ha, hb, hawell, hbwell]
    · simp [Bracketing.contexts, or_comm]
  · refine hfamily (.pair (.pair (.leaf a) (.leaf b)) (.leaf c))
      (.pair (.leaf a) (.pair (.leaf b) (.leaf c))) ?_ ?_
    · simp [Bracketing.contexts, ha, hb, hc, hawell, hbwell, hcwell]
    · simp [Bracketing.contexts]
  · refine hfamily (.pair (.leaf a) (.leaf a)) (.leaf a) ?_ ?_
    · simp [Bracketing.contexts, ha, hawell]
    · simp [Bracketing.contexts]

/-- The two callers and the empty context, bracketed and ordered in two ways. -/
theorem merge_order_irrelevant_callers :
    let t := Bracketing.pair (.pair (.leaf unsureCaller) (.leaf soleCaller)) (.leaf empty)
    let u := Bracketing.pair (.leaf empty) (.pair (.leaf soleCaller) (.leaf unsureCaller))
    ((t.merged .exact ⟨3, none⟩).1 == (u.merged .exact (t.merged .exact ⟨3, none⟩).2).1) = true :=
  (merge_order_irrelevant Session.reached_callers (by simp [Session.callers])
    (by simp [Session.callers]) (by simp [Session.callers]) wellFormed_unsureCaller
    wellFormed_soleCaller wellFormed_empty .exact).2.2.2 _ _
    (by simp [Bracketing.contexts, Session.callers, wellFormed_unsureCaller, wellFormed_soleCaller,
      wellFormed_empty])
    (List.reverse_perm [empty, soleCaller, unsureCaller])

end Context

end TransitionNetwork
