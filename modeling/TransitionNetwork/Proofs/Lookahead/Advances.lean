import TransitionNetwork.Proofs.Lookahead.Depth

/-!
# What a part of a walk adds

A part of a walk keeps what was found before. If it passes over no call, then at every position that
it adds it does what is due there: it collects the contributed tokens and enters the positions to
which one leads. Its contexts belong to a history, and the calls that are open after it are those
that were open before. Parts that do so can be put together, in particular in a loop.
-/

namespace TransitionNetwork

namespace Lookahead

/-! ## Positions where all is done -/

variable [NodeDigest]

/-- What is due at a configuration has been done. -/
def Closed (net : Network) (options : WalkOptions) (w : Walk) (k : Configuration) : Prop :=
  (∀ token, Contributes net options k token → w.tokens.contains token = true) ∧
    ∀ k', Leads net options k k' → k'.position ∈ w.entered.positions

/-- What was found before is kept, and if no call was passed over, then what is due at the positions
that were added has been done. -/
structure Covers (net : Network) (options : WalkOptions) (w w' : Walk) : Prop where
  tokens : ∀ token, w.tokens.contains token = true → w'.tokens.contains token = true
  entered : w.entered.positions ⊆ w'.entered.positions
  passed : w'.passedCall = false → w.passedCall = false
  closed : w'.passedCall = false → ∀ k : Configuration, k.position ∈ w'.entered.positions →
    k.position ∉ w.entered.positions → Closed net options w' k

variable {net : Network} {options : WalkOptions} {w w' w'' : Walk} {k k' : Configuration}

/-- What has been done at a configuration stays done for a walk that covers more. -/
theorem Closed.mono (hclosed : Closed net options w k) (hcovers : Covers net options w w') :
    Closed net options w' k :=
  ⟨fun token htoken => hcovers.tokens token (hclosed.1 token htoken),
    fun k' hleads => hcovers.entered (hclosed.2 k' hleads)⟩

/-- What is due at a configuration is due at every one that is alike. -/
theorem Closed.of_alike (hclosed : Closed net options w k) (halike : Alike k k') :
    Closed net options w k' := by
  refine ⟨fun token htoken => hclosed.1 token (htoken.of_alike halike.symm), fun k₁' hleads => ?_⟩
  obtain ⟨k₁, hleads, halike₁⟩ := hleads.of_alike halike.symm
  rw [alike_iff.mp halike₁]
  exact hclosed.2 k₁ hleads

namespace Covers

/-- Nothing is due where no position is added. -/
theorem of_entered_eq (htokens : ∀ token, w.tokens.contains token = true →
      w'.tokens.contains token = true)
    (hentered : w'.entered = w.entered) (hpassed : w'.passedCall = false → w.passedCall = false) :
    Covers net options w w' := by
  refine ⟨htokens, ?_, hpassed, fun _ k hk hnew => ?_⟩
  · rw [hentered]
  · rw [hentered] at hk
    exact (hnew hk).elim

/-- A walk covers itself. -/
theorem refl (w : Walk) : Covers net options w w := of_entered_eq (fun _ h => h) rfl fun h => h

/-- Covering composes: what was done in the first part stays done in the second. -/
theorem trans (h : Covers net options w w') (h' : Covers net options w' w'') :
    Covers net options w w'' where
  tokens token htoken := h'.tokens token (h.tokens token htoken)
  entered := h.entered.trans h'.entered
  passed hpassed := h.passed (h'.passed hpassed)
  closed hpassed k hk hnew := by
    by_cases hmiddle : k.position ∈ w'.entered.positions
    · exact (h.closed (h'.passed hpassed) k hmiddle hnew).mono h'
    · exact h'.closed hpassed k hk hmiddle

/-- What is due at a new position may be done after it is entered. -/
theorem of_enter (h : Covers net options (w.enter k) w')
    (hclosed : w'.passedCall = false → Closed net options w' k) : Covers net options w w' := by
  refine ⟨h.tokens, ?_, h.passed, fun hpassed k' hk' hnew => ?_⟩
  · refine Set.Subset.trans ?_ h.entered
    rw [positions_enter]
    exact Set.subset_insert _ _
  · by_cases hsame : k.position = k'.position
    · exact (hclosed hpassed).of_alike (alike_iff.mpr hsame)
    · apply h.closed hpassed k' hk'
      rw [positions_enter, Set.mem_insert_iff, not_or]
      exact ⟨fun heq => hsame heq.symm, hnew⟩

end Covers

/-- The contexts that were entered belong to the history, at whose end the free identity is. -/
structure Walk.Sound (h : History) (w : Walk) : Prop where
  next : w.next = h.next
  entered : w.entered.HeldBy h
  canonical : IntervalSet.Canonical w.tokens.intervals

/-- A part of a walk covers what it adds, belongs to a later history and closes the calls that it
opens. -/
structure Advances (net : Network) (options : WalkOptions) (h : History) (w w' : Walk) : Prop where
  sound : ∃ h' : History, h.Extends h' ∧ w'.Sound h'
  covers : Covers net options w w'
  called : w'.called = w.called

variable {h h' base : History} {depth : Nat} {context : Option Context} {id : StateId} {s : State}

/-- Doing nothing advances a walk. -/
theorem Advances.refl (hw : w.Sound h) : Advances net options h w w :=
  ⟨⟨h, .refl h, hw⟩, .refl w, rfl⟩

/-- Two parts of a walk that advance, one after the other, advance together. -/
theorem Advances.trans (hfirst : Advances net options h w w') (hext : h.Extends h')
    (hsecond : Advances net options h' w' w'') : Advances net options h w w'' := by
  obtain ⟨h'', hext', hw''⟩ := hsecond.sound
  exact ⟨⟨h'', hext.trans hext', hw''⟩, hfirst.covers.trans hsecond.covers,
    hsecond.called.trans hfirst.called⟩

/-- Collecting a set of tokens. -/
theorem advances_collectAll (hw : w.Sound h) (tokens : IntervalSet) :
    Advances net options h w (w.collectAll tokens) ∧
      ∀ token, tokens.contains token = true → (w.collectAll tokens).tokens.contains token = true := by
  have hcontains (token : TokenType) := IntervalSet.contains_union hw.canonical tokens token
  refine ⟨⟨⟨h, .refl h, hw.next, hw.entered, hw.canonical.union tokens⟩,
    .of_entered_eq (fun token htoken => ?_) rfl fun hpassed => hpassed, rfl⟩, fun token htoken => ?_⟩
  · exact (hcontains token).mpr (Or.inl htoken)
  · exact (hcontains token).mpr (Or.inr htoken)

/-- Collecting one token. -/
theorem advances_collect (hw : w.Sound h) (token : TokenType) :
    Advances net options h w (w.collect token) ∧
      (w.collect token).tokens.contains token = true := by
  have hcontains (other : TokenType) := IntervalSet.contains_insert hw.canonical token other
  refine ⟨⟨⟨h, .refl h, hw.next, hw.entered, hw.canonical.insert token⟩,
    .of_entered_eq (fun other hother => ?_) rfl fun hpassed => hpassed, rfl⟩, ?_⟩
  · exact (hcontains other).mpr (Or.inr hother)
  · exact (hcontains token).mpr (Or.inl rfl)

/-! ## What a visit needs -/

/-- The walk began in a history, its contexts belong to a later one, and only called rules are
open. -/
structure Ready (net : Network) (base h : History) (w : Walk) : Prop where
  later : base.Extends h
  sound : w.Sound h
  calls : OpenCalls net w

/-- A context to which the walk may come. -/
structure Fits (net : Network) (base h : History) (w : Walk) (context : Option Context) : Prop where
  held : h.HoldsParent context
  above : Above net base w.called.size context

/-- A context to which the walk may come stays one in a later history with the same open calls. -/
theorem Fits.mono (hfits : Fits net base h w context) (hext : h.Extends h')
    (hcalled : w'.called = w.called) : Fits net base h' w' context :=
  ⟨hfits.held.mono hext, hcalled ▸ hfits.above⟩

/-- A visit of the given depth does all that is to be done, if there are fewer positions left. -/
def Completes (net : Network) (options : WalkOptions) (base : History) (depth : Nat) (go : Visit) :
    Prop :=
  ∀ id context w h, Ready net base h w → Fits net base h w context → unentered net base w < depth →
    ∃ w', go id context w = some w' ∧ Advances net options h w w' ∧
      (⟨id, context⟩ : Configuration).position ∈ w'.entered.positions

/-- A loop of which every step advances and does something that is never undone advances, and does
so for every item. -/
theorem exists_foldlM {α : Type} {items : List α} {step : Walk → α → Option Walk}
    {P : α → Walk → Prop}
    (hmono : ∀ a w w', Covers net options w w' → P a w → P a w')
    (hstep : ∀ a ∈ items, ∀ w' h', h.Extends h' → w'.called = w.called → Ready net base h' w' →
      unentered net base w' < depth →
      ∃ w'', step w' a = some w'' ∧ Advances net options h' w' w'' ∧ P a w'')
    (hready : Ready net base h w) (hdepth : unentered net base w < depth) :
    ∃ w', items.foldlM step w = some w' ∧ Advances net options h w w' ∧ ∀ a ∈ items, P a w' := by
  induction items generalizing w h with
  | nil => exact ⟨w, rfl, .refl hready.sound, by simp⟩
  | cons a rest ih =>
    obtain ⟨hhead, hrest⟩ := List.forall_mem_cons.mp hstep
    obtain ⟨w', hw', hadvances, hP⟩ := hhead w h (.refl h) rfl hready hdepth
    obtain ⟨h', hext, hsound⟩ := hadvances.sound
    have hready' : Ready net base h' w' := ⟨hready.later.trans hext, hsound, by
      rw [OpenCalls, hadvances.called]
      exact hready.calls⟩
    have hdepth' := Nat.lt_of_le_of_lt (unentered_le hadvances.covers.entered) hdepth
    obtain ⟨w'', hw'', hadvances', hPrest⟩ := ih (fun b hb v g hext' hcalled =>
      hrest b hb v g (hext.trans hext') (hcalled.trans hadvances.called)) hready' hdepth'
    refine ⟨w'', ?_, hadvances.trans hext hadvances', List.forall_mem_cons.mpr ⟨?_, hPrest⟩⟩
    · rw [List.foldlM_cons, hw']
      exact hw''
    · exact hmono a w' w'' hadvances'.covers hP

end Lookahead

end TransitionNetwork
