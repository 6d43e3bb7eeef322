import Mathlib.Data.List.Nodup
import TransitionNetwork.Proofs.Context.Stacks

/-!
# Contexts of known stacks

In a fully known context no rest of a stack is unknown: an entry is that of the empty stack or lies
over a parent. Such a context is canonical for the stacks it stands for. Every entry is on some
stack, so what a context shows can be read off its stacks, and contexts that show the same are
equal.
-/

namespace TransitionNetwork

namespace Context

/-- The return states ascend strictly. Every entry is that of the empty stack, which then comes
first, or has a parent and a return state that is not negative. -/
structure EntriesKnown (es : List (Entry Context)) : Prop where
  ascending : es.Pairwise (·.returnState < ·.returnState)
  known : ∀ e ∈ es, e = ⟨none, emptyReturn⟩ ∨ e.parent.isSome = true ∧ 0 ≤ e.returnState

/-- The entries of every node that can be reached are known. -/
def FullyKnown (c : Context) : Prop := ∀ d, c.Reaches d → EntriesKnown d.entries

variable {c d p : Context} {e f : Entry Context}

/-! ## Parts of a known context -/

/-- Known entries ascend. -/
theorem EntriesKnown.ascend {es : List (Entry Context)} (h : EntriesKnown es) : Ascending es where
  ascending := h.ascending
  bottom e he hreturn := by
    rcases h.known e he with rfl | ⟨-, hnonneg⟩
    · rfl
    · rw [hreturn, emptyReturn] at hnonneg
      omega
  nonneg e he hreturn := by
    rcases h.known e he with rfl | ⟨-, hnonneg⟩
    · exact (hreturn rfl).elim
    · exact hnonneg

/-- A context that is fully known is well formed. -/
theorem FullyKnown.wellFormed (hc : c.FullyKnown) : c.WellFormed := fun d hd => (hc d hd).ascend

/-- The entries of a fully known context are known. -/
theorem FullyKnown.entries (hc : c.FullyKnown) : EntriesKnown c.entries := hc c .refl

/-- The parents of a fully known context are fully known. -/
theorem FullyKnown.parent (hc : c.FullyKnown) (hp : p ∈ c.parents) : p.FullyKnown :=
  fun d hd => hc d (.of_parent hp hd)

/-- A context with known entries over known contexts is fully known. -/
theorem FullyKnown.of_parents (hentries : EntriesKnown c.entries)
    (hparents : ∀ p ∈ c.parents, p.FullyKnown) : c.FullyKnown :=
  forall_reaches_iff.mpr ⟨hentries, hparents⟩

/-- The empty context is fully known. -/
theorem fullyKnown_empty : empty.FullyKnown :=
  .of_parents ⟨by simp [Context.entries], by simp [Context.entries]⟩ (by simp [parents, Context.entries])

/-- The rest under an entry of a fully known context is fully known. -/
theorem FullyKnown.restOf (hc : c.FullyKnown) (he : e ∈ c.entries) :
    (restOf e.parent).FullyKnown := by
  cases hp : e.parent with
  | none => exact fullyKnown_empty
  | some p => exact hc.parent (mem_parents.mpr ⟨e, he, hp⟩)

/-! ## Stacks through entries -/

/-- Every context stands for some stack. -/
theorem exists_standsFor (c : Context) : ∃ stack, c.StandsFor stack := by
  induction c using induct with
  | empty => exact ⟨[], .bottom List.mem_cons_self⟩
  | node id digest first rest ih =>
    have hfirst : first ∈ (node id digest first rest).entries := List.mem_cons_self
    by_cases hbottom : first = ⟨none, emptyReturn⟩
    · exact ⟨[], .bottom (hbottom ▸ hfirst)⟩
    · have hrest : ∃ stack, (Context.restOf first.parent).StandsFor stack := by
        cases hp : first.parent with
        | none => exact ⟨[], .bottom List.mem_cons_self⟩
        | some p => exact ih first List.mem_cons_self p hp
      obtain ⟨stack, hstack⟩ := hrest
      exact ⟨first.returnState :: stack, .push hfirst hbottom hstack⟩

/-- Known entries with the same return state are the same. -/
theorem EntriesKnown.eq_of_returnState {es : List (Entry Context)} (h : EntriesKnown es)
    (he : e ∈ es) (hf : f ∈ es) (hreturn : e.returnState = f.returnState) : e = f := by
  have hdistinct : (es.map Entry.returnState).Nodup :=
    List.pairwise_map.mpr (h.ascending.imp Int.ne_of_lt)
  exact List.inj_on_of_nodup_map hdistinct he hf hreturn

/-- The stacks on an entry other than that of the empty stack are those that begin with its return
state. -/
theorem mem_callStacks_restOf (hc : c.FullyKnown) (he : e ∈ c.entries)
    (hne : e ≠ ⟨none, emptyReturn⟩) {stack : List Int} :
    stack ∈ (restOf e.parent).callStacks ↔ e.returnState :: stack ∈ c.callStacks := by
  change (restOf e.parent).StandsFor stack ↔ c.StandsFor (e.returnState :: stack)
  rw [standsFor_cons]
  refine ⟨fun hstack => ⟨e, he, hne, rfl, hstack⟩, ?_⟩
  rintro ⟨f, hf, -, hreturn, hstack⟩
  rwa [← hc.entries.eq_of_returnState hf he hreturn]

/-- Contexts that stand for the same stacks have entries for the same return states, with the same
stacks on them. -/
theorem exists_entry_of_callStacks_eq (hc : c.FullyKnown) (hd : d.FullyKnown)
    (hsame : c.callStacks = d.callStacks) (he : e ∈ c.entries) :
    ∃ f ∈ d.entries, f.returnState = e.returnState ∧ f.parent.isSome = e.parent.isSome ∧
      (restOf e.parent).callStacks = (restOf f.parent).callStacks := by
  by_cases hbottom : e = ⟨none, emptyReturn⟩
  · subst hbottom
    have hnil : [] ∈ c.callStacks := .bottom he
    rw [hsame] at hnil
    exact ⟨_, standsFor_nil.mp hnil, rfl, rfl, rfl⟩
  · obtain ⟨stack, hstack⟩ := exists_standsFor (restOf e.parent)
    have hpushed := (mem_callStacks_restOf hc he hbottom).mp hstack
    rw [hsame] at hpushed
    obtain ⟨f, hf, hne, hreturn, -⟩ := standsFor_cons.mp hpushed
    have hknown := ((hc.entries.known e he).resolve_left hbottom).1
    have hknown' := ((hd.entries.known f hf).resolve_left hne).1
    refine ⟨f, hf, hreturn, hknown'.trans hknown.symm, Set.ext fun rest => ?_⟩
    rw [mem_callStacks_restOf hc he hbottom, mem_callStacks_restOf hd hf hne, hsame, hreturn]

/-! ## Equality -/

/-- A known context shows what another one shows that stands for the same stacks. -/
theorem shows_of_callStacks_eq (hc : c.FullyKnown) (hd : d.FullyKnown)
    (hsame : c.callStacks = d.callStacks) {t : Trace} (hshows : Shows .exact c t) :
    Shows .exact d t := by
  rw [shows_iff_of_not_isWildcard not_isWildcard_exact] at hshows ⊢
  induction t generalizing c d with
  | top r =>
    obtain ⟨e, he, hreturn⟩ := hshows
    obtain ⟨f, hf, hreturn', -, -⟩ := exists_entry_of_callStacks_eq hc hd hsame he
    exact ⟨f, hf, hreturn'.trans hreturn⟩
  | known r =>
    obtain ⟨e, he, hreturn, hknown⟩ := hshows
    obtain ⟨f, hf, hreturn', hknown', -⟩ := exists_entry_of_callStacks_eq hc hd hsame he
    exact ⟨f, hf, hreturn'.trans hreturn, hknown'.trans hknown⟩
  | under r t ih =>
    obtain ⟨e, he, hreturn, hrest⟩ := hshows
    obtain ⟨f, hf, hreturn', -, hsame'⟩ := exists_entry_of_callStacks_eq hc hd hsame he
    refine ⟨f, hf, hreturn'.trans hreturn, Or.inr ?_⟩
    exact ih (hc.restOf he) (hd.restOf hf) hsame' (hrest.resolve_left not_isWildcard_exact)

/-- Equal well-formed contexts of one history stand for the same stacks. -/
theorem callStacks_eq_of_beq [NodeDigest] {h : History} (hc : h.Holds c) (hd : h.Holds d)
    (hcwell : c.WellFormed) (hdwell : d.WellFormed) (heq : (c == d) = true) :
    c.callStacks = d.callStacks := by
  ext stack
  change c.StandsFor stack ↔ d.StandsFor stack
  rw [standsFor_iff hcwell, standsFor_iff hdwell, shows_of_beq hc hd heq]

/-- Contexts in which every rest of a stack is known are equal exactly if they stand for the same
stacks. -/
theorem beq_iff_callStacks_eq [NodeDigest] {s : Session} (hs : s.Reached) {a b : Context}
    (ha : a ∈ s.contexts) (hb : b ∈ s.contexts) (haknown : a.FullyKnown) (hbknown : b.FullyKnown) :
    (a == b) = true ↔ a.callStacks = b.callStacks := by
  obtain ⟨h, hsound⟩ := hs.sound
  have haheld := hsound.contexts a ha
  have hbheld := hsound.contexts b hb
  refine ⟨callStacks_eq_of_beq haheld hbheld haknown.wellFormed hbknown.wellFormed, fun hsame => ?_⟩
  exact beq_of_shows haheld hbheld haknown.wellFormed hbknown.wellFormed fun t =>
    ⟨shows_of_callStacks_eq haknown hbknown hsame, shows_of_callStacks_eq hbknown haknown hsame.symm⟩

/-! ## An optional caller -/

/-- Either no caller, or one that returns to state 7 and has no caller itself. -/
def optionalCaller (id : NodeId) : Context :=
  (ofEntries [⟨none, emptyReturn⟩, ⟨some empty, 7⟩] id).1

/-- The sole caller is fully known. -/
theorem fullyKnown_soleCaller : soleCaller.FullyKnown := by
  refine .of_parents ⟨List.pairwise_singleton _ _, ?_⟩ ?_
  · simp [soleCaller, ofEntries, singleton, entries]
  · simpa [soleCaller, ofEntries, singleton, parents, entries] using fullyKnown_empty

/-- The optional caller is fully known. -/
theorem fullyKnown_optionalCaller (id : NodeId) : (optionalCaller id).FullyKnown := by
  refine .of_parents ⟨?_, ?_⟩ ?_
  · simp [optionalCaller, ofEntries, entries, emptyReturn]
  · simp [optionalCaller, ofEntries, entries]
  · simpa [optionalCaller, ofEntries, parents, entries] using fullyKnown_empty

/-- The session in which the optional caller has been made twice beside the two callers. -/
def optionalCallers : Session :=
  ⟨optionalCaller 4 :: optionalCaller 3 :: Session.callers.contexts, [(.exact, ∅)], 5⟩

/-- The session of the optional callers is reached by making each of them. -/
theorem reached_optionalCallers : optionalCallers.Reached := by
  have hmade : Session.Reached ⟨optionalCaller 3 :: Session.callers.contexts, [(.exact, ∅)], 4⟩ :=
    .step Session.reached_callers
      (.make [⟨none, emptyReturn⟩, ⟨some empty, 7⟩] (by simp [Session.callers]))
  exact .step hmade (.make [⟨none, emptyReturn⟩, ⟨some empty, 7⟩] (by simp [Session.callers]))

/-- The optional caller against the sole one, and against itself made again. -/
theorem beq_iff_callStacks_eq_optionalCaller :
    ((optionalCaller 3 == soleCaller) = true ↔
        (optionalCaller 3).callStacks = soleCaller.callStacks) ∧
      ((optionalCaller 3 == optionalCaller 4) = true ↔
        (optionalCaller 3).callStacks = (optionalCaller 4).callStacks) :=
  ⟨beq_iff_callStacks_eq reached_optionalCallers (by simp [optionalCallers])
      (by simp [optionalCallers, Session.callers]) (fullyKnown_optionalCaller 3) fullyKnown_soleCaller,
    beq_iff_callStacks_eq reached_optionalCallers (by simp [optionalCallers])
      (by simp [optionalCallers]) (fullyKnown_optionalCaller 3) (fullyKnown_optionalCaller 4)⟩

end Context

end TransitionNetwork
