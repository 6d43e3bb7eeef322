import Mathlib.Data.Set.Basic
import TransitionNetwork.Proofs.Context.Sessions

/-!
# Stacks of a context

The stacks of return states that a context stands for, the innermost first. An exact merge of
well-formed contexts stands for the stacks of both operands and for no others, also with a cache
that was filled by exact merges before.
-/

namespace TransitionNetwork

namespace Context

/-- The context stands for a stack of return states. An entry of the empty stack ends it. Any other
entry puts its return state on the stacks of its parent, or on the empty one without a parent. -/
inductive StandsFor : Context → List Int → Prop
  | bottom {c : Context} : ⟨none, emptyReturn⟩ ∈ c.entries → c.StandsFor []
  | push {c : Context} {e : Entry Context} {stack : List Int} : e ∈ c.entries →
      e ≠ ⟨none, emptyReturn⟩ → (restOf e.parent).StandsFor stack →
      c.StandsFor (e.returnState :: stack)

/-- The stacks for which the context stands. -/
def callStacks (c : Context) : Set (List Int) := {stack | c.StandsFor stack}

/-- A context stands for the empty stack exactly if it has the entry for it. -/
theorem standsFor_nil {c : Context} : c.StandsFor [] ↔ ⟨none, emptyReturn⟩ ∈ c.entries :=
  ⟨fun h => by cases h; assumption, .bottom⟩

/-- A context stands for a stack exactly if one of its entries returns to the first state and the
rest under it stands for the others. -/
theorem standsFor_cons {c : Context} {r : Int} {stack : List Int} :
    c.StandsFor (r :: stack) ↔ ∃ e ∈ c.entries, e ≠ ⟨none, emptyReturn⟩ ∧ e.returnState = r ∧
      (restOf e.parent).StandsFor stack := by
  constructor
  · rintro (_ | ⟨he, hne, hrest⟩)
    exact ⟨_, he, hne, rfl, hrest⟩
  · rintro ⟨e, he, hne, rfl, hrest⟩
    exact .push he hne hrest

/-- What is seen of a context that stands for a stack: its return states one under the other, and
the empty stack below. -/
def stackTrace : List Int → Trace
  | [] => .top emptyReturn
  | r :: stack => .under r (stackTrace stack)

/-- A well-formed context has an entry of the empty stack if it has one with its return state. -/
theorem bottom_mem_iff {es : List (Entry Context)} (hes : EntriesWellFormed es) :
    ⟨none, emptyReturn⟩ ∈ es ↔ ∃ e ∈ es, e.returnState = emptyReturn := by
  refine ⟨fun h => ⟨_, h, rfl⟩, fun ⟨e, he, hreturn⟩ => ?_⟩
  have hparent := hes.bottom e he hreturn
  rcases e with ⟨p, r⟩
  cases hparent
  cases hreturn
  exact he

/-- The stacks of a well-formed context are those whose trace it shows, if no return state in them
is that of the empty stack. -/
theorem standsFor_iff {c : Context} (hc : c.WellFormed) (stack : List Int) :
    c.StandsFor stack ↔ (∀ r ∈ stack, r ≠ emptyReturn) ∧ Shows .exact c (stackTrace stack) := by
  induction stack generalizing c with
  | nil =>
    rw [standsFor_nil, bottom_mem_iff (wellFormed_iff.mp hc), stackTrace,
      shows_iff_of_not_isWildcard not_isWildcard_exact]
    simp [EntriesShow]
  | cons r stack ih =>
    have hentries := wellFormed_iff.mp hc
    rw [standsFor_cons, stackTrace, shows_iff_of_not_isWildcard not_isWildcard_exact,
      List.forall_mem_cons]
    constructor
    · rintro ⟨e, he, hne, rfl, hrest⟩
      obtain ⟨hstates, hshows⟩ := (ih (wellFormed_restOf (hentries.parents e he))).mp hrest
      refine ⟨⟨fun hreturn => hne ?_, hstates⟩, e, he, rfl, hshows⟩
      have hparent := hentries.bottom e he hreturn
      rcases e with ⟨p, r⟩
      cases hparent
      cases hreturn
      rfl
    · rintro ⟨⟨hne, hstates⟩, e, he, rfl, hshows⟩
      refine ⟨e, he, ?_, rfl, (ih (wellFormed_restOf (hentries.parents e he))).mpr
        ⟨hstates, hshows⟩⟩
      rintro rfl
      exact hne rfl

/-- A union of well-formed contexts stands for the stacks of both. -/
theorem IsUnion.callStacks {a b c : Context} (h : IsUnion .exact a b c) (ha : a.WellFormed)
    (hb : b.WellFormed) : c.callStacks = a.callStacks ∪ b.callStacks := by
  ext stack
  change c.StandsFor stack ↔ a.StandsFor stack ∨ b.StandsFor stack
  rw [standsFor_iff (h.wellFormed ha hb), standsFor_iff ha, standsFor_iff hb, h.shows,
    and_or_left]

/-- An exact merge of well-formed contexts, without a cache or with one that was filled by exact
merges, stands for the stacks of both. -/
theorem callStacks_merge [NodeDigest] {s : Session} (hs : s.Reached) {a b : Context} (ha : a ∈ s.contexts)
    (hb : b ∈ s.contexts) (hawell : a.WellFormed) (hbwell : b.WellFormed)
    {cache : Option MergeCache} (hcache : ∀ kept ∈ cache, (.exact, kept) ∈ s.caches) :
    (merge .exact a b ⟨s.next, cache⟩).1.callStacks = a.callStacks ∪ b.callStacks := by
  obtain ⟨h, hsound⟩ := hs.sound
  obtain ⟨h', -, -, -, hunion⟩ := hsound.merged ha hb .exact cache hcache
  exact hunion.callStacks hawell hbwell

/-- Merging the two callers gives the stacks of both. -/
theorem callStacks_merge_callers :
    (merge .exact unsureCaller soleCaller ⟨3, some ∅⟩).1.callStacks =
      unsureCaller.callStacks ∪ soleCaller.callStacks :=
  callStacks_merge Session.reached_callers (by simp [Session.callers])
    (by simp [Session.callers]) wellFormed_unsureCaller wellFormed_soleCaller
    (by simp [Session.callers])

end Context

end TransitionNetwork
