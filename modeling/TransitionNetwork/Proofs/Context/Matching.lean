import Mathlib.Data.List.Infix
import TransitionNetwork.Proofs.Context.Stacks

/-!
# Matching stacks with an unknown bottom

For a local prediction the empty context stands for any stack. A context then matches a stack if
the known part of one of its own is at the front: an entry of the empty stack ends the known part,
and so does a return state over an unknown rest. A wildcard merge of well-formed contexts matches
what one of the operands matches, whatever a cache for wildcard merges held before, and it is the
empty context only if an operand is.
-/

namespace TransitionNetwork

namespace Context

/-- The context matches a stack of return states. The empty context, whose only entry is that of
the empty stack, matches every stack. -/
inductive Matches : Context → List Int → Prop
  | bottom {c : Context} {stack : List Int} : ⟨none, emptyReturn⟩ ∈ c.entries → c.Matches stack
  | unknown {c : Context} {r : Int} {stack : List Int} : ⟨none, r⟩ ∈ c.entries →
      c.Matches (r :: stack)
  | push {c p : Context} {r : Int} {stack : List Int} : ⟨some p, r⟩ ∈ c.entries →
      p.Matches stack → c.Matches (r :: stack)

/-- The empty context matches every stack. -/
theorem matches_empty (stack : List Int) : empty.Matches stack := .bottom (by simp [entries])

/-- Only a context with the entry for the empty stack matches the empty stack. -/
theorem matches_nil {c : Context} : c.Matches [] ↔ ⟨none, emptyReturn⟩ ∈ c.entries :=
  ⟨fun h => by cases h; assumption, .bottom⟩

/-- A return state is matched over its parent, an unknown one being the empty context. -/
theorem matches_cons {c : Context} {r : Int} {stack : List Int} :
    c.Matches (r :: stack) ↔ ⟨none, emptyReturn⟩ ∈ c.entries ∨
      ∃ e ∈ c.entries, e.returnState = r ∧ (restOf e.parent).Matches stack := by
  constructor
  · rintro (hbottom | hunknown | ⟨hpush, hrest⟩)
    · exact Or.inl hbottom
    · exact Or.inr ⟨_, hunknown, rfl, matches_empty stack⟩
    · exact Or.inr ⟨_, hpush, rfl, hrest⟩
  · rintro (hbottom | ⟨⟨_ | p, r⟩, he, rfl, hrest⟩)
    · exact .bottom hbottom
    · exact .unknown he
    · exact .push he hrest

/-- The empty context shows nothing known of any stack. -/
theorem exists_shows_empty (stack : List Int) :
    ∃ front, front <+: stack ∧ Shows .wildcard empty (stackTrace front) :=
  ⟨[], List.nil_prefix, shows_of_isWildcard ⟨rfl, rfl⟩ _⟩

/-- A context matches a stack if it shows the trace of a part at the front. -/
theorem matches_iff {c : Context} (hc : c.WellFormed) (stack : List Int) :
    c.Matches stack ↔ ∃ front, front <+: stack ∧ Shows .wildcard c (stackTrace front) := by
  induction stack generalizing c with
  | nil =>
    by_cases hempty : c.isEmpty
    · rw [isEmpty_iff.mp hempty]
      exact iff_of_true (matches_empty _) (exists_shows_empty _)
    · rw [matches_nil, bottom_mem_iff (wellFormed_iff.mp hc)]
      simp [List.prefix_nil, stackTrace, EntriesShow,
        shows_iff_of_not_isWildcard (not_isWildcard_of_not_isEmpty hempty)]
  | cons r stack ih =>
    by_cases hempty : c.isEmpty
    · rw [isEmpty_iff.mp hempty]
      exact iff_of_true (matches_empty _) (exists_shows_empty _)
    have hentries := wellFormed_iff.mp hc
    -- The rest of the stack is matched by the rests under the entries with that return state.
    have hrest (e : Entry Context) (he : e ∈ c.entries) :=
      ih (wellFormed_restOf (hentries.parents e he))
    simp only [shows_iff_of_not_isWildcard (not_isWildcard_of_not_isEmpty hempty)]
    rw [matches_cons, bottom_mem_iff hentries]
    constructor
    · rintro (hbottom | ⟨e, he, hreturn, hmatch⟩)
      · exact ⟨[], List.nil_prefix, hbottom⟩
      · obtain ⟨front, hfront, hshows⟩ := (hrest e he).mp hmatch
        exact ⟨r :: front, List.cons_prefix_cons.mpr ⟨rfl, hfront⟩, e, he, hreturn, hshows⟩
    · rintro ⟨front, hfront, hshows⟩
      rcases List.prefix_cons_iff.mp hfront with rfl | ⟨known, rfl, hknown⟩
      · exact Or.inl hshows
      · obtain ⟨e, he, hreturn, hshows⟩ := hshows
        exact Or.inr ⟨e, he, hreturn, (hrest e he).mpr ⟨known, hknown, hshows⟩⟩

/-- No entry of a well-formed context has the return state below that of the empty stack, so only
the empty context shows one. -/
theorem eq_empty_iff {c : Context} (hc : c.WellFormed) :
    c = empty ↔ Shows .wildcard c (.top (-2)) := by
  rw [← isEmpty_iff]
  refine ⟨fun hempty => shows_of_isWildcard ⟨rfl, hempty⟩ _, fun hshows => ?_⟩
  rcases hshows with hwild | ⟨e, he, hreturn⟩
  · exact hwild.2
  · rw [entryShows_top] at hreturn
    have := (wellFormed_iff.mp hc).nonneg e he (by rw [hreturn]; decide)
    lia

/-- A union of well-formed contexts matches what one of them matches. -/
theorem IsUnion.matches_iff {a b c : Context} (h : IsUnion .wildcard a b c) (ha : a.WellFormed)
    (hb : b.WellFormed) (stack : List Int) :
    c.Matches stack ↔ a.Matches stack ∨ b.Matches stack := by
  rw [Context.matches_iff (h.wellFormed ha hb), Context.matches_iff ha, Context.matches_iff hb,
    ← exists_or]
  apply exists_congr
  intro front
  rw [h.shows, and_or_left]

/-- A union of well-formed contexts is empty if one of them is. -/
theorem IsUnion.eq_empty_iff {a b c : Context} (h : IsUnion .wildcard a b c) (ha : a.WellFormed)
    (hb : b.WellFormed) : c = empty ↔ a = empty ∨ b = empty := by
  rw [Context.eq_empty_iff (h.wellFormed ha hb), Context.eq_empty_iff ha,
    Context.eq_empty_iff hb, h.shows]

/-- A wildcard merge of well-formed contexts, without a cache or with one that was filled by
wildcard merges, matches what one of them matches and is empty only if one of them is. -/
theorem matches_merge [NodeDigest] {s : Session} (hs : s.Reached) {a b : Context}
    (ha : a ∈ s.contexts) (hb : b ∈ s.contexts) (hawell : a.WellFormed) (hbwell : b.WellFormed)
    {cache : Option MergeCache} (hcache : ∀ kept ∈ cache, (.wildcard, kept) ∈ s.caches) :
    (∀ stack, (merge .wildcard a b ⟨s.next, cache⟩).1.Matches stack ↔
        a.Matches stack ∨ b.Matches stack) ∧
      ((merge .wildcard a b ⟨s.next, cache⟩).1 = empty ↔ a = empty ∨ b = empty) := by
  obtain ⟨h, hsound⟩ := hs.sound
  obtain ⟨h', -, -, -, hunion⟩ := hsound.merged ha hb .wildcard cache hcache
  exact ⟨hunion.matches_iff hawell hbwell, hunion.eq_empty_iff hawell hbwell⟩

/-- Merging the two callers, of which none is the wildcard, matches what one of them matches. -/
theorem matches_merge_callers :
    (∀ stack, (merge .wildcard unsureCaller soleCaller ⟨3, some ∅⟩).1.Matches stack ↔
        unsureCaller.Matches stack ∨ soleCaller.Matches stack) ∧
      ((merge .wildcard unsureCaller soleCaller ⟨3, some ∅⟩).1 = empty ↔
        unsureCaller = empty ∨ soleCaller = empty) :=
  matches_merge (.step Session.reached_callers (.openCache .wildcard))
    (by simp [Session.callers]) (by simp [Session.callers]) wellFormed_unsureCaller
    wellFormed_soleCaller (by simp)

end Context

end TransitionNetwork
