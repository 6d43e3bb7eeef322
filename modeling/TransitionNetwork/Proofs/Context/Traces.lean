import TransitionNetwork.Context.Merge
import TransitionNetwork.Proofs.Context.Histories

/-!
# Traces of contexts

What can be seen of a context by going down from its entries through parents: which return states
there are, which of them have a known rest, and what can be seen of that rest. An unknown rest
looks like the empty context, and if the empty context is read as a wildcard, then everything can
be seen of it. A merge shows exactly what one of its operands shows, and well-formed contexts that
show the same are equal; so what a merge gives does not depend on the order of the operands.
-/

namespace TransitionNetwork

/-- Something that can be seen of a context. -/
inductive Trace where
  /-- There is an entry with the return state. -/
  | top (returnState : Int)
  /-- There is an entry with the return state over a known rest. -/
  | known (returnState : Int)
  /-- There is an entry with the return state over a rest of which something can be seen. -/
  | under (returnState : Int) (rest : Trace)

/-- The return state of the entry where a trace starts. -/
def Trace.returnState : Trace → Int
  | top r => r
  | known r => r
  | under r _ => r

namespace Context

/-- Whether the context stands for every stack. -/
def IsWildcard (root : RootReading) (c : Context) : Prop := root = .wildcard ∧ c.isEmpty = true

/-- The rest of a stack; an unknown one counts as the empty stack. -/
def restOf (p : Option Context) : Context := p.getD empty

/-- What can be seen of an entry. -/
def EntryShows (root : RootReading) : Trace → Entry Context → Prop
  | .top r, e => e.returnState = r
  | .known r, e => e.returnState = r ∧ e.parent.isSome = true
  | .under r t, e => e.returnState = r ∧ (IsWildcard root (restOf e.parent) ∨
    ∃ f ∈ (restOf e.parent).entries, EntryShows root t f)

/-- What can be seen of one of the entries. -/
def EntriesShow (root : RootReading) (es : List (Entry Context)) (t : Trace) : Prop :=
  ∃ e ∈ es, EntryShows root t e

/-- What can be seen of a context: everything of a wildcard, else what can be seen of one of its
entries. -/
def Shows (root : RootReading) (c : Context) (t : Trace) : Prop :=
  IsWildcard root c ∨ EntriesShow root c.entries t

variable {root : RootReading} {c d : Context} {e f : Entry Context} {es fs : List (Entry Context)}

/-- An entry shows at the top its return state and no other. -/
@[simp] theorem entryShows_top {r : Int} : EntryShows root (.top r) e ↔ e.returnState = r :=
  Iff.rfl

/-- An entry shows that the rest under its return state is known, if it is. -/
@[simp] theorem entryShows_known {r : Int} :
    EntryShows root (.known r) e ↔ e.returnState = r ∧ e.parent.isSome = true := Iff.rfl

/-- Under its return state an entry shows what the rest of the stack shows. -/
@[simp] theorem entryShows_under {r : Int} {t : Trace} :
    EntryShows root (.under r t) e ↔ e.returnState = r ∧ Shows root (restOf e.parent) t := Iff.rfl

/-- No entries show nothing. -/
@[simp] theorem entriesShow_nil {t : Trace} : EntriesShow root [] t ↔ False := by
  simp [EntriesShow]

/-- Entries show what the first one or the others show. -/
@[simp] theorem entriesShow_cons {t : Trace} :
    EntriesShow root (e :: es) t ↔ EntryShows root t e ∨ EntriesShow root es t := by
  simp [EntriesShow]

/-- What an entry shows starts with its return state. -/
theorem returnState_of_entryShows {t : Trace} (h : EntryShows root t e) :
    e.returnState = t.returnState := by
  cases t with
  | top r => exact h
  | known r => exact h.1
  | under r t => exact h.1

/-- A wildcard shows everything. -/
theorem shows_of_isWildcard (h : IsWildcard root c) (t : Trace) : Shows root c t := Or.inl h

/-- A context that is no wildcard shows what its entries show. -/
theorem shows_iff_of_not_isWildcard (h : ¬ IsWildcard root c) {t : Trace} :
    Shows root c t ↔ EntriesShow root c.entries t := or_iff_right h

/-- Under the exact reading nothing is a wildcard. -/
theorem not_isWildcard_exact : ¬ IsWildcard .exact c := fun h => by cases h.1

/-- A context that is not empty is no wildcard. -/
theorem not_isWildcard_of_not_isEmpty (h : ¬ c.isEmpty = true) : ¬ IsWildcard root c :=
  fun hwild => h hwild.2

/-- A node shows what its entries show. -/
theorem shows_node {id : NodeId} {digest : UInt64} {first : Entry Context}
    {rest : List (Entry Context)} {t : Trace} :
    Shows root (node id digest first rest) t ↔ EntriesShow root (first :: rest) t :=
  shows_iff_of_not_isWildcard (not_isWildcard_of_not_isEmpty (by simp))

/-! ## Skeletons -/

/-- The rest for a skeleton of a parent is the skeleton of the rest. -/
theorem restOf_map_skeleton (p : Option Context) :
    restOf (p.map skeleton) = (restOf p).skeleton := by cases p <;> simp [restOf]

/-- A context is a wildcard exactly if its skeleton is. -/
theorem isWildcard_skeleton : IsWildcard root c.skeleton ↔ IsWildcard root c := by
  simp [IsWildcard]

/-- An entry shows what its skeleton shows. -/
theorem entryShows_skeleton (t : Trace) (e : Entry Context) :
    EntryShows root t (entrySkeleton e) ↔ EntryShows root t e := by
  induction t generalizing e with
  | top r => simp
  | known r => simp
  | under r t ih =>
    rw [EntryShows, EntryShows, parent_entrySkeleton, restOf_map_skeleton, isWildcard_skeleton,
      entries_skeleton, returnState_entrySkeleton]
    simp [ih]

/-- What entries show does not depend on identities and digests. -/
theorem entriesShow_skeleton (es : List (Entry Context)) (t : Trace) :
    EntriesShow root (es.map entrySkeleton) t ↔ EntriesShow root es t := by
  simp [EntriesShow, entryShows_skeleton]

/-- A context shows what its skeleton shows. -/
theorem shows_skeleton (c : Context) (t : Trace) : Shows root c.skeleton t ↔ Shows root c t := by
  rw [Shows, Shows, isWildcard_skeleton, entries_skeleton, entriesShow_skeleton]

/-! ## Contexts from what they show -/

/-- Well-formed entries have the least return state of entries that show the same at the front. -/
theorem returnState_le_of_shows (hes : EntriesWellFormed (e :: es))
    (hsame : ∀ t, EntriesShow root (f :: fs) t → EntriesShow root (e :: es) t) :
    e.returnState ≤ f.returnState := by
  have hshown : EntriesShow root (e :: es) (.top f.returnState) := hsame _ (by simp)
  rw [entriesShow_cons] at hshown
  rcases hshown with hhead | ⟨g, hg, hgr⟩
  · exact Int.le_of_eq hhead
  · rw [entryShows_top] at hgr
    have hlow := hes.head g hg
    omega

/-- What the first of well-formed entries shows is what they show with its return state. -/
theorem entryShows_head_iff (hes : EntriesWellFormed (e :: es)) {t : Trace} :
    EntryShows root t e ↔ EntriesShow root (e :: es) t ∧ t.returnState = e.returnState := by
  refine ⟨fun h => ⟨by simp [h], (returnState_of_entryShows h).symm⟩, fun ⟨h, hreturn⟩ => ?_⟩
  rcases entriesShow_cons.mp h with h | ⟨g, hg, hgshows⟩
  · exact h
  · have hlow := hes.head g hg
    rw [returnState_of_entryShows hgshows, hreturn] at hlow
    omega

/-- What well-formed entries behind the first show is what they show with another return state. -/
theorem entriesShow_tail_iff (hes : EntriesWellFormed (e :: es)) {t : Trace} :
    EntriesShow root es t ↔ EntriesShow root (e :: es) t ∧ t.returnState ≠ e.returnState := by
  refine ⟨fun h => ⟨by simp [h], ?_⟩, fun ⟨h, hreturn⟩ => ?_⟩
  · obtain ⟨g, hg, hgshows⟩ := h
    have hlow := hes.head g hg
    rw [returnState_of_entryShows hgshows] at hlow
    omega
  · rcases entriesShow_cons.mp h with h | h
    · exact (hreturn (returnState_of_entryShows h).symm).elim
    · exact h

/-- Well-formed entries that show the same have the same skeletons, if this is so of their
parents. -/
theorem map_entrySkeleton_eq_of_shows (hes : EntriesWellFormed es) (hfs : EntriesWellFormed fs)
    (hparents : ∀ e ∈ es, ∀ p ∈ e.parent, ∀ f ∈ fs, ∀ q ∈ f.parent,
      (∀ t, Shows root p t ↔ Shows root q t) → p.skeleton = q.skeleton)
    (hsame : ∀ t, EntriesShow root es t ↔ EntriesShow root fs t) :
    es.map entrySkeleton = fs.map entrySkeleton := by
  induction es generalizing fs with
  | nil =>
    cases fs with
    | nil => rfl
    | cons f fs => simpa using hsame (.top f.returnState)
  | cons e es ih =>
    cases fs with
    | nil => simpa using hsame (.top e.returnState)
    | cons f fs =>
      -- The return states that show up are at least the first ones, on either side.
      have hreturn : e.returnState = f.returnState := Int.le_antisymm
        (returnState_le_of_shows hes fun t => (hsame t).mpr)
        (returnState_le_of_shows hfs fun t => (hsame t).mp)
      have hhead (t : Trace) : EntryShows root t e ↔ EntryShows root t f := by
        rw [entryShows_head_iff hes, entryShows_head_iff hfs, hsame, hreturn]
      have htail (t : Trace) : EntriesShow root es t ↔ EntriesShow root fs t := by
        rw [entriesShow_tail_iff hes, entriesShow_tail_iff hfs, hsame, hreturn]
      have hrest := ih hes.tail hfs.tail (fun e he p hp f hf q hq =>
        hparents e (List.mem_cons_of_mem _ he) p hp f (List.mem_cons_of_mem _ hf) q hq) htail
      have hknown : e.parent.isSome = f.parent.isSome := by
        simpa [hreturn] using hhead (.known e.returnState)
      have hunder (t : Trace) : Shows root (restOf e.parent) t ↔ Shows root (restOf f.parent) t := by
        simpa [hreturn] using hhead (.under e.returnState t)
      have hparent : e.parent.map skeleton = f.parent.map skeleton := by
        cases hp : e.parent <;> cases hq : f.parent <;>
          simp only [hp, hq, Option.isSome_none, Option.isSome_some, reduceCtorEq] at hknown
        · rfl
        case some.some p q =>
          rw [hp, hq] at hunder
          rw [Option.map_some, Option.map_some,
            hparents e List.mem_cons_self p hp f List.mem_cons_self q hq hunder]
      rw [List.map_cons, List.map_cons, hrest, entrySkeleton_eq, entrySkeleton_eq, hparent, hreturn]

variable [NodeDigest]

/-- The rest of a stack belongs to the history of the parent. -/
theorem holds_restOf {h : History} {p : Option Context} (hp : h.HoldsParent p) :
    h.Holds (restOf p) := by
  cases p with
  | none => exact .empty
  | some c => exact hp c rfl

/-- A node that is not the empty context does not show what the empty context shows. -/
theorem isEmpty_of_shows_empty {h : History} (hc : h.Holds c) (hwell : c.WellFormed)
    (hsame : ∀ t, Shows root c t ↔ Shows root empty t) : c.isEmpty = true := by
  by_contra hempty
  have hentries := wellFormed_iff.mp hwell
  have hshown (t : Trace) := hsame t
  simp only [shows_iff_of_not_isWildcard (not_isWildcard_of_not_isEmpty hempty)] at hshown
  cases root with
  | wildcard =>
    -- A wildcard shows even return states that no well-formed context has.
    obtain ⟨e, he, hreturn⟩ := (hshown (.top (-2))).mpr (shows_of_isWildcard ⟨rfl, rfl⟩ _)
    rw [entryShows_top] at hreturn
    have hnonneg := hentries.nonneg e he (by rw [hreturn]; decide)
    omega
  | exact =>
    simp only [shows_iff_of_not_isWildcard not_isWildcard_exact] at hshown
    -- Every entry has the return state of the empty stack, so there is one, without a parent.
    have hall : ∀ e ∈ c.entries, e = ⟨none, emptyReturn⟩ := by
      intro e he
      have hbottom : e.returnState = emptyReturn := by
        obtain ⟨f, hf, hfshows⟩ := (hshown (.top e.returnState)).mp ⟨e, he, rfl⟩
        simp only [entries, List.mem_singleton] at hf
        subst hf
        exact hfshows.symm
      rcases e with ⟨p, r⟩
      obtain rfl : p = none := hentries.bottom _ he hbottom
      obtain rfl : r = emptyReturn := hbottom
      rfl
    apply hc.entries_ne_bottom hempty
    have hascending := hentries.ascending
    rcases hcentries : c.entries with _ | ⟨e, _ | ⟨f, rest⟩⟩
    · exact (c.entries_ne_nil hcentries).elim
    · rw [hall e (by simp [hcentries])]
    · rw [hcentries] at hascending hall
      have hlow := (List.pairwise_cons.mp hascending).1 f (by simp)
      rw [hall e (by simp), hall f (by simp)] at hlow
      omega

/-- Well-formed contexts of one history that show the same have the same skeleton. -/
theorem skeleton_eq_of_shows {h : History} (hc : h.Holds c) (hd : h.Holds d)
    (hcwell : c.WellFormed) (hdwell : d.WellFormed)
    (hsame : ∀ t, Shows root c t ↔ Shows root d t) : c.skeleton = d.skeleton := by
  induction c using induct generalizing d with
  | empty =>
    rw [isEmpty_iff.mp (isEmpty_of_shows_empty hd hdwell fun t => (hsame t).symm)]
  | node id digest first rest ih =>
    cases d with
    | empty =>
      have hempty := isEmpty_of_shows_empty hc hcwell hsame
      rw [isEmpty_iff.mp hempty]
    | node id' digest' first' rest' =>
      have hentries := wellFormed_iff.mp hcwell
      have hentries' := wellFormed_iff.mp hdwell
      simp only [shows_node] at hsame
      have hmap := map_entrySkeleton_eq_of_shows hentries hentries' (fun e he p hp f hf q hq =>
        ih e he p hp (hc.entries e he p hp) (hd.entries f hf q hq)
          (hentries.parents e he p hp) (hentries'.parents f hf q hq)) hsame
      simpa [skeleton, entriesSkeleton_eq, entries] using hmap

/-- Well-formed contexts of one history that show the same are equal. -/
theorem beq_of_shows {h : History} (hc : h.Holds c) (hd : h.Holds d) (hcwell : c.WellFormed)
    (hdwell : d.WellFormed) (hsame : ∀ t, Shows root c t ↔ Shows root d t) : (c == d) = true :=
  (beq_iff hc hd).mpr (skeleton_eq_of_shows hc hd hcwell hdwell hsame)

/-- Equal contexts of one history show the same. -/
theorem shows_of_beq {h : History} (hc : h.Holds c) (hd : h.Holds d) (heq : (c == d) = true)
    (t : Trace) : Shows root c t ↔ Shows root d t := by
  rw [← shows_skeleton c, (beq_iff hc hd).mp heq, shows_skeleton]

end Context

end TransitionNetwork
