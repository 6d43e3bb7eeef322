import TransitionNetwork.Proofs.Context.Sessions
import TransitionNetwork.Proofs.Context.Members

/-!
# Forms of nodes

A node has one of three forms: the empty context, one entry with a return state that is not
negative, or several entries in strictly ascending order, of which only the first may be that of the
empty stack. A context is regular if every node that can be reached has such a form. Making a node
from ascending entries over regular contexts gives a regular context, and so does every step of a
merge, whatever regular contexts a cache holds for whatever pairs.
-/

namespace TransitionNetwork

namespace Context

/-! ## Regular contexts -/

/-- The forms that a node may have. -/
inductive NodeForm : Context → Prop
  | empty : NodeForm .empty
  /-- One entry, whose return state is not negative. -/
  | singleton {id : NodeId} {digest : UInt64} {e : Entry Context} (hreturn : 0 ≤ e.returnState) :
      NodeForm (.node id digest e [])
  /-- Several entries in strictly ascending order. The first may be that of the empty stack, without
  a parent; the return states of the others are not negative. -/
  | array {id : NodeId} {digest : UInt64} {first second : Entry Context}
      {rest : List (Entry Context)}
      (hascending : (first :: second :: rest).Pairwise (·.returnState < ·.returnState))
      (hfirst : first = ⟨none, emptyReturn⟩ ∨ 0 ≤ first.returnState)
      (hrest : ∀ e ∈ second :: rest, 0 ≤ e.returnState) :
      NodeForm (.node id digest first (second :: rest))

/-- Every node that can be reached has one of the forms. -/
def Regular (c : Context) : Prop := ∀ d, c.Reaches d → NodeForm d

/-- Ascending entries over regular contexts. -/
structure EntriesRegular (es : List (Entry Context)) : Prop extends Ascending es where
  parents : ∀ e ∈ es, ∀ p ∈ e.parent, p.Regular

variable {a b c : Context} {e f : Entry Context} {es fs : List (Entry Context)}

/-- The entries of each form ascend. -/
theorem NodeForm.ascending (hc : NodeForm c) : Ascending c.entries := by
  have hvalue : emptyReturn = -1 := rfl
  cases hc with
  | empty => exact ⟨by simp [entries], by simp [entries], by simp [entries]⟩
  | singleton hreturn =>
    exact Ascending.nil.cons (by simp) (fun hbottom => by omega) (fun _ => hreturn)
  | array hascending hfirst hrest =>
    have hbehind : Ascending (_ :: _) := ⟨(List.pairwise_cons.mp hascending).2,
      fun e he hbottom => by have := hrest e he; omega, fun e he _ => hrest e he⟩
    refine hbehind.cons (List.pairwise_cons.mp hascending).1 (fun hbottom => ?_) fun hbottom => ?_
    · rcases hfirst with rfl | hnonneg
      · rfl
      · omega
    · exact hfirst.resolve_left fun heq => hbottom (by rw [heq])

/-- A node of one entry has no negative return state. -/
theorem NodeForm.nonneg_top (hc : NodeForm c) (harray : ¬ c.isArray = true)
    (hempty : ¬ c.isEmpty = true) : 0 ≤ c.top.returnState := by
  cases hc with
  | empty => exact (hempty rfl).elim
  | singleton hreturn => exact hreturn
  | array => exact (harray rfl).elim

/-- A context made from ascending entries has one of the forms. -/
theorem nodeForm_ofEntries [NodeDigest] (hes : Ascending es) (next : NodeId) :
    NodeForm (ofEntries es next).1 := by
  have hvalue : emptyReturn = -1 := rfl
  rcases es with _ | ⟨e, _ | ⟨f, rest⟩⟩
  · exact .empty
  · rw [ofEntries, Context.singleton]
    split
    · exact .empty
    next hproper =>
      refine .singleton (hes.nonneg e List.mem_cons_self fun hbottom => hproper ⟨?_, hbottom⟩)
      rw [hes.bottom e List.mem_cons_self hbottom]
      rfl
  · have hfirst : e = ⟨none, emptyReturn⟩ ∨ 0 ≤ e.returnState := by
      by_cases hbottom : e.returnState = emptyReturn
      · have hparent := hes.bottom e List.mem_cons_self hbottom
        rcases e with ⟨p, r⟩
        cases hparent
        cases hbottom
        exact Or.inl rfl
      · exact Or.inr (hes.nonneg e List.mem_cons_self hbottom)
    refine .array hes.ascending hfirst fun g hg => ?_
    -- Behind the first entry every return state is above that of the empty stack.
    have hlow := hes.head g hg
    refine hes.tail.nonneg g hg fun hbottom => ?_
    rcases hfirst with rfl | hnonneg
    · exact Int.lt_irrefl _ (hbottom ▸ hlow)
    · omega

/-- A regular context has one of the forms. -/
theorem Regular.nodeForm (hc : c.Regular) : NodeForm c := hc c .refl

/-- The entries of a regular context are regular. -/
theorem Regular.entries (hc : c.Regular) : EntriesRegular c.entries :=
  ⟨hc.nodeForm.ascending, fun e he _ hp d hd =>
    hc d (.of_parent (mem_parents.mpr ⟨e, he, hp⟩) hd)⟩

/-- The only entry of a regular context. -/
theorem Regular.entry (hc : c.Regular) (harray : ¬ c.isArray = true) : EntriesRegular [c.top] :=
  entries_of_not_isArray harray ▸ hc.entries

/-- The empty context is regular. -/
theorem regular_empty : empty.Regular :=
  forall_reaches_iff.mpr ⟨.empty, by simp [parents, Context.entries]⟩

/-- The rest of a stack over regular contexts is regular. -/
theorem regular_restOf {p : Option Context} (hp : ∀ c ∈ p, c.Regular) : (restOf p).Regular := by
  cases p with
  | none => exact regular_empty
  | some c => exact hp c rfl

/-- A context made from ascending entries over regular contexts is regular. -/
theorem regular_ofEntries [NodeDigest] (hes : EntriesRegular es) (next : NodeId) :
    (ofEntries es next).1.Regular := by
  by_cases hnil : es = []
  · subst hnil
    exact regular_empty
  · refine forall_reaches_iff.mpr ⟨nodeForm_ofEntries hes.toAscending next, fun p hp => ?_⟩
    obtain ⟨e, he, hparent⟩ := mem_parents.mp hp
    rw [entries_ofEntries hnil] at he
    exact hes.parents e he p hparent

namespace EntriesRegular

/-- No entries are regular. -/
theorem nil : EntriesRegular [] := ⟨.nil, fun _ h => (List.not_mem_nil h).elim⟩

/-- Regular entries are regular behind the first one. -/
theorem tail (h : EntriesRegular (e :: es)) : EntriesRegular es :=
  ⟨h.toAscending.tail, fun f hf => h.parents f (List.mem_cons_of_mem e hf)⟩

/-- The parent under the first of regular entries is regular. -/
theorem head_parent (h : EntriesRegular (e :: es)) : ∀ p ∈ e.parent, p.Regular :=
  h.parents e List.mem_cons_self

/-- An entry below all others can be put before regular entries. -/
theorem cons (h : EntriesRegular es) (hlow : ∀ f ∈ es, e.returnState < f.returnState)
    (hbottom : e.returnState = emptyReturn → e.parent = none)
    (hnonneg : e.returnState ≠ emptyReturn → 0 ≤ e.returnState)
    (hparent : ∀ p ∈ e.parent, p.Regular) : EntriesRegular (e :: es) :=
  ⟨h.toAscending.cons hlow hbottom hnonneg, List.forall_mem_cons.mpr ⟨hparent, h.parents⟩⟩

/-- The first of regular entries can be put before others that lie above it. -/
theorem cons_head (hes : EntriesRegular (e :: es)) (hfs : EntriesRegular fs)
    (hlow : ∀ f ∈ fs, e.returnState < f.returnState) : EntriesRegular (e :: fs) :=
  hfs.cons hlow (hes.bottom e List.mem_cons_self) (hes.nonneg e List.mem_cons_self) hes.head_parent

/-- One entry with a return state that is not negative. -/
theorem single {p : Option Context} {r : Int} (hnonneg : 0 ≤ r) (hparent : ∀ c ∈ p, c.Regular) :
    EntriesRegular [⟨p, r⟩] := by
  refine nil.cons (by simp) (fun hbottom => ?_) (fun _ => hnonneg) hparent
  change r = -1 at hbottom
  omega

end EntriesRegular

/-! ## Entries of new nodes -/

variable {root : RootReading}

/-- The empty stack is put before a regular context of one entry. -/
theorem EntriesRegular.bottom_cons (hc : c.Regular) (harray : ¬ c.isArray = true)
    (hempty : ¬ c.isEmpty = true) : EntriesRegular (Context.empty.top :: c.entries) := by
  have hnonneg := hc.nodeForm.nonneg_top harray hempty
  refine hc.entries.cons (fun f hf => ?_) (fun _ => rfl) (fun hne => (hne rfl).elim)
    fun _ hp => (by cases hp)
  rw [entries_of_not_isArray harray, List.mem_singleton] at hf
  subst hf
  exact Int.lt_of_lt_of_le (by decide) hnonneg

/-- The entries for an operand that is empty are regular. -/
theorem entriesRegular_rootEntries (ha : a.Regular) (hb : b.Regular)
    (haarray : ¬ a.isArray = true) (hbarray : ¬ b.isArray = true)
    (hes : rootEntries root a b = some es) : EntriesRegular es := by
  obtain ⟨rfl, -, -⟩ | ⟨-, ⟨-, hbe, rfl⟩ | ⟨-, hae, rfl⟩⟩ := rootEntries_cases hes
  · exact .nil
  · exact .bottom_cons hb hbarray (by simp [hbe])
  · exact .bottom_cons ha haarray (by simp [hae])

/-- Two regular entries with different return states are regular in ascending order. -/
theorem entriesRegular_inOrder (he : EntriesRegular [e]) (hf : EntriesRegular [f])
    (hreturn : e.returnState ≠ f.returnState) : EntriesRegular (inOrder e f) := by
  have hcons {e f : Entry Context} (he : EntriesRegular [e]) (hf : EntriesRegular [f])
      (hlow : e.returnState < f.returnState) : EntriesRegular [e, f] :=
    hf.cons (by simpa using hlow) (he.bottom e List.mem_cons_self)
      (he.nonneg e List.mem_cons_self) he.head_parent
  rw [inOrder]
  split
  · exact hcons hf he ‹_›
  · exact hcons he hf (by omega)

/-- An equal parent may take the place of another one. -/
theorem entriesRegular_twoEntries (he : EntriesRegular [e]) (hf : EntriesRegular [f])
    (hreturn : e.returnState ≠ f.returnState) : EntriesRegular (twoEntries e f) := by
  rw [twoEntries]
  split
  next hshared =>
    -- Only an entry over a parent is changed, so that it is not that of the empty stack.
    have hknown : f.parent ≠ none := fun hnone => by
      obtain ⟨hsome, hsame⟩ := hshared
      cases hp : e.parent <;> simp [hp, hnone, beqParent] at hsome hsame
    refine entriesRegular_inOrder he (EntriesRegular.nil.cons (by simp) (fun hbottom => ?_)
      (hf.nonneg f List.mem_cons_self) he.head_parent) hreturn
    exact (hknown (hf.bottom f List.mem_cons_self hbottom)).elim
  · exact entriesRegular_inOrder he hf hreturn

variable [NodeDigest]

/-- Sharing parents keeps the return states. -/
theorem returnState_shareParents (es : List (Entry Context)) (table : ContextTable) :
    (shareParents es table).map Entry.returnState = es.map Entry.returnState := by
  induction es generalizing table with
  | nil => rfl
  | cons e rest ih => rcases e with ⟨_ | p, r⟩ <;> simp [shareParents, ih]

/-- Entries stay regular when members of a table take the places of parents. -/
theorem entriesRegular_shareParents (hes : EntriesRegular es) {table : ContextTable}
    (htable : ∀ d ∈ table.members, d.Regular) : EntriesRegular (shareParents es table) := by
  induction es generalizing table with
  | nil => exact .nil
  | cons e rest ih =>
    have hlow (table : ContextTable) : ∀ f ∈ shareParents rest table,
        e.returnState < f.returnState := by
      have hrest : ∀ r ∈ rest.map Entry.returnState, e.returnState < r := by
        simpa using hes.head
      rw [← returnState_shareParents rest table] at hrest
      simpa using hrest
    rcases e with ⟨_ | p, r⟩
    · exact (ih hes.tail htable).cons (hlow table) (fun _ => rfl)
        (hes.nonneg _ List.mem_cons_self) hes.head_parent
    · obtain ⟨hp, htable'⟩ :=
        ContextTable.forall_members_intern htable (hes.head_parent p rfl)
      refine (ih hes.tail htable').cons (hlow _) (fun hbottom => ?_)
        (hes.nonneg ⟨some p, r⟩ List.mem_cons_self) (by rintro _ ⟨⟩; exact hp)
      cases hes.bottom _ List.mem_cons_self hbottom

end Context

/-! ## Caches -/

/-- The nodes for which results are kept and the results are regular. -/
def MergeCache.Regular (h : History) (cache : MergeCache) : Prop :=
  cache.Relates (fun a b c => a.Regular ∧ b.Regular ∧ c.Regular) h

/-- The cache, if there is one, is regular. -/
def MergeState.Regular (h : History) (m : MergeState) : Prop := ∀ cache ∈ m.cache, cache.Regular h

variable {h : History} {m : MergeState} {a b c : Context}

/-- A result that a regular cache has is regular. -/
theorem MergeState.Regular.known? [NodeDigest] (hm : m.Regular h) (ha : h.Holds a) (hb : h.Holds b)
    (hc : m.known? a b = some c) : c.Regular :=
  (Relates.known? hm (fun ⟨ha, hb, hc⟩ => ⟨hb, ha, hc⟩) ha hb hc).2.2

/-! ## Merges -/

namespace Context

variable [NodeDigest] {root : RootReading} {es fs : List (Entry Context)}

/-- The result and the cache are regular. -/
def MergesRegular (h : History) (result : Context × MergeState) : Prop :=
  result.1.Regular ∧ result.2.Regular h

/-- The rest of the stack, if it is known, and the cache are regular. -/
def ParentsMergeRegular (h : History) (result : Option Context × MergeState) : Prop :=
  (∀ p ∈ result.1, p.Regular) ∧ result.2.Regular h

/-- The entries and the cache are regular. -/
def EntriesMergeRegular (h : History) (result : List (Entry Context) × MergeState) : Prop :=
  EntriesRegular result.1 ∧ result.2.Regular h

/-- Every bound below the entries of two lists is below those of the result. -/
def KeepsBounds (es fs gs : List (Entry Context)) : Prop :=
  ∀ n : Int, (∀ e ∈ es, n < e.returnState) → (∀ f ∈ fs, n < f.returnState) →
    ∀ g ∈ gs, n < g.returnState

namespace KeepsBounds

omit [NodeDigest]

variable {e f g : Entry Context} {gs : List (Entry Context)}

/-- The first entry on the left may stand before the result. -/
theorem left (h : KeepsBounds es fs gs) : KeepsBounds (e :: es) fs (e :: gs) := by
  intro n hn hn'
  obtain ⟨he, hn⟩ := List.forall_mem_cons.mp hn
  exact List.forall_mem_cons.mpr ⟨he, h n hn hn'⟩

/-- The first entry on the right may stand before the result. -/
theorem right (h : KeepsBounds es fs gs) : KeepsBounds es (f :: fs) (f :: gs) := by
  intro n hn hn'
  obtain ⟨hf, hn'⟩ := List.forall_mem_cons.mp hn'
  exact List.forall_mem_cons.mpr ⟨hf, h n hn hn'⟩

/-- An entry with the return state of the first one may stand before the result for both. -/
theorem both (h : KeepsBounds es fs gs) (hreturn : e.returnState = g.returnState) :
    KeepsBounds (e :: es) (f :: fs) (g :: gs) := by
  intro n hn hn'
  obtain ⟨he, hn⟩ := List.forall_mem_cons.mp hn
  exact List.forall_mem_cons.mpr ⟨hreturn ▸ he, h n hn (List.forall_mem_cons.mp hn').2⟩

end KeepsBounds

/-- A node made from regular entries is regular, and the cache is left alone. -/
theorem mergesRegular_make (hm : m.Regular h) (hes : EntriesRegular es) :
    MergesRegular h (m.make es) := ⟨regular_ofEntries hes m.next, hm⟩

/-- Keeping the result leaves the cache regular. -/
theorem MergesRegular.remember {result : Context × MergeState} (haheld : h.Holds a)
    (hbheld : h.Holds b) (ha : a.Regular) (hb : b.Regular) (hresult : MergesRegular h result) :
    MergesRegular h (result.1, result.2.remember a b result.1) :=
  ⟨hresult.1, MergeState.Relates.remember hresult.2 haheld hbheld ⟨ha, hb, hresult.1⟩⟩

/-- The context for merged entries that are regular is regular. -/
theorem mergesRegular_ofMerged (ha : a.Regular) (hb : b.Regular) (hm : m.Regular h)
    (hes : EntriesRegular es) : MergesRegular h (ofMerged a b es m) := by
  rw [ofMerged]
  split
  · exact ⟨ha, hm⟩
  · split
    · exact ⟨hb, hm⟩
    · exact mergesRegular_make hm
        (entriesRegular_shareParents hes (by simp [ContextTable.members_empty]))

omit [NodeDigest] in
/-- Two entries with a common return state are one entry over their merged parents, which can be put
before regular entries. -/
theorem EntriesRegular.cons_merged {e f : Entry Context} {p : Option Context}
    {gs : List (Entry Context)} (hgs : EntriesRegular gs)
    (hlow : ∀ g ∈ gs, e.returnState < g.returnState) (he : EntriesRegular (e :: es))
    (hf : EntriesRegular (f :: fs)) (hreturn : e.returnState = f.returnState)
    (hdifferent : ¬ sameParent e.parent f.parent = true) (hp : ∀ c ∈ p, c.Regular) :
    EntriesRegular (⟨p, e.returnState⟩ :: gs) := by
  refine hgs.cons hlow (fun hbottom => ?_) (he.nonneg e List.mem_cons_self) hp
  -- Two entries of the empty stack have no parents.
  rw [he.bottom e List.mem_cons_self hbottom,
    hf.bottom f List.mem_cons_self (hreturn ▸ hbottom)] at hdifferent
  exact (hdifferent rfl).elim

/-- The context for merged parents is regular. -/
theorem mergesRegular_ofParent (haheld : h.Holds a) (hbheld : h.Holds b) (ha : a.Regular)
    (hb : b.Regular) (hm : m.Regular h) {p : Option Context} (hp : ∀ c ∈ p, c.Regular)
    (hnonneg : 0 ≤ a.top.returnState) : MergesRegular h (ofParent a b p m) := by
  rw [ofParent]
  split
  · exact ⟨ha, hm⟩
  · split
    · exact ⟨hb, hm⟩
    · exact (mergesRegular_make hm (.single hnonneg hp)).remember haheld hbheld ha hb

/-- Every branch of a merge of regular contexts gives a regular one, if the merges within do. Of
lists of entries it is shown as well that bounds are kept, which is what lets an entry be put before
the merged ones behind it. -/
theorem mergeRule_regular : MergeRule root
    (fun a b m result => h.Holds a → h.Holds b → a.Regular → b.Regular → m.Regular h →
      MergesRegular h result)
    (fun p q m result => h.HoldsParent p → h.HoldsParent q → (∀ c ∈ p, c.Regular) →
      (∀ c ∈ q, c.Regular) → m.Regular h → ParentsMergeRegular h result)
    (fun es fs m result => h.HoldsEntries es → h.HoldsEntries fs → EntriesRegular es →
      EntriesRegular fs → m.Regular h →
      EntriesMergeRegular h result ∧ KeepsBounds es fs result.1) where
  same _ _ _ ha _ hm := ⟨ha, hm⟩
  wildcard _ _ hwild _ _ ha hb hm := by
    rcases (isUnion_of_wildcardOf hwild).1 with rfl | rfl
    · exact ⟨ha, hm⟩
    · exact ⟨hb, hm⟩
  known _ _ hknown haheld hbheld _ _ hm := ⟨hm.known? haheld hbheld hknown, hm⟩
  arrays _ _ _ _ hentries haheld hbheld ha hb hm := by
    obtain ⟨⟨hes, hm'⟩, -⟩ := hentries haheld.entries hbheld.entries ha.entries hb.entries hm
    exact (mergesRegular_ofMerged ha hb hm' hes).remember haheld hbheld ha hb
  roots _ harray _ hroot haheld hbheld ha hb hm := by
    obtain ⟨haarray, hbarray⟩ := not_isArray_of_or harray
    exact (mergesRegular_make hm
      (entriesRegular_rootEntries ha hb haarray hbarray hroot)).remember haheld hbheld ha hb
  sameTop _ harray _ hroot _ hparents haheld hbheld ha hb hm := by
    obtain ⟨haarray, hbarray⟩ := not_isArray_of_or harray
    obtain ⟨hp, hm'⟩ := hparents haheld.top hbheld.top (ha.entry haarray).head_parent
      (hb.entry hbarray).head_parent hm
    exact mergesRegular_ofParent haheld hbheld ha hb hm' hp
      (ha.nodeForm.nonneg_top haarray (not_isEmpty_of_rootEntries hroot).1)
  twoTops _ harray _ _ hreturn haheld hbheld ha hb hm := by
    obtain ⟨haarray, hbarray⟩ := not_isArray_of_or harray
    exact (mergesRegular_make hm (entriesRegular_twoEntries (ha.entry haarray) (hb.entry hbarray)
      hreturn)).remember haheld hbheld ha hb
  unknownParents _ _ hp _ hm := ⟨hp, hm⟩
  parents _ hrests hpheld hqheld hp hq hm := by
    obtain ⟨hc, hm'⟩ := hrests (holds_restOf hpheld) (holds_restOf hqheld) (regular_restOf hp)
      (regular_restOf hq) hm
    exact ⟨by rintro _ ⟨⟩; exact hc, hm'⟩
  nilLeft _ _ _ hfs hm := ⟨⟨hfs, hm⟩, fun _ _ hlow => hlow⟩
  nilRight _ _ hes _ hm := ⟨⟨hes, hm⟩, fun _ hlow _ => hlow⟩
  left {e f _ fs _} hlow hrest hesheld hfsheld hes hfs hm := by
    obtain ⟨⟨hgs, hm'⟩, hbounds⟩ :=
      hrest (List.forall_mem_cons.mp hesheld).2 hfsheld hes.tail hfs hm
    -- What is behind `e` on both sides is above it, so that what it merges to is so as well.
    have hbelow : ∀ g ∈ f :: fs, e.returnState < g.returnState :=
      List.forall_mem_cons.mpr ⟨hlow, fun g hg => Int.lt_trans hlow (hfs.head g hg)⟩
    exact ⟨⟨hes.cons_head hgs (hbounds _ hes.head hbelow), hm'⟩, hbounds.left⟩
  right {e f es _ _} hlow hrest hesheld hfsheld hes hfs hm := by
    obtain ⟨⟨hgs, hm'⟩, hbounds⟩ :=
      hrest hesheld (List.forall_mem_cons.mp hfsheld).2 hes hfs.tail hm
    have hbelow : ∀ g ∈ e :: es, f.returnState < g.returnState :=
      List.forall_mem_cons.mpr ⟨hlow, fun g hg => Int.lt_trans hlow (hes.head g hg)⟩
    exact ⟨⟨hfs.cons_head hgs (hbounds _ hbelow hfs.head), hm'⟩, hbounds.right⟩
  keptParent hreturn _ hrest hesheld hfsheld hes hfs hm := by
    obtain ⟨⟨hgs, hm'⟩, hbounds⟩ := hrest (List.forall_mem_cons.mp hesheld).2
      (List.forall_mem_cons.mp hfsheld).2 hes.tail hfs.tail hm
    exact ⟨⟨hes.cons_head hgs (hbounds _ hes.head (hreturn ▸ hfs.head)), hm'⟩, hbounds.both rfl⟩
  mergedParents hreturn hdifferent hm' hparents hrest hesheld hfsheld hes hfs hm := by
    subst hm'
    obtain ⟨heheld, hesheld'⟩ := List.forall_mem_cons.mp hesheld
    obtain ⟨hfheld, hfsheld'⟩ := List.forall_mem_cons.mp hfsheld
    obtain ⟨hp, hm'⟩ := hparents heheld hfheld hes.head_parent hfs.head_parent hm
    obtain ⟨⟨hgs, hm''⟩, hbounds⟩ := hrest hesheld' hfsheld' hes.tail hfs.tail hm'
    exact ⟨⟨hgs.cons_merged (hbounds _ hes.head (hreturn ▸ hfs.head)) hes hfs hreturn hdifferent hp,
      hm''⟩, hbounds.both rfl⟩

/-- Merging regular contexts gives a regular one. -/
theorem mergesRegular_merge {a b : Context} {m : MergeState} (haheld : h.Holds a)
    (hbheld : h.Holds b) (ha : a.Regular) (hb : b.Regular) (hm : m.Regular h) :
    MergesRegular h (merge root a b m) :=
  mergeRule_regular.of_merge a b m haheld hbheld ha hb hm

/-- Merging regular contexts, under either reading and without a cache or with one that is regular,
gives a regular context and leaves the cache regular. What results the cache holds for which nodes
does not matter. -/
theorem merge_regular {a b : Context} (haheld : h.Holds a) (hbheld : h.Holds b) (ha : a.Regular)
    (hb : b.Regular) (root : RootReading) (next : NodeId) {cache : Option MergeCache}
    (hcache : ∀ kept ∈ cache, kept.Regular h) :
    let result := merge root a b ⟨next, cache⟩
    result.1.Regular ∧ ∀ kept ∈ result.2.cache, kept.Regular h :=
  mergesRegular_merge haheld hbheld ha hb hcache

end Context

/-! ## Two callers -/

namespace Context

/-- The unsure caller is regular. -/
theorem regular_unsureCaller : unsureCaller.Regular := by
  have hlast : EntriesRegular [⟨none, 7⟩] := .single (by decide) (by simp)
  have hentries : EntriesRegular [⟨none, emptyReturn⟩, ⟨none, 7⟩] :=
    hlast.cons (by simp [emptyReturn]) (by simp) (by simp) (by simp)
  exact regular_ofEntries hentries 1

/-- The sole caller is regular. -/
theorem regular_soleCaller : soleCaller.Regular := by
  have hentries : EntriesRegular [⟨some empty, 7⟩] :=
    .single (by decide) (by simpa using regular_empty)
  exact regular_ofEntries hentries 2

/-- The cache holds a result that no merge would keep. -/
theorem merge_regular_callers :
    ∃ h : History, h.Holds soleCaller ∧ h.Holds unsureCaller ∧ soleCaller.Regular ∧
      unsureCaller.Regular ∧ (MergeCache.insert ∅ soleCaller unsureCaller empty).Regular h ∧
      let result :=
        merge .exact soleCaller unsureCaller ⟨3, some (.insert ∅ soleCaller unsureCaller empty)⟩
      result.1.Regular ∧ ∀ kept ∈ result.2.cache, kept.Regular h := by
  obtain ⟨h, hsound⟩ := Session.reached_callers.sound
  have hsole : h.Holds soleCaller := hsound.contexts _ (by simp [Session.callers])
  have hunsure : h.Holds unsureCaller := hsound.contexts _ (by simp [Session.callers])
  have hcache : (MergeCache.insert ∅ soleCaller unsureCaller empty).Regular h :=
    MergeCache.relates_empty.insert hsole hunsure
      ⟨regular_soleCaller, regular_unsureCaller, regular_empty⟩
  refine ⟨h, hsole, hunsure, regular_soleCaller, regular_unsureCaller, hcache, ?_⟩
  exact merge_regular hsole hunsure regular_soleCaller regular_unsureCaller .exact 3
    (by rintro _ ⟨⟩; exact hcache)

end Context

end TransitionNetwork
