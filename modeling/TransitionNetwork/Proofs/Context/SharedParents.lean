import Mathlib.Data.List.Forall2
import TransitionNetwork.Proofs.Context.Tables

/-!
# Shared parents

A merge lets equal parents of a new node be one node: those of two entries by comparing them, and
those of merged entries by a table in which each parent is looked up. As the table finds the first
parent of a structure, sharing puts the first equal parent of the list in the place of every parent.
The parents may come from merges within, which make nodes of their own, so it has to be shown
through the recursion that all nodes that are made share their parents. This asks nothing of the
operands but that they belong to a history, and of the cache only that its results do.
-/

namespace TransitionNetwork

namespace Context

/-- Parents of entries that have the same structure are one node. -/
def EntriesShare (es : List (Entry Context)) : Prop :=
  ∀ p ∈ es.filterMap Entry.parent, ∀ q ∈ es.filterMap Entry.parent, p.skeleton = q.skeleton → p = q

/-- Parents of the node that have the same structure are one node. -/
def SharesParents (c : Context) : Prop :=
  ∀ p ∈ c.parents, ∀ q ∈ c.parents, p.skeleton = q.skeleton → p = q

/-- A context is the first one in a list that has the structure of another one. -/
def FirstAlike (cs : List Context) (c first : Context) : Prop :=
  ∃ before after, cs = before ++ first :: after ∧ first.skeleton = c.skeleton ∧
    ∀ d ∈ before, d.skeleton ≠ c.skeleton

end Context

variable [NodeDigest] {h h' h'' : History}

/-! ## Sharing by a table -/

/-- The table finds for every context the first one in a list that is equal to it. -/
def ContextTable.FindsFirst (h : History) (table : ContextTable) (cs : List Context) : Prop :=
  ∀ c, h.Holds c → table.find? c = cs.find? (· == c)

namespace ContextTable

variable {table : ContextTable} {c : Context} {cs : List Context}

/-- A new table finds for every context what a list without members has for it: nothing. -/
theorem findsFirst_empty : FindsFirst h ∅ [] := fun c _ => find?_empty c

/-- An interned context stands behind those that were interned before. -/
theorem FindsFirst.intern (hfirst : table.FindsFirst h cs) (htable : table.HeldBy h)
    (hc : h.Holds c) : (table.intern c).2.FindsFirst h (cs ++ [c]) := by
  intro d hd
  rw [List.find?_append, ← hfirst d hd]
  by_cases hsame : c.skeleton = d.skeleton
  · obtain ⟨-, -, htable'⟩ := htable.intern hc
    rw [← htable'.find?_congr hc hd hsame, find?_intern_self hc, ← htable.find?_congr hc hd hsame,
      ContextTable.intern]
    cases table.find? c with
    | some member => rfl
    | none => simp [(Context.beq_iff hc hd).mpr hsame]
  · have hbeq : (c == d) = false := by
      rw [Bool.eq_false_iff, ne_eq, Context.beq_iff hc hd]
      exact hsame
    rw [find?_intern_of_ne hc hd hsame, List.find?_singleton, hbeq, if_neg Bool.false_ne_true,
      Option.or_none]

end ContextTable

namespace Context

variable {es : List (Entry Context)} {e f : Entry Context} {c first : Context} {cs : List Context}

/-- What is found in a list of contexts of a history is the first one of the structure. -/
theorem firstAlike_of_find? (hcs : ∀ d ∈ cs, h.Holds d) (hc : h.Holds c)
    (hfind : cs.find? (· == c) = some first) : FirstAlike cs c first := by
  obtain ⟨hbeq, before, after, rfl, hbefore⟩ := List.find?_eq_some_iff_append.mp hfind
  refine ⟨before, after, rfl, (beq_iff (hcs first (by simp)) hc).mp hbeq, fun d hd hsame => ?_⟩
  have hne := hbefore d hd
  rw [(beq_iff (hcs d (List.mem_append_left _ hd)) hc).mpr hsame] at hne
  cases hne

/-- Every parent gives place to the first one that is equal, among those that were seen before and
those of the entries. -/
theorem shareParents_eq_map (hes : h.HoldsEntries es) {table : ContextTable}
    (htable : table.HeldBy h) (hfirst : table.FindsFirst h cs) :
    shareParents es table = es.map fun e =>
      ⟨e.parent.bind fun p => (cs ++ es.filterMap Entry.parent).find? (· == p), e.returnState⟩ := by
  induction es generalizing table cs with
  | nil => rfl
  | cons e rest ih =>
    obtain ⟨he, hrest⟩ := List.forall_mem_cons.mp hes
    rcases e with ⟨_ | p, r⟩
    · rw [shareParents, ih hrest htable hfirst]
      rfl
    · have hp : h.Holds p := he p rfl
      have hfirst' := hfirst.intern htable hp
      -- The table gives the first equal one up to `p`, and what comes behind does not change that.
      have hfound : (cs ++ [p] ++ rest.filterMap Entry.parent).find? (· == p) =
          some (table.intern p).1 := by
        rw [List.find?_append, ← hfirst' p hp, ContextTable.find?_intern_self hp, Option.some_or]
      rw [shareParents]
      dsimp only
      rw [ih hrest (htable.intern hp).2.2 hfirst', ← hfound, List.map_cons,
        List.append_assoc, List.singleton_append]
      rfl

/-- The same from the start, with nothing seen. -/
theorem shareParents_empty (hes : h.HoldsEntries es) :
    shareParents es ∅ = es.map fun e =>
      ⟨e.parent.bind fun p => (es.filterMap Entry.parent).find? (· == p), e.returnState⟩ :=
  shareParents_eq_map hes ContextTable.heldBy_empty ContextTable.findsFirst_empty

/-- The parents of entries of a history belong to it. -/
theorem holds_of_mem_filterMap_parent (hes : h.HoldsEntries es) :
    ∀ p ∈ es.filterMap Entry.parent, h.Holds p := by
  intro p hp
  obtain ⟨e, he, hparent⟩ := List.mem_filterMap.mp hp
  exact hes e he p hparent

/-- Sharing keeps the return states, and which parents are known, and replaces each parent by the
first one of its structure. -/
theorem forall₂_shareParents (hes : h.HoldsEntries es) :
    List.Forall₂ (fun e shared => shared.returnState = e.returnState ∧
      Option.Rel (FirstAlike (es.filterMap Entry.parent)) e.parent shared.parent)
      es (shareParents es ∅) := by
  rw [shareParents_empty hes, List.forall₂_map_right_iff, List.forall₂_same]
  intro e he
  refine ⟨rfl, ?_⟩
  cases hparent : e.parent with
  | none => exact .none
  | some p =>
    have hp : p ∈ es.filterMap Entry.parent := List.mem_filterMap.mpr ⟨e, he, hparent⟩
    obtain ⟨first, hfirst⟩ := Option.isSome_iff_exists.mp
      (List.find?_isSome.mpr ⟨p, hp, beq_self p⟩ :
        ((es.filterMap Entry.parent).find? (· == p)).isSome = true)
    have hheld := holds_of_mem_filterMap_parent hes
    rw [Option.bind_some, hfirst]
    exact .some (firstAlike_of_find? hheld (hheld p hp) hfirst)

/-! ## Entries of new nodes -/

/-- After sharing, parents of the same structure are one node. -/
theorem entriesShare_shareParents (hes : h.HoldsEntries es) : EntriesShare (shareParents es ∅) := by
  have hheld := holds_of_mem_filterMap_parent hes
  have hfound : ∀ p ∈ (shareParents es ∅).filterMap Entry.parent, ∃ c, h.Holds c ∧
      p.skeleton = c.skeleton ∧ (es.filterMap Entry.parent).find? (· == c) = some p := by
    intro p hp
    rw [shareParents_empty hes, List.filterMap_map, List.mem_filterMap] at hp
    obtain ⟨e, he, hp⟩ := hp
    obtain ⟨c, hc, hfind⟩ := Option.bind_eq_some_iff.mp hp
    have hcheld := hes e he c hc
    have hbeq : (p == c) = true := by simpa using List.find?_some hfind
    exact ⟨c, hcheld, (beq_iff (hheld p (List.mem_of_find?_eq_some hfind)) hcheld).mp hbeq, hfind⟩
  intro p hp q hq hsame
  obtain ⟨c, hc, hpc, hfind⟩ := hfound p hp
  obtain ⟨d, hd, hqd, hfind'⟩ := hfound q hq
  rw [find?_beq_congr hheld hc hd (hpc.symm.trans (hsame.trans hqd)), hfind'] at hfind
  exact (Option.some.inj hfind).symm

omit [NodeDigest] in
/-- One entry has at most one parent. -/
theorem entriesShare_singleton (e : Entry Context) : EntriesShare [e] := by
  intro p hp q hq _
  obtain ⟨_, he, hp⟩ := List.mem_filterMap.mp hp
  obtain ⟨_, hf, hq⟩ := List.mem_filterMap.mp hq
  rw [List.mem_singleton] at he hf
  rw [he] at hp
  rw [hf] at hq
  exact Option.some.inj (hp.symm.trans hq)

omit [NodeDigest] in
/-- With the empty stack before it, a context of one entry still has at most one parent. -/
theorem entriesShare_rootEntries {root : RootReading} {a b : Context} (haarray : ¬ a.isArray = true)
    (hbarray : ¬ b.isArray = true) (hes : rootEntries root a b = some es) : EntriesShare es := by
  have hbottom {c : Context} (harray : ¬ c.isArray = true) :
      EntriesShare (empty.top :: c.entries) := by
    rw [entries_of_not_isArray harray]
    exact entriesShare_singleton c.top
  obtain ⟨rfl, -⟩ | ⟨-, ⟨-, -, rfl⟩ | ⟨-, -, rfl⟩⟩ := rootEntries_cases hes
  · intro p hp
    cases hp
  · exact hbottom hbarray
  · exact hbottom haarray

/-- The entries for an operand that is empty belong to the history of the operands. -/
theorem holdsEntries_rootEntries {root : RootReading} {a b : Context} (ha : h.Holds a)
    (hb : h.Holds b) (hes : rootEntries root a b = some es) : h.HoldsEntries es := by
  obtain ⟨rfl, -⟩ | ⟨-, ⟨-, -, rfl⟩ | ⟨-, -, rfl⟩⟩ := rootEntries_cases hes
  · exact fun e he => (List.not_mem_nil he).elim
  · exact hb.bottom_cons
  · exact ha.bottom_cons

/-- Equal parents of two entries are one node. -/
theorem entriesShare_twoEntries (he : h.HoldsParent e.parent) (hf : h.HoldsParent f.parent) :
    EntriesShare (twoEntries e f) := by
  have hmem {e f : Entry Context} {p : Context} (hp : p ∈ (inOrder e f).filterMap Entry.parent) :
      p ∈ e.parent ∨ p ∈ f.parent := by
    rw [inOrder] at hp
    split at hp <;> simpa [or_comm] using hp
  intro p hp q hq hsame
  rw [twoEntries] at hp hq
  split at hp
  · rw [if_pos ‹_›] at hq
    exact Option.some.inj (((hmem hp).elim id id).symm.trans ((hmem hq).elim id id))
  next hdifferent =>
    rw [if_neg hdifferent] at hq
    -- Parents of the two entries that are equal would have been shared.
    have hne {c d : Context} (hc : c ∈ e.parent) (hd : d ∈ f.parent) :
        c.skeleton ≠ d.skeleton := fun hsame => hdifferent (by
      rw [Option.mem_def.mp hc, Option.mem_def.mp hd]
      exact ⟨rfl, (beq_iff (he c hc) (hf d hd)).mpr hsame⟩)
    rcases hmem hp with hp | hp <;> rcases hmem hq with hq | hq
    · exact Option.some.inj (hp.symm.trans hq)
    · exact (hne hp hq hsame).elim
    · exact (hne hq hp hsame.symm).elim
    · exact Option.some.inj (hp.symm.trans hq)

end Context

/-! ## Histories in which new nodes share -/

/-- A later history in which the nodes that were made meanwhile share their parents. -/
structure History.ExtendsSharing (h h' : History) : Prop extends h.Extends h' where
  shares : ∀ id, h.next ≤ id → id < h'.next → (h'.node id).SharesParents

namespace History.ExtendsSharing

omit [NodeDigest] in
/-- A history in which nothing was made meanwhile is later than itself. -/
theorem refl (h : History) : h.ExtendsSharing h :=
  ⟨.refl h, fun _ hid hnext => (Nat.not_lt.mpr hid hnext).elim⟩

omit [NodeDigest] in
/-- What was made in two later histories, one after the other, shares its parents in both. -/
theorem trans (hfirst : h.ExtendsSharing h') (hsecond : h'.ExtendsSharing h'') :
    h.ExtendsSharing h'' := by
  refine ⟨hfirst.toExtends.trans hsecond.toExtends, fun id hid hnext => ?_⟩
  by_cases hbefore : id < h'.next
  · rw [hsecond.node id hbefore]
    exact hfirst.shares id hid hbefore
  · exact hsecond.shares id (Nat.not_lt.mp hbefore) hnext

end History.ExtendsSharing

namespace Context

variable {es : List (Entry Context)}

/-- A context made from entries is the empty one, or the node that is new. -/
theorem ofEntries_cases (es : List (Entry Context)) (next : NodeId) :
    ofEntries es next = (empty, next) ∨
      ∃ c, ofEntries es next = (c, next + 1) ∧ c.identity = next := by
  rcases es with _ | ⟨e, _ | ⟨f, rest⟩⟩
  · exact Or.inl rfl
  · rw [ofEntries, singleton]
    split
    · exact Or.inl rfl
    · exact Or.inr ⟨_, rfl, rfl⟩
  · exact Or.inr ⟨_, rfl, rfl⟩

/-- The parents of a context are those of the entries from which it is made. -/
theorem parents_ofEntries (es : List (Entry Context)) (next : NodeId) :
    (ofEntries es next).1.parents = es.filterMap Entry.parent := by
  by_cases hnil : es = []
  · subst hnil
    rfl
  · rw [parents, entries_ofEntries hnil]

/-- A node that is made from entries that share their parents shares them. -/
theorem exists_sharing_ofEntries (hes : h.HoldsEntries es) (hshare : EntriesShare es) :
    ∃ h' : History, h.ExtendsSharing h' ∧ h'.next = (ofEntries es h.next).2 ∧
      h'.Holds (ofEntries es h.next).1 := by
  obtain ⟨h', hext, hnext, hheld⟩ := exists_holds_ofEntries hes
  refine ⟨h', ⟨hext, fun id hid hlast => ?_⟩, hnext, hheld⟩
  have hparents := parents_ofEntries es h.next
  rcases ofEntries_cases es h.next with hmade | ⟨c, hmade, hidentity⟩
  · rw [hnext, hmade] at hlast
    exact (Nat.not_lt.mpr hid hlast).elim
  · rw [hnext, hmade] at hlast
    rw [hmade] at hheld hparents
    rw [Nat.le_antisymm (Nat.le_of_lt_succ hlast) hid, ← hidentity, hheld.node_identity,
      SharesParents, hparents]
    exact hshare

end Context

/-! ## Results that belong to a history -/

/-- All results that are kept belong to the history, for whatever pairs they are kept. -/
def MergeCache.HeldBy (h : History) (cache : MergeCache) : Prop :=
  ∀ (i j : NodeId) (c : Context), cache.results[(i, j)]? = some c → h.Holds c

namespace MergeCache.HeldBy

variable {cache : MergeCache} {a b c : Context}

/-- A new cache has no results that would have to belong to the history. -/
theorem empty : (∅ : MergeCache).HeldBy h := fun i j c hc => by
  rw [getElem?_results_empty] at hc
  cases hc

/-- The results of a cache belong to every later history. -/
theorem mono (hcache : cache.HeldBy h) (hext : h.Extends h') : cache.HeldBy h' :=
  fun i j c hc => (hcache i j c hc).mono hext

/-- A result that is found belongs to the history. -/
theorem get? (hcache : cache.HeldBy h) (hc : cache.get? a b = some c) : h.Holds c := by
  rw [MergeCache.get?, Option.orElse_eq_orElse, Option.orElse_eq_or, Option.or_eq_some_iff] at hc
  rcases hc with hc | ⟨-, hc⟩
  · exact hcache _ _ c hc
  · exact hcache _ _ c hc

/-- A context of the history may be kept. -/
theorem insert (hcache : cache.HeldBy h) (hc : h.Holds c) : (cache.insert a b c).HeldBy h := by
  intro i j d hd
  rcases eq_or_of_getElem?_insert hd with ⟨-, -, rfl⟩ | hd
  · exact hc
  · exact hcache i j d hd

end MergeCache.HeldBy

/-- The free identity is that at the end of the history, and the results of the cache belong to
it. -/
structure MergeState.HeldBy (h : History) (m : MergeState) : Prop where
  next : m.next = h.next
  cache : ∀ cache ∈ m.cache, cache.HeldBy h

namespace MergeState.HeldBy

variable {m : MergeState} {a b c : Context}

/-- A result that is known belongs to the history. -/
theorem known? (hm : m.HeldBy h) (hc : m.known? a b = some c) : h.Holds c := by
  obtain ⟨cache, hcache, hc⟩ := Option.bind_eq_some_iff.mp hc
  exact (hm.cache cache hcache).get? hc

/-- A state may keep a context of its history. -/
theorem remember (hm : m.HeldBy h) (hc : h.Holds c) : (m.remember a b c).HeldBy h where
  next := hm.next
  cache _ hfilled := by
    obtain ⟨cache, hcache, rfl⟩ := Option.map_eq_some_iff.mp hfilled
    exact (hm.cache cache hcache).insert hc

end MergeState.HeldBy

/-- A result that belongs to a later history, up to which the state has come; the nodes that were
made meanwhile share their parents. -/
def MakesSharing {α : Type} (held : History → α → Prop) (h : History) (result : α × MergeState) :
    Prop :=
  ∃ h', h.ExtendsSharing h' ∧ result.2.HeldBy h' ∧ held h' result.1

namespace MakesSharing

variable {α : Type} {held : History → α → Prop} {m : MergeState} {a b c : Context}

/-- What belongs to the history already is a result that makes nothing. -/
theorem of_held {x : α} (hm : m.HeldBy h) (hx : held h x) : MakesSharing held h (x, m) :=
  ⟨h, .refl h, hm, hx⟩

/-- A result from a later history is one from the history before. -/
theorem of_extends {result : α × MergeState} (hext : h.ExtendsSharing h')
    (hresult : MakesSharing held h' result) : MakesSharing held h result := by
  obtain ⟨h'', hext', hrest⟩ := hresult
  exact ⟨h'', hext.trans hext', hrest⟩

/-- Keeping the result changes nothing. -/
theorem remember {result : Context × MergeState}
    (hresult : MakesSharing History.Holds h result) :
    MakesSharing History.Holds h (result.1, result.2.remember a b result.1) := by
  obtain ⟨h', hext, hm, hc⟩ := hresult
  exact ⟨h', hext, hm.remember hc, hc⟩

/-- A node made from entries that share their parents shares them. -/
theorem make (hm : m.HeldBy h) {es : List (Entry Context)} (hes : h.HoldsEntries es)
    (hshare : Context.EntriesShare es) : MakesSharing History.Holds h (m.make es) := by
  obtain ⟨h', hext, hnext, hheld⟩ := Context.exists_sharing_ofEntries hes hshare
  rw [← hm.next] at hnext hheld
  exact ⟨h', hext, ⟨hnext.symm, fun cache hcache => (hm.cache cache hcache).mono hext.toExtends⟩,
    hheld⟩

/-- An entry of a history stands before entries of a later one. -/
theorem cons {e : Entry Context} (he : h.HoldsParent e.parent)
    {result : List (Entry Context) × MergeState}
    (hresult : MakesSharing History.HoldsEntries h result) :
    MakesSharing History.HoldsEntries h (e :: result.1, result.2) := by
  obtain ⟨h', hext, hm', hgs⟩ := hresult
  exact ⟨h', hext, hm',
    List.forall_mem_cons.mpr ⟨History.HoldsParent.mono he hext.toExtends, hgs⟩⟩

end MakesSharing

/-! ## Merges -/

namespace Context

variable {root : RootReading}

/-- The context for merged entries is an operand or shares its parents. -/
theorem makesSharing_ofMerged {m : MergeState} {a b : Context} (ha : h.Holds a) (hb : h.Holds b)
    (hm : m.HeldBy h) {es : List (Entry Context)} (hes : h.HoldsEntries es) :
    MakesSharing History.Holds h (ofMerged a b es m) := by
  rw [ofMerged]
  split
  · exact .of_held hm ha
  · split
    · exact .of_held hm hb
    · exact .make hm (shareParents_spec hes ContextTable.heldBy_empty).1
        (entriesShare_shareParents hes)

/-- The context for merged parents shares them, as it has one parent at most. -/
theorem makesSharing_ofParent {m : MergeState} {a b : Context} {p : Option Context} (ha : h.Holds a)
    (hb : h.Holds b) (hm : m.HeldBy h) (hp : h.HoldsParent p) :
    MakesSharing History.Holds h (ofParent a b p m) := by
  rw [ofParent]
  split
  · exact .of_held hm ha
  · split
    · exact .of_held hm hb
    · exact (MakesSharing.make hm (History.holdsEntries_singleton.mpr hp)
        (entriesShare_singleton _)).remember

/-- Every branch of a merge makes nodes that share their parents, if the merges within do. -/
theorem mergeRule_makesSharing : MergeRule root
    (fun a b m result => ∀ h : History, h.Holds a → h.Holds b → m.HeldBy h →
      MakesSharing History.Holds h result)
    (fun p q m result => ∀ h : History, h.HoldsParent p → h.HoldsParent q → m.HeldBy h →
      MakesSharing History.HoldsParent h result)
    (fun es fs m result => ∀ h : History, h.HoldsEntries es → h.HoldsEntries fs → m.HeldBy h →
      MakesSharing History.HoldsEntries h result) where
  same _ _ ha _ hm := .of_held hm ha
  wildcard _ _ hwild _ ha hb hm := by
    rcases (isUnion_of_wildcardOf hwild).1 with rfl | rfl
    · exact .of_held hm ha
    · exact .of_held hm hb
  known _ _ hknown _ _ _ hm := .of_held hm (hm.known? hknown)
  arrays _ _ _ _ hentries h ha hb hm := by
    obtain ⟨h', hext, hm', hes⟩ := hentries h ha.entries hb.entries hm
    exact ((makesSharing_ofMerged (ha.mono hext.toExtends) (hb.mono hext.toExtends) hm'
      hes).of_extends hext).remember
  roots _ harray _ hroot _ ha hb hm := by
    obtain ⟨haarray, hbarray⟩ := not_isArray_of_or harray
    exact (MakesSharing.make hm (holdsEntries_rootEntries ha hb hroot)
      (entriesShare_rootEntries haarray hbarray hroot)).remember
  sameTop _ _ _ _ _ hparents h ha hb hm := by
    obtain ⟨h', hext, hm', hp⟩ := hparents h ha.top hb.top hm
    exact (makesSharing_ofParent (ha.mono hext.toExtends) (hb.mono hext.toExtends) hm'
      hp).of_extends hext
  twoTops _ _ _ _ _ _ ha hb hm := (MakesSharing.make hm (holdsEntries_twoEntries ha.top hb.top)
    (entriesShare_twoEntries ha.top hb.top)).remember
  unknownParents _ hp _ hm := .of_held hm hp
  parents _ hrests h hp hq hm := by
    obtain ⟨h', hext, hm', hc⟩ := hrests h (holds_restOf hp) (holds_restOf hq) hm
    exact ⟨h', hext, hm', by rintro _ ⟨⟩; exact hc⟩
  nilLeft _ _ hfs hm := .of_held hm hfs
  nilRight _ hes _ hm := .of_held hm hes
  left _ hrest h hes hfs hm := by
    obtain ⟨he, hes'⟩ := List.forall_mem_cons.mp hes
    exact (hrest h hes' hfs hm).cons he
  right _ hrest h hes hfs hm := by
    obtain ⟨hf, hfs'⟩ := List.forall_mem_cons.mp hfs
    exact (hrest h hes hfs' hm).cons hf
  keptParent _ _ hrest h hes hfs hm := by
    obtain ⟨he, hes'⟩ := List.forall_mem_cons.mp hes
    exact (hrest h hes' (List.forall_mem_cons.mp hfs).2 hm).cons he
  mergedParents _ _ hm' hparents hrest h hes hfs hm := by
    subst hm'
    obtain ⟨he, hes'⟩ := List.forall_mem_cons.mp hes
    obtain ⟨hf, hfs'⟩ := List.forall_mem_cons.mp hfs
    obtain ⟨h', hext, hm', hp⟩ := hparents h he hf hm
    exact ((hrest h' (History.HoldsEntries.mono hes' hext.toExtends)
      (History.HoldsEntries.mono hfs' hext.toExtends) hm').cons hp).of_extends hext

/-- All nodes that a merge makes share their parents. -/
theorem makesSharing_merge {h : History} {m : MergeState} {a b : Context} (ha : h.Holds a)
    (hb : h.Holds b) (hm : m.HeldBy h) : MakesSharing History.Holds h (merge root a b m) :=
  mergeRule_makesSharing.of_merge a b m h ha hb hm

end Context

end TransitionNetwork
