import Mathlib.Data.List.Basic
import TransitionNetwork.Context.Basic

/-!
# Structure of contexts

What a context is apart from the identities and digests of its nodes: its skeleton, the nodes that
can be reached from it through parents, and the form that the entries of every such node should
have. A context in that form is well formed.
-/

namespace TransitionNetwork

namespace Context

/-! ## Induction through parents -/

/-- An entry weighs no more than a list in which it is. -/
theorem entryWeight_le_of_mem {e : Entry Context} {es : List (Entry Context)} (he : e ∈ es) :
    entryWeight e ≤ entriesWeight es := by
  induction es with
  | nil => cases he
  | cons f rest ih =>
    simp only [entriesWeight]
    rcases List.mem_cons.mp he with rfl | he
    · omega
    · have hrest := ih he
      omega

/-- A parent weighs less than the node. -/
theorem weight_lt_of_parent {c p : Context} {e : Entry Context} (he : e ∈ c.entries)
    (hp : p ∈ e.parent) : p.weight < c.weight := by
  have hentry := entryWeight_le_of_mem he
  have hnode := entriesWeight_entries_lt c
  rw [entryWeight_eq, Option.mem_def.mp hp, parentWeight] at hentry
  omega

/-- The entries of two contexts together weigh less than the contexts. -/
theorem entriesWeight_add_lt (a b : Context) :
    entriesWeight a.entries + entriesWeight b.entries < a.weight + b.weight :=
  Nat.add_lt_add (entriesWeight_entries_lt a) (entriesWeight_entries_lt b)

/-- The rests under the first entries of two contexts together weigh less than the contexts. -/
theorem parentWeight_top_add_lt (a b : Context) :
    parentWeight a.top.parent + parentWeight b.top.parent < a.weight + b.weight :=
  Nat.add_lt_add (parentWeight_top_lt a) (parentWeight_top_lt b)

/-- A property holds of every context if it holds of the empty one and passes from the parents of
a node to the node. -/
@[elab_as_elim]
theorem induct {motive : Context → Prop} (empty : motive empty)
    (node : ∀ id digest first rest, (∀ e ∈ first :: rest, ∀ p ∈ e.parent, motive p) →
      motive (node id digest first rest)) : ∀ c, motive c
  | .empty => empty
  | .node id digest first rest =>
    node id digest first rest fun _ he p hp =>
      have : p.weight < (Context.node id digest first rest).weight := weight_lt_of_parent he hp
      induct empty node p
termination_by c => c.weight

/-! ## Skeletons -/

mutual

/-- The context without the identities and digests of its nodes. -/
def skeleton : Context → Context
  | empty => empty
  | node _ _ first rest => node 0 0 (entrySkeleton first) (entriesSkeleton rest)

/-- The entry over the skeleton of its parent. -/
def entrySkeleton : Entry Context → Entry Context
  | ⟨none, r⟩ => ⟨none, r⟩
  | ⟨some p, r⟩ => ⟨some p.skeleton, r⟩

/-- The entries over the skeletons of their parents. -/
def entriesSkeleton : List (Entry Context) → List (Entry Context)
  | [] => []
  | e :: rest => entrySkeleton e :: entriesSkeleton rest

end

/-- The skeleton of an entry is the entry over the skeleton of its parent. -/
theorem entrySkeleton_eq (e : Entry Context) :
    entrySkeleton e = ⟨e.parent.map skeleton, e.returnState⟩ := by
  rcases e with ⟨_ | p, r⟩ <;> simp [entrySkeleton]

/-- Skeletons keep return states. -/
@[simp] theorem returnState_entrySkeleton (e : Entry Context) :
    (entrySkeleton e).returnState = e.returnState := by rw [entrySkeleton_eq]

/-- The parent of a skeleton of an entry is the skeleton of the parent. -/
@[simp] theorem parent_entrySkeleton (e : Entry Context) :
    (entrySkeleton e).parent = e.parent.map skeleton := by rw [entrySkeleton_eq]

/-- The skeletons of entries are taken one by one. -/
theorem entriesSkeleton_eq (es : List (Entry Context)) :
    entriesSkeleton es = es.map entrySkeleton := by
  induction es with
  | nil => simp [entriesSkeleton]
  | cons e rest ih => simp [entriesSkeleton, ih]

/-- The empty context is its own skeleton. -/
@[simp] theorem skeleton_empty : empty.skeleton = empty := by simp [skeleton]

/-- The entries of a skeleton are the skeletons of the entries. -/
theorem entries_skeleton (c : Context) : c.skeleton.entries = c.entries.map entrySkeleton := by
  cases c with
  | empty => simp [skeleton, entries, entrySkeleton]
  | node id digest first rest => simp [skeleton, entries, entriesSkeleton_eq]

/-- Skeletons keep the shape. -/
@[simp] theorem shape_skeleton (c : Context) : c.skeleton.shape = c.shape := by
  rcases c with _ | ⟨id, digest, first, _ | ⟨e, rest⟩⟩ <;>
    simp [skeleton, entriesSkeleton, shape]

/-- Skeletons keep whether a context is empty. -/
@[simp] theorem isEmpty_skeleton (c : Context) : c.skeleton.isEmpty = c.isEmpty := by
  rw [isEmpty, isEmpty, shape_skeleton]

/-- Only the empty context is empty. -/
theorem isEmpty_iff {c : Context} : c.isEmpty = true ↔ c = empty := by
  rcases c with _ | ⟨id, digest, first, _ | ⟨e, rest⟩⟩ <;> simp [isEmpty, shape]

/-- A node is not the empty context. -/
@[simp] theorem isEmpty_node (id : NodeId) (digest : UInt64) (first : Entry Context)
    (rest : List (Entry Context)) : (node id digest first rest).isEmpty = false := by
  cases rest <;> simp [isEmpty, shape]

/-- Only the empty context has its skeleton. -/
theorem eq_empty_of_skeleton {c : Context} (hc : c.skeleton = empty.skeleton) : c = empty :=
  isEmpty_iff.mp (by rw [← isEmpty_skeleton, hc]; rfl)

/-- Every context has an entry. -/
theorem entries_ne_nil (c : Context) : c.entries ≠ [] := by
  cases c <;> simp [entries]

/-- A context is an array exactly if it has more than one entry. -/
theorem isArray_iff {c : Context} : c.isArray = true ↔ 1 < c.entries.length := by
  rcases c with _ | ⟨id, digest, first, _ | ⟨e, rest⟩⟩ <;> simp [isArray, shape, entries]

/-- A context that is no array has its first entry and no other. -/
theorem entries_of_not_isArray {c : Context} (h : ¬ c.isArray = true) : c.entries = [c.top] := by
  rcases c with _ | ⟨id, digest, first, _ | ⟨e, rest⟩⟩ <;> simp_all [isArray, shape, entries, top]

/-- Two contexts of which none is an array. -/
theorem not_isArray_of_or {a b : Context} (harray : ¬ (a.isArray || b.isArray) = true) :
    ¬ a.isArray = true ∧ ¬ b.isArray = true := by
  rwa [Bool.or_eq_true, not_or] at harray

/-- The skeleton of a context with a state pushed on a rest of the stack. -/
theorem skeleton_singleton [NodeDigest] (p : Option Context) (state next : Nat) :
    (singleton ⟨p, (state : Int)⟩ next).1.skeleton =
      node 0 0 ⟨p.map skeleton, (state : Int)⟩ [] := by
  have hstate : (state : Int) ≠ emptyReturn := by
    have hvalue : emptyReturn = -1 := rfl
    omega
  rw [singleton, if_neg fun h => hstate h.2]
  simp [skeleton, entriesSkeleton, entrySkeleton_eq]

/-! ## Comparing entries -/

/-- A context is equal to itself, as it is one node. -/
theorem beq_self (a : Context) : (a == a) = true := by
  change beq a a = true
  cases a <;> simp [beq]

/-- A rest of a stack is the same node as itself, if it is known. -/
theorem sameParent_self (p : Option Context) : sameParent p p = true := by
  cases p <;> simp [sameParent, sameNode]

/-- Comparing entries place by place compares their skeletons if this is so of their parents. -/
theorem beqEntries_iff {es fs : List (Entry Context)}
    (hbeq : ∀ e ∈ es, ∀ p ∈ e.parent, ∀ f ∈ fs, ∀ q ∈ f.parent,
      beq p q = true ↔ p.skeleton = q.skeleton) :
    beqEntries es fs = true ↔ es.map entrySkeleton = fs.map entrySkeleton := by
  induction es generalizing fs with
  | nil => cases fs <;> simp [beqEntries]
  | cons e es ih =>
    cases fs with
    | nil => simp [beqEntries]
    | cons f fs =>
      have hrest := ih fun e he p hp f hf q hq => hbeq e (List.mem_cons_of_mem _ he) p hp f
        (List.mem_cons_of_mem _ hf) q hq
      have hhead := hbeq e List.mem_cons_self
      rw [beqEntries, Bool.and_eq_true, hrest, List.map_cons, List.map_cons, List.cons.injEq]
      apply and_congr_left
      intro _
      rcases e with ⟨_ | p, r⟩ <;> rcases f with ⟨_ | q, r'⟩ <;>
        simp_all [beqEntry, entrySkeleton, and_comm]

/-! ## Well-formed contexts -/

/-- The parents of a context are those of its entries. -/
theorem mem_parents {c p : Context} : p ∈ c.parents ↔ ∃ e ∈ c.entries, p ∈ e.parent := by
  simp [parents]

/-- The nodes that can be reached from a context through parents. -/
inductive Reaches (c : Context) : Context → Prop
  | refl : c.Reaches c
  | parent {d p : Context} : c.Reaches d → p ∈ d.parents → c.Reaches p

/-- What can be reached from a parent can be reached from the context. -/
theorem Reaches.of_parent {c p d : Context} (hp : p ∈ c.parents) (h : p.Reaches d) :
    c.Reaches d := by
  induction h with
  | refl => exact .parent .refl hp
  | parent _ hd ih => exact .parent ih hd

/-- A property holds of all nodes that can be reached exactly if it holds of the context itself and
of all nodes that can be reached from its parents. -/
theorem forall_reaches_iff {P : Context → Prop} {c : Context} :
    (∀ d, c.Reaches d → P d) ↔ P c ∧ ∀ p ∈ c.parents, ∀ d, p.Reaches d → P d := by
  refine ⟨fun h => ⟨h c .refl, fun p hp d hd => h d (.of_parent hp hd)⟩, fun h d hd => ?_⟩
  have hreached : d = c ∨ ∃ p ∈ c.parents, p.Reaches d := by
    induction hd with
    | refl => exact Or.inl rfl
    | parent _ hp ih =>
      rcases ih with rfl | ⟨q, hq, hreach⟩
      · exact Or.inr ⟨_, hp, .refl⟩
      · exact Or.inr ⟨q, hq, .parent hreach hp⟩
  rcases hreached with rfl | ⟨p, hp, hreach⟩
  · exact h.1
  · exact h.2 p hp d hreach

/-- The return states ascend strictly. That of the empty stack has no parent, and no other one is
negative. -/
structure Ascending (es : List (Entry Context)) : Prop where
  ascending : es.Pairwise (·.returnState < ·.returnState)
  bottom : ∀ e ∈ es, e.returnState = emptyReturn → e.parent = none
  nonneg : ∀ e ∈ es, e.returnState ≠ emptyReturn → 0 ≤ e.returnState

namespace Ascending

variable {e : Entry Context} {es : List (Entry Context)}

/-- The first of ascending entries lies below the others. -/
theorem head (h : Ascending (e :: es)) : ∀ f ∈ es, e.returnState < f.returnState :=
  (List.pairwise_cons.mp h.ascending).1

/-- Ascending entries ascend behind the first one. -/
theorem tail (h : Ascending (e :: es)) : Ascending es where
  ascending := (List.pairwise_cons.mp h.ascending).2
  bottom f hf := h.bottom f (List.mem_cons_of_mem e hf)
  nonneg f hf := h.nonneg f (List.mem_cons_of_mem e hf)

/-- An entry below all others can be put before ascending entries. -/
theorem cons (h : Ascending es) (hlow : ∀ f ∈ es, e.returnState < f.returnState)
    (hbottom : e.returnState = emptyReturn → e.parent = none)
    (hnonneg : e.returnState ≠ emptyReturn → 0 ≤ e.returnState) : Ascending (e :: es) where
  ascending := List.pairwise_cons.mpr ⟨hlow, h.ascending⟩
  bottom := List.forall_mem_cons.mpr ⟨hbottom, h.bottom⟩
  nonneg := List.forall_mem_cons.mpr ⟨hnonneg, h.nonneg⟩

/-- No entries ascend. -/
theorem nil : Ascending [] := ⟨.nil, fun _ h => (List.not_mem_nil h).elim,
  fun _ h => (List.not_mem_nil h).elim⟩

end Ascending

/-- The entries of every node that can be reached have the required order. -/
def WellFormed (c : Context) : Prop := ∀ d, c.Reaches d → Ascending d.entries

/-- Entries of a well-formed context. -/
structure EntriesWellFormed (es : List (Entry Context)) : Prop extends Ascending es where
  parents : ∀ e ∈ es, ∀ p ∈ e.parent, p.WellFormed

/-- A context is well formed exactly if its entries are. -/
theorem wellFormed_iff {c : Context} : c.WellFormed ↔ EntriesWellFormed c.entries := by
  refine forall_reaches_iff.trans ⟨fun ⟨hentries, hparents⟩ => ⟨hentries, fun e he p hp => ?_⟩,
    fun h => ⟨h.toAscending, fun p hp => ?_⟩⟩
  · exact hparents p (mem_parents.mpr ⟨e, he, hp⟩)
  · obtain ⟨e, he, hparent⟩ := mem_parents.mp hp
    exact h.parents e he p hparent

/-- The empty context is well formed. -/
theorem wellFormed_empty : empty.WellFormed :=
  wellFormed_iff.mpr ⟨⟨by simp [entries], by simp [entries], by simp [entries]⟩, by simp [entries]⟩

namespace EntriesWellFormed

/-- The first of well-formed entries lies below the others. -/
theorem head {e : Entry Context} {es : List (Entry Context)} (h : EntriesWellFormed (e :: es)) :
    ∀ f ∈ es, e.returnState < f.returnState := h.toAscending.head

/-- Well-formed entries are well formed behind the first one. -/
theorem tail {e : Entry Context} {es : List (Entry Context)} (h : EntriesWellFormed (e :: es)) :
    EntriesWellFormed es :=
  ⟨h.toAscending.tail, fun f hf => h.parents f (List.mem_cons_of_mem e hf)⟩

/-- An entry below all others can be put before well-formed entries. -/
theorem cons {e : Entry Context} {es : List (Entry Context)} (h : EntriesWellFormed es)
    (hlow : ∀ f ∈ es, e.returnState < f.returnState)
    (hbottom : e.returnState = emptyReturn → e.parent = none)
    (hnonneg : e.returnState ≠ emptyReturn → 0 ≤ e.returnState)
    (hparent : ∀ p ∈ e.parent, p.WellFormed) : EntriesWellFormed (e :: es) :=
  ⟨h.toAscending.cons hlow hbottom hnonneg, List.forall_mem_cons.mpr ⟨hparent, h.parents⟩⟩

/-- No entries are well formed. -/
theorem nil : EntriesWellFormed [] := ⟨.nil, fun _ h => (List.not_mem_nil h).elim⟩

/-- Well-formedness of entries does not depend on identities and digests if that of their parents
does not. -/
theorem of_skeleton {es fs : List (Entry Context)} (hes : EntriesWellFormed es)
    (hparents : ∀ e ∈ es, ∀ p ∈ e.parent, ∀ f ∈ fs, ∀ q ∈ f.parent, p.skeleton = q.skeleton →
      p.WellFormed → q.WellFormed)
    (hsame : es.map entrySkeleton = fs.map entrySkeleton) : EntriesWellFormed fs := by
  induction es generalizing fs with
  | nil =>
    obtain rfl := List.map_eq_nil_iff.mp hsame.symm
    exact nil
  | cons e es ih =>
    obtain ⟨f, fs, rfl, hhead, htail⟩ := List.map_eq_cons_iff.mp hsame.symm
    have hrest := ih hes.tail (fun e he p hp f hf q hq => hparents e (List.mem_cons_of_mem _ he) p
      hp f (List.mem_cons_of_mem _ hf) q hq) htail.symm
    have hreturn : f.returnState = e.returnState := by
      simpa using congrArg Entry.returnState hhead
    have hparent : f.parent.map skeleton = e.parent.map skeleton := by
      simpa using congrArg Entry.parent hhead
    refine hrest.cons (fun g hg => ?_) (fun hbottom => ?_) (fun hbottom => ?_) fun q hq => ?_
    · -- The entries behind `f` have the return states of those behind `e`.
      obtain ⟨e', he', hsame'⟩ := List.mem_map.mp (htail ▸ List.mem_map_of_mem hg)
      have hreturn' : e'.returnState = g.returnState := by
        simpa using congrArg Entry.returnState hsame'
      rw [hreturn, ← hreturn']
      exact hes.head e' he'
    -- The entry of the empty stack has no parent on either side.
    · have hnone := hes.bottom e List.mem_cons_self (hreturn ▸ hbottom)
      simpa [hnone] using hparent
    · rw [hreturn] at hbottom ⊢
      exact hes.nonneg e List.mem_cons_self hbottom
    · rw [Option.mem_def.mp hq, Option.map_some] at hparent
      obtain ⟨p, hp, hskeleton⟩ := Option.map_eq_some_iff.mp hparent.symm
      exact hparents e List.mem_cons_self p hp f List.mem_cons_self q hq hskeleton
        (hes.parents e List.mem_cons_self p hp)

end EntriesWellFormed

/-- Well-formedness does not depend on identities and digests. -/
theorem WellFormed.of_skeleton {c d : Context} (hc : c.WellFormed)
    (hsame : c.skeleton = d.skeleton) : d.WellFormed := by
  induction c using induct generalizing d with
  | empty =>
    have hempty : d.isEmpty = true := by rw [← isEmpty_skeleton, ← hsame]; rfl
    rw [isEmpty_iff.mp hempty]
    exact wellFormed_empty
  | node id digest first rest ih =>
    refine wellFormed_iff.mpr ((wellFormed_iff.mp hc).of_skeleton
      (fun e he p hp f hf q hq hskeleton hp' => ih e he p hp hp' hskeleton) ?_)
    rw [← entries_skeleton, hsame, entries_skeleton]

/-- Entries with the same skeletons are well formed together. -/
theorem EntriesWellFormed.of_map_skeleton {es fs : List (Entry Context)}
    (hes : EntriesWellFormed es) (hsame : es.map entrySkeleton = fs.map entrySkeleton) :
    EntriesWellFormed fs :=
  hes.of_skeleton (fun _ _ _ _ _ _ _ _ hskeleton hp => hp.of_skeleton hskeleton) hsame

end Context

end TransitionNetwork
