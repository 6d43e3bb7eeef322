import Mathlib.Data.List.Find
import TransitionNetwork.Context.Interning
import TransitionNetwork.Proofs.Context.Merging

/-!
# What tables find

A table finds one and the same member for all contexts of a structure, and goes on finding it when
other contexts become members. A context is stored if the table finds this very node for it; the
empty context, which is no member of any table, counts as stored. From a stored context only stored
ones can be reached if the parents of stored contexts are stored.
-/

namespace TransitionNetwork

variable [NodeDigest]

/-- In a list of contexts of a history one and the same is found for all contexts of a structure. -/
theorem Context.find?_beq_congr {h : History} {cs : List Context} (hcs : ∀ e ∈ cs, h.Holds e)
    {c d : Context} (hc : h.Holds c) (hd : h.Holds d) (hsame : c.skeleton = d.skeleton) :
    cs.find? (· == c) = cs.find? (· == d) := by
  refine List.find?_congr fun e he => Bool.eq_iff_iff.mpr ?_
  rw [Context.beq_iff (hcs e he) hc, Context.beq_iff (hcs e he) hd, hsame]

namespace ContextTable

variable {h : History} {table : ContextTable} {c d e : Context}

/-! ## Finding members -/

/-- In a new table nothing is found. -/
theorem find?_empty (c : Context) : (∅ : ContextTable).find? c = none := by
  refine List.find?_eq_none.mpr fun d hd => ?_
  change d ∈ (∅ : Std.HashMap UInt64 (List Context)).getD c.digest [] at hd
  simp at hd

/-- What is found for a context belongs to the history and has the structure of the context. -/
theorem HeldBy.of_find? (htable : table.HeldBy h) (hc : h.Holds c) (hfind : table.find? c = some d) :
    h.Holds d ∧ d.skeleton = c.skeleton := by
  have hd := htable _ d (List.mem_of_find?_eq_some hfind)
  have heq : (d == c) = true := by simpa using List.find?_some hfind
  exact ⟨hd, (Context.beq_iff hd hc).mp heq⟩

/-- One member is found for all contexts of a structure. -/
theorem HeldBy.find?_congr (htable : table.HeldBy h) (hc : h.Holds c) (hd : h.Holds d)
    (hsame : c.skeleton = d.skeleton) : table.find? c = table.find? d := by
  rw [ContextTable.find?, ContextTable.find?, bucket, bucket,
    Context.digest_eq_of_skeleton_eq hc hd hsame]
  exact Context.find?_beq_congr (htable _) hc hd hsame

/-- What is found for some context is found for itself. -/
theorem HeldBy.find?_self (htable : table.HeldBy h) (hc : h.Holds c)
    (hfind : table.find? c = some d) : table.find? d = some d := by
  obtain ⟨hd, hsame⟩ := htable.of_find? hc hfind
  rw [htable.find?_congr hd hc hsame, hfind]

/-- Interning finds a context afterwards as what it gave. -/
theorem find?_intern_self (hc : h.Holds c) :
    (table.intern c).2.find? c = some (table.intern c).1 := by
  have hself : (c == c) = true := (Context.beq_iff hc hc).mpr rfl
  rw [intern]
  cases hfind : table.find? c with
  | some member => exact hfind
  | none => simp [find?, bucket, hself]

/-- Interning a context changes nothing for contexts of another structure. -/
theorem find?_intern_of_ne (hc : h.Holds c) (hd : h.Holds d)
    (hne : c.skeleton ≠ d.skeleton) : (table.intern c).2.find? d = table.find? d := by
  have hbeq : (c == d) = false := by
    rw [Bool.eq_false_iff, ne_eq, Context.beq_iff hc hd]
    exact hne
  rw [intern]
  cases table.find? c with
  | some member => rfl
  | none =>
    simp only [find?, bucket, Std.HashMap.getD_insert]
    split
    next hdigest => rw [beq_iff_eq.mp hdigest, List.find?_cons, hbeq]
    · rfl

/-- Interning keeps what is found. -/
theorem HeldBy.find?_intern (htable : table.HeldBy h) (hc : h.Holds c) (hd : h.Holds d)
    (hfind : table.find? d = some e) : (table.intern c).2.find? d = some e := by
  by_cases hsame : c.skeleton = d.skeleton
  · rw [ContextTable.intern, htable.find?_congr hc hd hsame, hfind]
    exact hfind
  · rw [find?_intern_of_ne hc hd hsame, hfind]

/-! ## Stored contexts -/

/-- The context is empty, or it is the node that is found for its structure. -/
def Stores (table : ContextTable) (c : Context) : Prop :=
  c.isEmpty = true ∨ table.find? c = some c

/-- The parents of a context are stored. -/
def StoresParents (table : ContextTable) (c : Context) : Prop := ∀ p ∈ c.parents, table.Stores p

/-- The parents of stored contexts are stored. -/
def Closed (table : ContextTable) : Prop := ∀ c, table.Stores c → table.StoresParents c

/-- The empty context has no parents to be stored. -/
theorem storesParents_of_isEmpty (hc : c.isEmpty = true) : table.StoresParents c := by
  rw [Context.isEmpty_iff.mp hc]
  simp [StoresParents, Context.parents, Context.entries]

/-- A new table stores the parents of what it stores, which is the empty context alone. -/
theorem closed_empty : (∅ : ContextTable).Closed := by
  rintro c (hempty | hfind)
  · exact storesParents_of_isEmpty hempty
  · rw [find?_empty] at hfind
    cases hfind

/-- Every node that can be reached from a stored context is stored. -/
theorem Closed.stores_of_reaches (hclosed : table.Closed) (hc : table.Stores c)
    (hreaches : c.Reaches d) : table.Stores d := by
  induction hreaches with
  | refl => exact hc
  | parent _ hp ih => exact hclosed _ ih _ hp

/-- A stored context belongs to the history. -/
theorem HeldBy.of_stores (htable : table.HeldBy h) (hc : table.Stores c) : h.Holds c := by
  rcases hc with hempty | hfind
  · rw [Context.isEmpty_iff.mp hempty]
    exact .empty
  · exact htable _ c (List.mem_of_find?_eq_some hfind)

/-! ## Adding contexts -/

/-- Adding gives an equal context of the history. -/
theorem HeldBy.addTo (htable : table.HeldBy h) (hc : h.Holds c) :
    h.Holds (c.addTo table).1 ∧ (c.addTo table).1.skeleton = c.skeleton ∧
      (c.addTo table).2.HeldBy h := by
  rw [Context.addTo]
  split
  · exact ⟨hc, rfl, htable⟩
  · exact htable.intern hc

/-- What adding gives is stored. -/
theorem HeldBy.stores_addTo (htable : table.HeldBy h) (hc : h.Holds c) :
    (c.addTo table).2.Stores (c.addTo table).1 := by
  rw [Context.addTo]
  split
  next hempty => exact Or.inl hempty
  · obtain ⟨-, -, htable'⟩ := htable.intern hc
    exact Or.inr (htable'.find?_self hc (find?_intern_self hc))

/-- What was stored is stored after adding another context. -/
theorem HeldBy.stores_of_stores (htable : table.HeldBy h) (hc : h.Holds c) (hd : table.Stores d) :
    (c.addTo table).2.Stores d := by
  rw [Context.addTo]
  split
  · exact hd
  · exact hd.imp_right (htable.find?_intern hc (htable.of_stores hd))

/-- The parents of stored contexts stay stored if a context is added whose parents are stored or
which has an equal member. -/
theorem Closed.addTo (hclosed : table.Closed) (htable : table.HeldBy h) (hc : h.Holds c)
    (hparents : (table.find? c).isSome = true ∨ table.StoresParents c) :
    (c.addTo table).2.Closed := by
  have hkeep {d : Context} (hd : table.StoresParents d) : (c.addTo table).2.StoresParents d :=
    fun p hp => htable.stores_of_stores hc (hd p hp)
  obtain ⟨-, -, htable'⟩ := htable.addTo hc
  rintro d (hempty | hfind)
  · exact storesParents_of_isEmpty hempty
  have hd : h.Holds d := htable'.of_stores (Or.inr hfind)
  cases hcempty : c.isEmpty with
  | true =>
    rw [Context.addTo, if_pos hcempty] at hfind ⊢
    exact hclosed d (Or.inr hfind)
  | false =>
    rw [Context.addTo, if_neg (by simp [hcempty])] at htable' hfind
    by_cases hsame : c.skeleton = d.skeleton
    · -- The only new node is `c`, unless it had an equal member.
      cases hmember : table.find? c with
      | some member =>
        rw [intern, hmember] at hfind
        exact hkeep (hclosed d (Or.inr hfind))
      | none =>
        rw [hmember] at hparents
        rw [← htable'.find?_congr hc hd hsame, find?_intern_self hc, intern, hmember] at hfind
        cases hfind
        exact hkeep (hparents.resolve_left (by simp))
    -- A member with another structure was stored before.
    · rw [find?_intern_of_ne hc hd hsame] at hfind
      exact hkeep (hclosed d (Or.inr hfind))

end ContextTable

end TransitionNetwork
