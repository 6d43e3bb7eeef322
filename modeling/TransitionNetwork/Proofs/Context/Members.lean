import Mathlib.Data.List.Nodup
import TransitionNetwork.Proofs.Context.Tables

/-!
# Members of tables

The members of a table are of pairwise different structure, none is the empty context, each is found
for itself, and the table counts them. A context becomes a member only if no member of its structure
is found, and it would be found, since members lie in the bucket of their digest.
-/

namespace TransitionNetwork

variable [NodeDigest]

namespace ContextTable

variable {h : History} {table : ContextTable} {c d : Context}

/-! ## Buckets -/

omit [NodeDigest] in
/-- A member of a table is in one of its buckets. -/
theorem mem_members : c ∈ table.members ↔ ∃ digest, c ∈ table.buckets.getD digest [] := by
  simp only [members, List.mem_flatMap, Prod.exists, Std.HashMap.mem_toList_iff_getElem?_eq_some,
    Std.HashMap.getD_eq_getD_getElem?]
  constructor
  · rintro ⟨digest, bucket, hbucket, hc⟩
    exact ⟨digest, by simpa [hbucket] using hc⟩
  · rintro ⟨digest, hc⟩
    cases hbucket : table.buckets[digest]? with
    | none => simp [hbucket] at hc
    | some bucket => exact ⟨digest, bucket, hbucket, by simpa [hbucket] using hc⟩

omit [NodeDigest] in
/-- The members of one bucket can be listed in front of the others. -/
theorem members_perm (table : ContextTable) (digest : UInt64) :
    table.members.Perm (table.buckets.getD digest [] ++
      (table.buckets.toList.filter fun b => decide ¬(digest == b.1) = true).flatMap Prod.snd) := by
  rw [members, Std.HashMap.getD_eq_getD_getElem?]
  cases hbucket : table.buckets[digest]? with
  | none =>
    have hothers : ∀ b ∈ table.buckets.toList, decide (¬(digest == b.1) = true) = true := by
      rintro ⟨digest', bucket⟩ hb
      rw [Std.HashMap.mem_toList_iff_getElem?_eq_some] at hb
      have hne : digest ≠ digest' := by
        rintro rfl
        rw [hbucket] at hb
        cases hb
      simpa using hne
    rw [List.filter_eq_self.mpr hothers]
    exact .refl _
  | some bucket =>
    have hsame : (table.buckets.insert digest bucket).Equiv table.buckets := by
      refine .of_forall_getElem?_eq fun digest' => ?_
      rw [Std.HashMap.getElem?_insert]
      split
      next hdigest => rw [← beq_iff_eq.mp hdigest, hbucket]
      · rfl
    exact (hsame.toList_perm.symm.trans Std.HashMap.toList_insert_perm).flatMap_right _

/-- A context without an equal member becomes one. -/
theorem members_intern (hnew : table.find? c = none) :
    (table.intern c).2.members.Perm (c :: table.members) := by
  have hinserted := (Std.HashMap.toList_insert_perm (m := table.buckets) (k := c.digest)
    (v := c :: table.bucket c)).flatMap_right Prod.snd
  rw [intern, hnew]
  exact hinserted.trans ((table.members_perm c.digest).symm.cons c)

omit [NodeDigest] in
/-- A new table has no members. -/
theorem members_empty : (∅ : ContextTable).members = [] := by
  change (∅ : Std.HashMap UInt64 (List Context)).toList.flatMap Prod.snd = []
  simp

/-- What is found is a member. -/
theorem mem_members_of_find? (hfind : table.find? c = some d) : d ∈ table.members :=
  mem_members.mpr ⟨_, List.mem_of_find?_eq_some hfind⟩

/-- What holds of all members and of a context holds of what interning the context gives, and of all
members afterwards. -/
theorem forall_members_intern {P : Context → Prop} (htable : ∀ d ∈ table.members, P d) (hc : P c) :
    P (table.intern c).1 ∧ ∀ d ∈ (table.intern c).2.members, P d := by
  cases hfind : table.find? c with
  | some member =>
    rw [intern, hfind]
    exact ⟨htable member (mem_members_of_find? hfind), htable⟩
  | none =>
    refine ⟨by rwa [intern, hfind], fun d hd => ?_⟩
    rcases List.mem_cons.mp ((members_intern hfind).mem_iff.mp hd) with rfl | hd
    · exact hc
    · exact htable d hd

/-! ## Well-kept tables -/

/-- The members lie in the buckets of their digests, are not the empty context, differ in structure
and are counted. -/
structure WellKept (table : ContextTable) : Prop where
  digest : ∀ digest c, c ∈ table.buckets.getD digest [] → c.digest = digest
  nonempty : ∀ c ∈ table.members, c.isEmpty = false
  distinct : (table.members.map Context.skeleton).Nodup
  size : table.size = table.members.length

/-- A new table is well kept. -/
theorem wellKept_empty : (∅ : ContextTable).WellKept := by
  refine ⟨fun digest c hc => ?_, by simp [members_empty], by simp [members_empty],
    by rw [members_empty]; rfl⟩
  change c ∈ (∅ : Std.HashMap UInt64 (List Context)).getD digest [] at hc
  simp at hc

/-- A member is found for every context of its structure. -/
theorem WellKept.find? (hkept : table.WellKept) (htable : table.HeldBy h) (hc : h.Holds c)
    (hd : d ∈ table.members) (hsame : d.skeleton = c.skeleton) : table.find? c = some d := by
  obtain ⟨digest, hbucket⟩ := mem_members.mp hd
  have hheld := htable digest d hbucket
  cases hfind : table.find? c with
  | none =>
    have hmem : d ∈ table.bucket c := by
      rw [bucket, ← Context.digest_eq_of_skeleton_eq hheld hc hsame, hkept.digest digest d hbucket]
      exact hbucket
    exact (List.find?_eq_none.mp hfind d hmem ((Context.beq_iff hheld hc).mpr hsame)).elim
  | some e =>
    have he := (htable.of_find? hc hfind).2
    rw [List.inj_on_of_nodup_map hkept.distinct (mem_members_of_find? hfind) hd
      (he.trans hsame.symm)]

/-- Interning a context other than the empty one keeps all this. -/
theorem WellKept.intern (hkept : table.WellKept) (htable : table.HeldBy h) (hc : h.Holds c)
    (hempty : c.isEmpty = false) : (table.intern c).2.WellKept := by
  cases hfind : table.find? c with
  | some member => simpa only [ContextTable.intern, hfind] using hkept
  | none =>
    have hmembers := members_intern hfind
    refine ⟨fun digest d hd => ?_, fun d hd => ?_, ?_, ?_⟩
    · simp only [ContextTable.intern, hfind, Std.HashMap.getD_insert] at hd
      split at hd
      next hdigest =>
        obtain rfl := beq_iff_eq.mp hdigest
        rcases List.mem_cons.mp hd with rfl | hd
        · rfl
        · exact hkept.digest _ d hd
      · exact hkept.digest digest d hd
    · rcases List.mem_cons.mp (hmembers.mem_iff.mp hd) with rfl | hd
      · exact hempty
      · exact hkept.nonempty d hd
    · rw [(hmembers.map Context.skeleton).nodup_iff, List.map_cons, List.nodup_cons]
      refine ⟨fun hmem => ?_, hkept.distinct⟩
      obtain ⟨d, hd, hsame⟩ := List.mem_map.mp hmem
      rw [hkept.find? htable hc hd hsame] at hfind
      cases hfind
    · rw [hmembers.length_eq, List.length_cons, ← hkept.size, ContextTable.intern, hfind]

/-- Adding keeps all this, since the empty context is never added. -/
theorem WellKept.addTo (hkept : table.WellKept) (htable : table.HeldBy h) (hc : h.Holds c) :
    (c.addTo table).2.WellKept := by
  rw [Context.addTo]
  split
  · exact hkept
  next hempty => exact hkept.intern htable hc (Bool.eq_false_iff.mpr hempty)

/-- Nothing is found for the empty context. -/
theorem WellKept.find?_empty (hkept : table.WellKept) (htable : table.HeldBy h) :
    table.find? Context.empty = none := by
  refine Option.eq_none_iff_forall_ne_some.mpr fun d hfind => ?_
  have hempty : d.isEmpty = true := by
    rw [← Context.isEmpty_skeleton, (htable.of_find? .empty hfind).2]
    rfl
  rw [hkept.nonempty d (mem_members_of_find? hfind)] at hempty
  cases hempty

end ContextTable

end TransitionNetwork
