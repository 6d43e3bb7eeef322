import TransitionNetwork.Proofs.Context.Structure

/-!
# Histories of nodes

The nodes that have been made so far, by identity. A context that belongs to a history has the
nodes of the history under their identities and digests that follow from their structure, and the
parents of a node are older than the node. For such contexts the comparison that is shortened by
identities and digests is equality of structure.
-/

namespace TransitionNetwork

/-- The nodes that have been made so far, by identity, and the next identity that is free. -/
structure History where
  node : NodeId → Context
  next : NodeId
  node_zero : node 0 = Context.empty
  next_pos : 0 < next

namespace History

/-- A later history keeps the nodes that were made before. -/
structure Extends (h h' : History) : Prop where
  next : h.next ≤ h'.next
  node : ∀ id < h.next, h'.node id = h.node id

/-- Every history is a later one of itself. -/
theorem Extends.refl (h : History) : h.Extends h := ⟨Nat.le_refl _, fun _ _ => rfl⟩

/-- A later history of a later one is a later one. -/
theorem Extends.trans {h h' h'' : History} (hfirst : h.Extends h') (hsecond : h'.Extends h'') :
    h.Extends h'' where
  next := Nat.le_trans hfirst.next hsecond.next
  node id hid := by
    rw [hsecond.node id (Nat.lt_of_lt_of_le hid hfirst.next), hfirst.node id hid]

/-- The history before any node but the empty context has been made. -/
def start : History := ⟨fun _ => Context.empty, 1, rfl, Nat.one_pos⟩

/-- The history after a node has been made under the identity that was free. -/
def add (h : History) (c : Context) : History where
  node id := if id = h.next then c else h.node id
  next := h.next + 1
  node_zero := by rw [if_neg (Nat.ne_of_lt h.next_pos), h.node_zero]
  next_pos := Nat.succ_pos _

/-- The history with another identity that is free next. -/
def upTo (h : History) (next : NodeId) (hpos : 0 < next) : History :=
  { h with next := next, next_pos := hpos }

/-- A history in which a node has been added is a later one. -/
theorem extends_add (h : History) (c : Context) : h.Extends (h.add c) where
  next := Nat.le_succ _
  node _ hid := if_neg (Nat.ne_of_lt hid)

variable [NodeDigest]

/-- The context is made of nodes of the history. -/
inductive Holds (h : History) : Context → Prop
  | empty : h.Holds Context.empty
  | node {id : NodeId} {digest : UInt64} {first : Entry Context} {rest : List (Entry Context)}
      (hpos : 0 < id) (hnext : id < h.next) (hnode : h.node id = .node id digest first rest)
      (hdigest : digest = NodeDigest.digest (Context.node id digest first rest).shape
        ((first :: rest).map Context.entryDigest))
      (hproper : first :: rest ≠ [⟨none, Context.emptyReturn⟩])
      (hparents : ∀ e ∈ first :: rest, ∀ p ∈ e.parent, h.Holds p)
      (holder : ∀ e ∈ first :: rest, ∀ p ∈ e.parent, p.identity < id) :
      h.Holds (.node id digest first rest)

/-- The parents of the entries are made of nodes of the history. -/
def HoldsEntries (h : History) (es : List (Entry Context)) : Prop :=
  ∀ e ∈ es, ∀ p ∈ e.parent, h.Holds p

/-- The rest of a stack, if it is known, is made of nodes of the history. -/
def HoldsParent (h : History) (p : Option Context) : Prop := ∀ c ∈ p, h.Holds c

namespace Holds

variable {h h' : History} {c d : Context}

/-- What belongs to a history belongs to every later one. -/
theorem mono (hc : h.Holds c) (hext : h.Extends h') : h'.Holds c := by
  induction hc with
  | empty => exact .empty
  | node hpos hnext hnode hdigest hproper _ holder ih =>
    exact .node hpos (Nat.lt_of_lt_of_le hnext hext.next) ((hext.node _ hnext).trans hnode)
      hdigest hproper ih holder

/-- The identity of a context of a history was given within the history. -/
theorem identity_lt (hc : h.Holds c) : c.identity < h.next := by
  cases hc with
  | empty => exact h.next_pos
  | node _ hnext => exact hnext

/-- A context is the node of its identity. -/
theorem node_identity (hc : h.Holds c) : h.node c.identity = c := by
  cases hc with
  | empty => exact h.node_zero
  | node _ _ hnode => exact hnode

/-- A context belongs to the history up to any identity above its own. -/
theorem upTo (hc : h.Holds c) {next : NodeId} (hpos : 0 < next) (hidentity : c.identity < next) :
    (h.upTo next hpos).Holds c := by
  induction hc with
  | empty => exact .empty
  | node hzero _ hnode hdigest hproper _ holder ih =>
    exact .node hzero hidentity hnode hdigest hproper
      (fun e he p hp => ih e he p hp (Nat.lt_trans (holder e he p hp) hidentity)) holder

/-- The parents of the entries belong to the history of the context. -/
theorem entries (hc : h.Holds c) : h.HoldsEntries c.entries := by
  cases hc with
  | empty => simp [HoldsEntries, Context.entries]
  | node _ _ _ _ _ hparents => exact hparents

/-- The empty stack may be put before the entries. -/
theorem bottom_cons (hc : h.Holds c) : h.HoldsEntries (Context.empty.top :: c.entries) :=
  List.forall_mem_cons.mpr ⟨fun _ hp => (by cases hp), hc.entries⟩

/-- A node that is not the empty context does not have its only entry. -/
theorem entries_ne_bottom (hc : h.Holds c) (hempty : ¬ c.isEmpty = true) :
    c.entries ≠ [⟨none, Context.emptyReturn⟩] := by
  cases hc with
  | empty => exact (hempty rfl).elim
  | node _ _ _ _ hproper => exact hproper

/-- The parent under the first entry belongs to the history of the context. -/
theorem top (hc : h.Holds c) : h.HoldsParent c.top.parent := by
  cases hc with
  | empty => simp [HoldsParent, Context.top]
  | node _ _ _ _ _ hparents => exact hparents _ List.mem_cons_self

/-- Contexts of one history with the same identity are the same. -/
theorem eq_of_sameNode (hc : h.Holds c) (hd : h.Holds d) (hsame : c.sameNode d = true) :
    c = d := by
  rw [Context.sameNode, beq_iff_eq] at hsame
  rw [← hc.node_identity, hsame, hd.node_identity]

end Holds

/-- A single entry belongs to a history exactly if its parent does. -/
theorem holdsEntries_singleton {h : History} {e : Entry Context} :
    h.HoldsEntries [e] ↔ h.HoldsParent e.parent := by
  simp [HoldsEntries, HoldsParent]

/-- Entries of a history are entries of every later one. -/
theorem HoldsEntries.mono {h h' : History} {es : List (Entry Context)} (hes : h.HoldsEntries es)
    (hext : h.Extends h') : h'.HoldsEntries es := fun e he p hp => (hes e he p hp).mono hext

/-- A parent of a history is one of every later one. -/
theorem HoldsParent.mono {h h' : History} {p : Option Context} (hp : h.HoldsParent p)
    (hext : h.Extends h') : h'.HoldsParent p := fun c hc => (hp c hc).mono hext

/-- Rests of a stack of one history that are the same node or both unknown are the same. -/
theorem HoldsParent.eq_of_sameParent {h : History} {p q : Option Context} (hp : h.HoldsParent p)
    (hq : h.HoldsParent q) (hsame : Context.sameParent p q = true) : p = q := by
  cases p <;> cases q <;> simp only [Context.sameParent, Bool.false_eq_true] at hsame ⊢
  case some.some c d => rw [(hp c rfl).eq_of_sameNode (hq d rfl) hsame]

end History

namespace Context

variable [NodeDigest]

/-! ## Equality of structure -/

/-- Entries with the same skeletons have the same parts of a digest if this is so of their
parents. -/
theorem map_entryDigest_eq {es fs : List (Entry Context)}
    (hdigest : ∀ e ∈ es, ∀ p ∈ e.parent, ∀ f ∈ fs, ∀ q ∈ f.parent, p.skeleton = q.skeleton →
      p.digest = q.digest)
    (hsame : es.map entrySkeleton = fs.map entrySkeleton) :
    es.map entryDigest = fs.map entryDigest := by
  induction es generalizing fs with
  | nil => cases fs with
    | nil => rfl
    | cons f fs => simp at hsame
  | cons e es ih =>
    cases fs with
    | nil => simp at hsame
    | cons f fs =>
      simp only [List.map_cons, List.cons.injEq] at hsame ⊢
      refine ⟨?_, ih (fun e he p hp f hf q hq => hdigest e (List.mem_cons_of_mem _ he) p hp f
        (List.mem_cons_of_mem _ hf) q hq) hsame.2⟩
      have hhead := hdigest e List.mem_cons_self
      obtain ⟨hparent, hreturn⟩ : e.parent.map skeleton = f.parent.map skeleton ∧
          e.returnState = f.returnState := by
        simpa [entrySkeleton_eq] using hsame.1
      rw [entryDigest, entryDigest, hreturn]
      cases hp : e.parent <;> cases hq : f.parent <;> simp_all

/-- The digest of a context that belongs to a history follows from the skeleton. -/
theorem digest_eq_of_skeleton_eq {h : History} {c d : Context} (hc : h.Holds c) (hd : h.Holds d)
    (hsame : c.skeleton = d.skeleton) : c.digest = d.digest := by
  induction c using induct generalizing d with
  | empty =>
    have hempty : d.isEmpty = true := by rw [← isEmpty_skeleton, ← hsame]; rfl
    rw [isEmpty_iff.mp hempty]
  | node id digest first rest ih =>
    have hshape : (node id digest first rest).shape = d.shape := by
      rw [← shape_skeleton, hsame, shape_skeleton]
    have hentries : (first :: rest).map entrySkeleton = d.entries.map entrySkeleton := by
      rw [← entries_skeleton, ← hsame, entries_skeleton, entries]
    have hparents := map_entryDigest_eq (fun e he p hp f hf q hq => ih e he p hp
      (hc.entries e he p hp) (hd.entries f hf q hq)) hentries
    cases hc with
    | node _ _ _ hdigest =>
      cases hd with
      | empty => cases first; cases rest <;> simp [shape] at hshape
      | node _ _ _ hdigest' =>
        rw [Context.digest, Context.digest, hdigest, hdigest', hshape, hparents]
        rfl

/-- Contexts of one history are equal exactly if they have the same skeleton. -/
theorem beq_iff {h : History} {c d : Context} (hc : h.Holds c) (hd : h.Holds d) :
    (c == d) = true ↔ c.skeleton = d.skeleton := by
  change beq c d = true ↔ _
  induction c using induct generalizing d with
  | empty => cases d <;> simp [beq, skeleton]
  | node id digest first rest ih =>
    cases d with
    | empty => simp [beq, skeleton]
    | node id' digest' first' rest' =>
      have hentries : (beqEntry first first' && beqEntries rest rest') = true ↔
          (first :: rest).map entrySkeleton = (first' :: rest').map entrySkeleton :=
        beqEntries_iff fun e he p hp f hf q hq =>
          ih e he p hp (hc.entries e he p hp) (hd.entries f hf q hq)
      have hskeleton : (node id digest first rest).skeleton =
          (node id' digest' first' rest').skeleton ↔
          (first :: rest).map entrySkeleton = (first' :: rest').map entrySkeleton := by
        simp [skeleton, entriesSkeleton_eq]
      rw [beq, Bool.or_eq_true, Bool.and_eq_true, hentries, beq_iff_eq, beq_iff_eq, hskeleton]
      refine ⟨?_, fun hsame => Or.inr ⟨?_, hsame⟩⟩
      · rintro (hid | ⟨-, hsame⟩)
        · have hnodes := hc.eq_of_sameNode hd (by simpa [sameNode, identity] using hid)
          cases hnodes
          rfl
        · exact hsame
      · exact digest_eq_of_skeleton_eq hc hd (hskeleton.mpr hsame)

/-- Equality of contexts of a history does not depend on their order. -/
theorem beq_comm {h : History} {a b : Context} (ha : h.Holds a) (hb : h.Holds b)
    (hsame : (a == b) = true) : (b == a) = true :=
  (beq_iff hb ha).mpr ((beq_iff ha hb).mp hsame).symm

/-- Nodes of one entry are equal if their entries have equal skeletons. -/
theorem beq_of_entrySkeleton {h : History} {a b : Context} (ha : h.Holds a) (hb : h.Holds b)
    (harray : ¬ (a.isArray || b.isArray) = true) (haempty : ¬ a.isEmpty = true)
    (hbempty : ¬ b.isEmpty = true) (htop : entrySkeleton a.top = entrySkeleton b.top) :
    (a == b) = true := by
  rw [Bool.or_eq_true, not_or] at harray
  refine (beq_iff ha hb).mpr ?_
  rcases a with _ | ⟨id, digest, first, _ | ⟨e, rest⟩⟩
  · exact (haempty rfl).elim
  · rcases b with _ | ⟨id', digest', first', _ | ⟨e', rest'⟩⟩
    · exact (hbempty rfl).elim
    · exact congrArg (fun e => node 0 0 e []) htop
    · exact (harray.2 rfl).elim
  · exact (harray.1 rfl).elim

/-! ## New nodes -/

/-- A context made from entries has these entries. -/
theorem entries_ofEntries {es : List (Entry Context)} (hes : es ≠ []) (next : NodeId) :
    (ofEntries es next).1.entries = es := by
  rcases es with _ | ⟨⟨p, r⟩, _ | ⟨f, rest⟩⟩
  · exact (hes rfl).elim
  · by_cases hbottom : p.isNone ∧ r = emptyReturn
    · obtain ⟨hp, rfl⟩ := hbottom
      simp_all [ofEntries, singleton, entries]
    · rw [ofEntries, singleton, if_neg hbottom]
      rfl
  · rfl

/-- A context made from entries is empty only if there are none, or that of the empty stack
alone. -/
theorem isEmpty_ofEntries {es : List (Entry Context)} {next : NodeId}
    (hempty : (ofEntries es next).1.isEmpty = true) : es = [] ∨ es = [⟨none, emptyReturn⟩] := by
  rw [isEmpty_iff] at hempty
  by_cases hes : es = []
  · exact Or.inl hes
  · apply Or.inr
    rw [← entries_ofEntries hes next, hempty]
    rfl

/-- A context made from entries over parents of a history belongs to a later history, which ends
where the making does. -/
theorem exists_holds_ofEntries {h : History} {es : List (Entry Context)}
    (hes : h.HoldsEntries es) :
    ∃ h' : History, h.Extends h' ∧ h'.next = (ofEntries es h.next).2 ∧
      h'.Holds (ofEntries es h.next).1 := by
  have hmade {digest first rest} (hes : h.HoldsEntries (first :: rest))
      (hdigest : digest = NodeDigest.digest (node h.next digest first rest).shape
        ((first :: rest).map entryDigest))
      (hproper : first :: rest ≠ [⟨none, emptyReturn⟩]) :
      (h.add (node h.next digest first rest)).Holds (node h.next digest first rest) := by
    refine .node h.next_pos (Nat.lt_succ_self _) (if_pos rfl) hdigest hproper
      (hes.mono (h.extends_add _)) fun e he p hp => (hes e he p hp).identity_lt
  rcases es with _ | ⟨e, _ | ⟨f, rest⟩⟩
  · exact ⟨h, .refl h, rfl, .empty⟩
  · rw [ofEntries, singleton]
    split
    · exact ⟨h, .refl h, rfl, .empty⟩
    next hbottom =>
      refine ⟨h.add _, h.extends_add _, rfl, hmade hes rfl fun heq => hbottom ?_⟩
      cases heq
      exact ⟨rfl, rfl⟩
  · exact ⟨h.add _, h.extends_add _, rfl, hmade hes rfl (by simp)⟩

end Context

end TransitionNetwork
