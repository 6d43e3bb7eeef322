import TransitionNetwork.Proofs.Context.MixedSessions

/-!
# Unfolded contexts

A context is a graph in which nodes are shared. If every shared node is written out wherever it is a
parent, then a tree of forms, return states and known or unknown rests is left, in which neither
identities nor digests occur. Contexts that a program has made, merged, looked up and interned in
any way are equal exactly if they unfold to the same tree, and then their digests are the same,
whatever function of the form, the digests of the parents and the return states the digest is.
-/

namespace TransitionNetwork

/-- The form of a node and, for each of its entries in order, the return state and the tree of the
rest of the stack, if that is known. -/
inductive StackTree where
  | node (shape : Shape) (entries : List (Int × Option StackTree))

namespace Context

mutual

/-- The tree to which a context unfolds. -/
def unfolded : Context → StackTree
  | empty => .node .empty [(emptyReturn, none)]
  | node _ _ first [] => .node .singleton [unfoldedEntry first]
  | node _ _ first (second :: rest) =>
    .node .array (unfoldedEntry first :: unfoldedEntry second :: unfoldedEntries rest)

/-- The return state of an entry and the tree of its parent. -/
def unfoldedEntry : Entry Context → Int × Option StackTree
  | ⟨none, r⟩ => (r, none)
  | ⟨some p, r⟩ => (r, some p.unfolded)

/-- The return states of entries and the trees of their parents. -/
def unfoldedEntries : List (Entry Context) → List (Int × Option StackTree)
  | [] => []
  | e :: rest => unfoldedEntry e :: unfoldedEntries rest

end

/-- Entries are unfolded one by one. -/
theorem unfoldedEntries_eq (es : List (Entry Context)) :
    unfoldedEntries es = es.map unfoldedEntry := by
  induction es with
  | nil => rw [unfoldedEntries, List.map_nil]
  | cons e rest ih => rw [unfoldedEntries, ih, List.map_cons]

/-- An entry unfolds to its return state over the tree of its parent. -/
theorem unfoldedEntry_eq (e : Entry Context) :
    unfoldedEntry e = (e.returnState, e.parent.map unfolded) := by
  rcases e with ⟨_ | p, r⟩ <;> rw [unfoldedEntry] <;> rfl

/-- A context unfolds to its form over its unfolded entries. -/
theorem unfolded_eq (c : Context) : c.unfolded = .node c.shape (c.entries.map unfoldedEntry) := by
  rcases c with _ | ⟨id, digest, first, _ | ⟨second, rest⟩⟩
  · rw [unfolded, entries, List.map_singleton, unfoldedEntry]
    rfl
  · rw [unfolded]
    rfl
  · rw [unfolded, unfoldedEntries_eq]
    rfl

/-- Unfolding does not see identities and digests. -/
theorem unfolded_skeleton (c : Context) : c.skeleton.unfolded = c.unfolded := by
  induction c using induct with
  | empty => rw [skeleton_empty]
  | node id digest first rest ih =>
    rw [unfolded_eq, unfolded_eq, shape_skeleton, entries_skeleton, List.map_map]
    congr 1
    refine List.map_congr_left fun e he => ?_
    rw [Function.comp_apply, unfoldedEntry_eq, unfoldedEntry_eq, returnState_entrySkeleton,
      parent_entrySkeleton, Option.map_map]
    exact congrArg (Prod.mk e.returnState) (Option.map_congr (ih e he))

/-- Entries that unfold alike have the same skeletons if this is so of their parents. -/
theorem map_entrySkeleton_eq_of_unfolded {es fs : List (Entry Context)}
    (hparents : ∀ e ∈ es, ∀ p ∈ e.parent, ∀ q : Context, p.unfolded = q.unfolded →
      p.skeleton = q.skeleton)
    (hsame : es.map unfoldedEntry = fs.map unfoldedEntry) :
    es.map entrySkeleton = fs.map entrySkeleton := by
  induction es generalizing fs with
  | nil => rw [List.map_eq_nil_iff.mp hsame.symm]
  | cons e es ih =>
    obtain ⟨f, fs, rfl, hf, hfs⟩ := List.map_eq_cons_iff.mp hsame.symm
    obtain ⟨hhead, hrest⟩ := List.forall_mem_cons.mp hparents
    rw [List.map_cons, List.map_cons, ih hrest hfs.symm, entrySkeleton_eq, entrySkeleton_eq]
    rw [unfoldedEntry_eq, unfoldedEntry_eq, Prod.mk.injEq] at hf
    obtain ⟨hreturn, hparent⟩ := hf
    have hskeleton : e.parent.map skeleton = f.parent.map skeleton := by
      cases hp : e.parent with
      | none =>
        rw [hp, Option.map_none, Option.map_eq_none_iff] at hparent
        rw [hparent]
      | some p =>
        rw [hp, Option.map_some, Option.map_eq_some_iff] at hparent
        obtain ⟨q, hq, hunfolded⟩ := hparent
        rw [hq, Option.map_some, Option.map_some, hhead p hp q hunfolded.symm]
    rw [hreturn, hskeleton]

/-- Contexts unfold to the same tree exactly if they have the same skeleton. -/
theorem unfolded_eq_iff {c d : Context} : c.unfolded = d.unfolded ↔ c.skeleton = d.skeleton := by
  constructor
  · intro hsame
    induction c using induct generalizing d with
    | empty =>
      rw [unfolded_eq, unfolded_eq, StackTree.node.injEq] at hsame
      have hempty : d.isEmpty = true := decide_eq_true hsame.1.symm
      rw [isEmpty_iff.mp hempty]
    | node id digest first rest ih =>
      rw [unfolded_eq, unfolded_eq, StackTree.node.injEq] at hsame
      obtain ⟨hshape, hentries⟩ := hsame
      have hempty : d.isEmpty = false := by
        rw [← isEmpty_node id digest first rest, isEmpty, isEmpty, hshape]
      exact skeleton_eq_of_entries (isEmpty_node ..) hempty
        (map_entrySkeleton_eq_of_unfolded (fun e he p hp q => ih e he p hp) hentries)
  · intro hsame
    rw [← unfolded_skeleton c, hsame, unfolded_skeleton]

end Context

namespace MixedSession

variable {s : MixedSession} {c d : Context}

/-- Contexts of a session are equal exactly if they unfold to the same tree, though identities and
digests shorten the comparison at every node, and if they do, then they have the same digest. -/
theorem beq_iff_unfolded_eq [NodeDigest] (hs : s.Reached) (hc : c ∈ s.contexts)
    (hd : d ∈ s.contexts) :
    (c.unfolded = d.unfolded → c.digest = d.digest) ∧
      ((c == d) = true ↔ c.unfolded = d.unfolded) := by
  obtain ⟨h, hheld⟩ := hs.held
  have hc' := hheld.contexts c hc
  have hd' := hheld.contexts d hd
  refine ⟨fun hsame => ?_, ?_⟩
  · exact Context.digest_eq_of_skeleton_eq hc' hd' (Context.unfolded_eq_iff.mp hsame)
  · rw [Context.beq_iff hc' hd', Context.unfolded_eq_iff]

open Context (equalCaller)

/-- Two callers that were made separately are equal and have one digest; the calls from them return
to different states and are not equal. -/
theorem beq_iff_unfolded_eq_equallyCalled :
    ((equalCaller 1).digest = (equalCaller 2).digest ∧ (equalCaller 1 == equalCaller 2) = true) ∧
      ¬ (equallyCalled 1 3 3 == equallyCalled 2 4 4) = true := by
  have hcontexts : equallyCalledTwice.contexts =
      [equallyCalled 2 4 4, equallyCalled 1 3 3, equalCaller 2, equalCaller 1, .empty] := rfl
  obtain ⟨hdigest, hequal⟩ := beq_iff_unfolded_eq (c := equalCaller 1) (d := equalCaller 2)
    reached_equallyCalledTwice (by simp [hcontexts]) (by simp [hcontexts])
  obtain ⟨-, hdifferent⟩ := beq_iff_unfolded_eq (c := equallyCalled 1 3 3)
    (d := equallyCalled 2 4 4) reached_equallyCalledTwice (by simp [hcontexts])
    (by simp [hcontexts])
  have hsame : (equalCaller 1).unfolded = (equalCaller 2).unfolded :=
    Context.unfolded_eq_iff.mpr rfl
  refine ⟨⟨hdigest hsame, hequal.mpr hsame⟩, fun hbeq => ?_⟩
  have htrees := hdifferent.mp hbeq
  rw [Context.unfolded_eq, Context.unfolded_eq, StackTree.node.injEq] at htrees
  have hreturn := congrArg (List.map Prod.fst) htrees.2
  simp [Context.unfoldedEntry_eq, equallyCalled, Context.ofEntries, Context.singleton,
    Context.entries] at hreturn

end MixedSession

end TransitionNetwork
