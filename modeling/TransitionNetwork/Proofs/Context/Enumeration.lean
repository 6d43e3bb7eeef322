import TransitionNetwork.Context.Nodes
import TransitionNetwork.Proofs.Context.Sessions

/-!
# The nodes of a context in preorder

The nodes of a context are listed by a loop over a stack of pending nodes, on which a node may wait
several times before it is visited. The list is that of the recursive traversal, which visits a
node, then its parents in order of the entries, and passes over nodes that it has visited before. If
references with one identity are one node, as they are in every session, the list has exactly the
nodes that can be reached, and each once.
-/

namespace TransitionNetwork

namespace Context

/-! ## The recursive traversal -/

/-- Whether a node is among the listed ones. -/
def listed (visited : List Context) (c : Context) : Bool := visited.any (·.sameNode c)

mutual

/-- The visited nodes after a traversal of a context: nothing new if it was visited before, else
the context itself and then what is new through its entries. -/
def preorder : Context → List Context → List Context
  | empty, visited => if listed visited empty then visited else visited ++ [empty]
  | node id digest first rest, visited =>
    let c := node id digest first rest
    if listed visited c then visited
    else preorderEntries rest (preorderEntry first (visited ++ [c]))

/-- The visited nodes after a traversal of the parent of an entry, if there is one. -/
def preorderEntry : Entry Context → List Context → List Context
  | ⟨none, _⟩, visited => visited
  | ⟨some p, _⟩, visited => preorder p visited

/-- The visited nodes after traversals of the parents of entries, in their order. -/
def preorderEntries : List (Entry Context) → List Context → List Context
  | [], visited => visited
  | e :: rest, visited => preorderEntries rest (preorderEntry e visited)

end

/-- The visited nodes after traversals of contexts in order. -/
def preorderAll (pending visited : List Context) : List Context :=
  pending.foldl (fun visited p => p.preorder visited) visited

/-- A traversal of no contexts visits nothing new. -/
@[simp] theorem preorderAll_nil (visited : List Context) : preorderAll [] visited = visited := rfl

/-- Contexts are traversed one after the other. -/
@[simp] theorem preorderAll_cons (c : Context) (rest visited : List Context) :
    preorderAll (c :: rest) visited = preorderAll rest (c.preorder visited) := rfl

/-- A traversal of two lists goes on with the second where the first has led. -/
theorem preorderAll_append (cs ds visited : List Context) :
    preorderAll (cs ++ ds) visited = preorderAll ds (preorderAll cs visited) :=
  List.foldl_append

/-- Entries are traversed through their parents. -/
theorem preorderEntries_eq (es : List (Entry Context)) (visited : List Context) :
    preorderEntries es visited = preorderAll (es.filterMap Entry.parent) visited := by
  induction es generalizing visited with
  | nil => rfl
  | cons e rest ih =>
    rcases e with ⟨_ | p, r⟩ <;> simp [preorderEntries, preorderEntry, ih]

/-- A node that was not visited is listed, and its parents are visited next. -/
theorem preorder_eq (c : Context) (visited : List Context) :
    c.preorder visited =
      if listed visited c then visited else preorderAll c.parents (visited ++ [c]) := by
  cases c with
  | empty => rfl
  | node id digest first rest =>
    rw [preorder, parents, entries, ← preorderEntries_eq]
    rfl

/-! ## The loop -/

/-- The set has the identities of the listed nodes. -/
def Marks (seen : Std.HashSet NodeId) (visited : List Context) : Prop :=
  ∀ c : Context, seen.contains c.identity = listed visited c

/-- No identity is marked for no listed nodes. -/
theorem marks_empty : Marks ∅ [] := by
  intro c
  simp [listed]

/-- A node is marked when it is listed. -/
theorem Marks.insert {seen : Std.HashSet NodeId} {visited : List Context} (h : Marks seen visited)
    (c : Context) : Marks (seen.insert c.identity) (visited ++ [c]) := by
  intro d
  rw [Std.HashSet.contains_insert, h d, listed, listed, List.any_append, Bool.or_comm]
  simp [sameNode]

/-- The loop lists behind the visited nodes what is new in traversals of the pending ones, in the
order in which they are pending. -/
theorem append_nodesFrom {pending visited : List Context} {seen : Std.HashSet NodeId}
    (h : Marks seen visited) :
    visited ++ nodesFrom pending seen = preorderAll pending visited := by
  fun_induction nodesFrom pending seen generalizing visited with
  | case1 => simp
  | case2 seen c rest hseen ih =>
    -- The node was pending a second time, and was visited in between.
    rw [h c] at hseen
    rw [ih h, preorderAll_cons, preorder_eq, if_pos hseen]
  | case3 seen c rest hseen ih =>
    rw [h c] at hseen
    have hlisted := ih (h.insert c)
    rw [List.append_assoc, List.singleton_append] at hlisted
    rw [hlisted, preorderAll_append, preorderAll_cons, preorder_eq, if_neg hseen]

/-- The loop lists what the recursive traversal visits. -/
theorem nodes_eq_preorder (c : Context) : c.nodes = c.preorder [] :=
  append_nodesFrom marks_empty

/-! ## What is listed -/

/-- Only nodes that can be reached from pending ones are listed. -/
theorem exists_reaches_of_mem_nodesFrom {pending : List Context} {seen : Std.HashSet NodeId}
    {d : Context} (hd : d ∈ nodesFrom pending seen) : ∃ c ∈ pending, c.Reaches d := by
  fun_induction nodesFrom pending seen with
  | case1 => simp at hd
  | case2 seen c rest hseen ih => simpa using Or.inr (ih hd)
  | case3 seen c rest hseen ih =>
    cases List.mem_cons.mp hd with
    | inl hself => exact ⟨c, List.mem_cons_self, hself ▸ .refl⟩
    | inr hd =>
      obtain ⟨p, hp, hreach⟩ := ih hd
      cases List.mem_append.mp hp with
      | inl hp => exact ⟨c, List.mem_cons_self, .of_parent hp hreach⟩
      | inr hp => exact ⟨p, List.mem_cons_of_mem c hp, hreach⟩

/-- No node that was seen is listed. -/
theorem not_seen_of_mem_nodesFrom {pending : List Context} {seen : Std.HashSet NodeId}
    {d : Context} (hd : d ∈ nodesFrom pending seen) : d.identity ∉ seen := by
  fun_induction nodesFrom pending seen with
  | case1 => simp at hd
  | case2 seen c rest hseen ih => exact ih hd
  | case3 seen c rest hseen ih =>
    cases List.mem_cons.mp hd with
    | inl hself => simpa [hself] using hseen
    | inr hd => exact fun hmem => ih hd (Std.HashSet.mem_insert.mpr (Or.inr hmem))

/-- No identity is listed twice. -/
theorem pairwise_nodesFrom (pending : List Context) (seen : Std.HashSet NodeId) :
    (nodesFrom pending seen).Pairwise (·.identity ≠ ·.identity) := by
  fun_induction nodesFrom pending seen with
  | case1 => exact .nil
  | case2 seen c rest hseen ih => exact ih
  | case3 seen c rest hseen ih =>
    refine List.pairwise_cons.mpr ⟨fun d hd hsame => ?_, ih⟩
    exact not_seen_of_mem_nodesFrom hd (by simp [hsame])

/-- Every identity that is pending or that of a parent of a listed node is seen or listed. -/
theorem seen_or_mem_nodesFrom (pending : List Context) (seen : Std.HashSet NodeId) (c : Context)
    (hc : c ∈ pending ∨ ∃ d ∈ nodesFrom pending seen, c ∈ d.parents) :
    c.identity ∈ seen ∨ ∃ d ∈ nodesFrom pending seen, d.identity = c.identity := by
  fun_induction nodesFrom pending seen with
  | case1 => simp at hc
  | case2 seen top rest hseen ih =>
    rcases hc with hc | hparent
    · cases List.mem_cons.mp hc with
      | inl hself => exact Or.inl (hself ▸ hseen)
      | inr hc => exact ih (Or.inl hc)
    · exact ih (Or.inr hparent)
  | case3 seen top rest hseen ih =>
    have hfound : c = top ∨ c ∈ top.parents ++ rest ∨
        ∃ d ∈ nodesFrom (top.parents ++ rest) (seen.insert top.identity), c ∈ d.parents := by
      simp only [List.mem_cons, exists_eq_or_imp] at hc
      simp only [List.mem_append]
      tauto
    rcases hfound with rfl | hlater
    · exact Or.inr ⟨c, List.mem_cons_self, rfl⟩
    · rcases ih hlater with hmem | ⟨d, hd, hsame⟩
      · rcases Std.HashSet.mem_insert.mp hmem with hself | hmem
        · exact Or.inr ⟨top, List.mem_cons_self, beq_iff_eq.mp hself⟩
        · exact Or.inl hmem
      · exact Or.inr ⟨d, List.mem_cons_of_mem top hd, hsame⟩

/-! ## One node for each identity -/

/-- Among the nodes that can be reached, those with one identity are one node. -/
def Coherent (c : Context) : Prop :=
  ∀ d e, c.Reaches d → c.Reaches e → d.identity = e.identity → d = e

/-- Only nodes that can be reached are listed. -/
theorem reaches_of_mem_nodes {c d : Context} (hd : d ∈ c.nodes) : c.Reaches d := by
  simpa using exists_reaches_of_mem_nodesFrom hd

/-- Every node that can be reached is listed. -/
theorem Coherent.mem_nodes {c d : Context} (hc : c.Coherent) (hd : c.Reaches d) : d ∈ c.nodes := by
  have hlisted (e : Context) (he : c.Reaches e)
      (hfound : e ∈ [c] ∨ ∃ d ∈ c.nodes, e ∈ d.parents) : e ∈ c.nodes := by
    rcases seen_or_mem_nodesFrom [c] ∅ e hfound with hmem | ⟨d, hd, hsame⟩
    · simp at hmem
    · exact hc d e (reaches_of_mem_nodes hd) he hsame ▸ hd
  induction hd with
  | refl => exact hlisted c .refl (Or.inl List.mem_cons_self)
  | parent hreach hp ih => exact hlisted _ (.parent hreach hp) (Or.inr ⟨_, ih, hp⟩)

/-- The context itself is listed first. -/
theorem head?_nodes (c : Context) : c.nodes.head? = some c := by
  rw [nodes, nodesFrom]
  simp

section

variable [NodeDigest]

/-- What can be reached from a context of a history belongs to the history. -/
theorem Reaches.holds {h : History} {c d : Context} (hreach : c.Reaches d) (hc : h.Holds c) :
    h.Holds d := by
  induction hreach with
  | refl => exact hc
  | parent _ hp ih =>
    obtain ⟨e, he, hparent⟩ := mem_parents.mp hp
    exact ih.entries e he _ hparent

/-- In a history an identity is that of one node. -/
theorem coherent_of_holds {h : History} {c : Context} (hc : h.Holds c) : c.Coherent := by
  intro d e hd he hsame
  rw [← (hd.holds hc).node_identity, hsame, (he.holds hc).node_identity]

/-- All contexts that a program comes by are coherent. -/
theorem coherent_of_reached {s : Session} (hs : s.Reached) : ∀ c ∈ s.contexts, c.Coherent := by
  obtain ⟨h, hsound⟩ := hs.sound
  exact fun c hc => coherent_of_holds (hsound.contexts c hc)

end

/-- The listed nodes of a context are those that the recursive traversal visits, in its order. They
are exactly the nodes that can be reached, each identity once, and the context itself is the first
of them. -/
theorem nodes_enumerate {c : Context} (hc : c.Coherent) :
    c.nodes = c.preorder [] ∧ (∀ d, d ∈ c.nodes ↔ c.Reaches d) ∧
      c.nodes.Pairwise (·.identity ≠ ·.identity) ∧ c.nodes.head? = some c :=
  ⟨nodes_eq_preorder c, fun _ => ⟨reaches_of_mem_nodes, hc.mem_nodes⟩,
    pairwise_nodesFrom [c] ∅, head?_nodes c⟩

/-! ## Two equal callers -/

/-- A caller that returns to state 5 and has no caller itself, as a node of the given identity. -/
def equalCaller (id : NodeId) : Context := (ofEntries [⟨some empty, 5⟩] id).1

/-- Three entries over two equal callers, the first of them twice. -/
def equalCallers : Context :=
  (ofEntries [⟨some (equalCaller 1), 3⟩, ⟨some (equalCaller 2), 4⟩, ⟨some (equalCaller 1), 7⟩] 3).1

/-- The session of the equal callers is reached by making each of its contexts. -/
theorem reached_equalCallers :
    Session.Reached ⟨[equalCallers, equalCaller 2, equalCaller 1, empty], [], 4⟩ := by
  have hfirst : Session.Reached ⟨[equalCaller 1, empty], [], 2⟩ :=
    .step .start (.make [⟨some empty, 5⟩] (by simp [Session.start]))
  have hsecond : Session.Reached ⟨[equalCaller 2, equalCaller 1, empty], [], 3⟩ :=
    .step hfirst (.make [⟨some empty, 5⟩] (by simp))
  exact .step hsecond (.make
    [⟨some (equalCaller 1), 3⟩, ⟨some (equalCaller 2), 4⟩, ⟨some (equalCaller 1), 7⟩] (by simp))

/-- Callers of the same structure are listed on their own, a shared node only once. -/
theorem nodes_enumerate_equalCallers :
    equalCallers.Coherent ∧ (equalCaller 1).skeleton = (equalCaller 2).skeleton ∧
      equalCallers.nodes = [equalCallers, equalCaller 1, empty, equalCaller 2] := by
  have hc : equalCallers.Coherent := coherent_of_reached reached_equalCallers _ List.mem_cons_self
  refine ⟨hc, rfl, ?_⟩
  rw [(nodes_enumerate hc).1]
  rfl

end Context

end TransitionNetwork
