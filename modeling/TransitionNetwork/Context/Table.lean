import Std.Data.HashMap
import TransitionNetwork.Context.Text

/-!
# Tables of contexts

A table holds contexts of pairwise different structure. It finds the member that is equal to a
given context, whichever node that is, by way of the digest.
-/

namespace TransitionNetwork

/-- Contexts of pairwise different structure, by their digests. -/
structure ContextTable where
  buckets : Std.HashMap UInt64 (List Context)
  /-- The number of members. -/
  size : Nat

namespace ContextTable

/-- The table without members. -/
def empty : ContextTable := ⟨∅, 0⟩

instance : EmptyCollection ContextTable := ⟨empty⟩

instance : Inhabited ContextTable := ⟨empty⟩

variable [NodeDigest]

/-- The members with the digest of a context. -/
def bucket (table : ContextTable) (c : Context) : List Context := table.buckets.getD c.digest []

/-- The member that is equal to a context. -/
def find? (table : ContextTable) (c : Context) : Option Context :=
  (table.bucket c).find? (· == c)

/-- The member that is equal to a context, which becomes a member itself if there is none. -/
def intern (table : ContextTable) (c : Context) : Context × ContextTable :=
  match table.find? c with
  | some member => (member, table)
  | none => (c, ⟨table.buckets.insert c.digest (c :: table.bucket c), table.size + 1⟩)

/-- The members, in no particular order. -/
def members (table : ContextTable) : List Context :=
  table.buckets.toList.flatMap Prod.snd

/-- Whether there are no members. -/
def isEmpty (table : ContextTable) : Bool := table.size == 0

/-- The members in writing, in alphabetical order. -/
def text (table : ContextTable) : String :=
  let texts := (table.members.map Context.text).mergeSort
  "\x7b" ++ String.intercalate ", " texts ++ "\x7d"

end ContextTable

end TransitionNetwork
