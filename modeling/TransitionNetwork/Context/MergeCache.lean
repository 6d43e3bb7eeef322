import Std.Data.HashMap
import TransitionNetwork.Context.Basic

/-!
# Merge caches

A merge cache keeps the results of earlier merges for pairs of nodes, told apart by identity. A
result is found under either order of its pair, and the first result that is kept for a pair
stays.
-/

namespace TransitionNetwork

/-- Results of merges by the identities of both operands. -/
structure MergeCache where
  results : Std.HashMap (NodeId × NodeId) Context

namespace MergeCache

/-- The cache without results. -/
def empty : MergeCache := ⟨∅⟩

instance : EmptyCollection MergeCache := ⟨empty⟩

instance : Inhabited MergeCache := ⟨empty⟩

/-- The result that is kept for two nodes in either order. -/
def get? (cache : MergeCache) (a b : Context) : Option Context :=
  cache.results[(a.identity, b.identity)]? <|> cache.results[(b.identity, a.identity)]?

/-- Keep a result for two nodes, unless there is one for them in this order. -/
def insert (cache : MergeCache) (a b result : Context) : MergeCache :=
  ⟨cache.results.insertIfNew (a.identity, b.identity) result⟩

/-- The number of results. -/
def size (cache : MergeCache) : Nat := cache.results.size

/-- Whether no result is kept. -/
def isEmpty (cache : MergeCache) : Bool := cache.results.isEmpty

end MergeCache

end TransitionNetwork
