import Mathlib.Data.Set.Insert
import Std.Data.HashMap.Lemmas
import TransitionNetwork.Proofs.Context.Histories
import TransitionNetwork.Proofs.Lookahead.Configurations

/-!
# Configurations that were entered

A walk keeps the pairs that it entered by state and digest, and compares contexts by a comparison
that is shortened by identities and digests. For contexts of one history it thereby finds exactly
the positions that were entered, a position being a state with the structure of a context.
-/

namespace TransitionNetwork

namespace Lookahead

/-- What of a configuration is of account: the state and the structure of the context. -/
def Configuration.position (k : Configuration) : StateId × Option Context :=
  (k.state, k.context.map Context.skeleton)

/-- Configurations are alike if and only if they have one position. -/
theorem alike_iff {k k' : Configuration} : Alike k k' ↔ k.position = k'.position :=
  ⟨fun h => Prod.ext h.state h.context, fun h => ⟨congrArg Prod.fst h, congrArg Prod.snd h⟩⟩

variable [NodeDigest] {h h' : History} {p q : Option Context}

/-- Rests of a stack of one history are compared by structure. -/
theorem beqParent_iff (hp : h.HoldsParent p) (hq : h.HoldsParent q) :
    Context.beqParent p q = true ↔ p.map Context.skeleton = q.map Context.skeleton := by
  cases p <;> cases q <;> simp only [Context.beqParent, Option.map_none, Option.map_some,
    Option.some.injEq, reduceCtorEq, Bool.false_eq_true]
  exact Context.beq_iff (hp _ rfl) (hq _ rfl)

namespace Entered

/-- The positions that were entered. -/
def positions (entered : Entered) : Set (StateId × Option Context) :=
  {x | ∃ p ∈ entered.getD (key x.1 p) [], p.map Context.skeleton = x.2}

/-- The contexts of all pairs belong to the history. -/
def HeldBy (h : History) (entered : Entered) : Prop :=
  ∀ k, ∀ p ∈ entered.getD k [], h.HoldsParent p

variable {entered : Entered} {id : StateId} {context : Option Context}

/-- No pairs belong to any history. -/
theorem heldBy_empty : HeldBy h ∅ := fun k p hp => by simp at hp

/-- At first no position is entered. -/
theorem positions_empty : positions ∅ = ∅ := by
  ext x
  simp [positions]

/-- Pairs of a history belong to later ones too. -/
theorem HeldBy.mono (hentered : entered.HeldBy h) (hext : h.Extends h') : entered.HeldBy h' :=
  fun k p hp => (hentered k p hp).mono hext

/-- Adding a pair whose context belongs to the history keeps all of them in it. -/
theorem HeldBy.add (hentered : entered.HeldBy h) (hcontext : h.HoldsParent context) :
    (entered.add id context).HeldBy h := by
  intro k p hp
  simp only [Entered.add, Std.HashMap.getD_insert] at hp
  split at hp
  · rcases List.mem_cons.mp hp with rfl | hp
    · exact hcontext
    · exact hentered _ p hp
  · exact hentered k p hp

/-- Contexts of one history with the same structure have the same key. -/
theorem key_eq (hp : h.HoldsParent p) (hq : h.HoldsParent q)
    (hsame : p.map Context.skeleton = q.map Context.skeleton) : key id p = key id q := by
  cases p <;> cases q <;> simp only [Option.map_none, Option.map_some, Option.some.injEq,
    reduceCtorEq] at hsame
  · rfl
  · simp only [key, Option.map_some, Option.getD_some,
      Context.digest_eq_of_skeleton_eq (hp _ rfl) (hq _ rfl) hsame]

/-- A pair is found exactly if its position was entered. -/
theorem has_iff (hentered : entered.HeldBy h) (hcontext : h.HoldsParent context) :
    entered.has id context = true ↔
      (⟨id, context⟩ : Configuration).position ∈ entered.positions := by
  change ((entered.getD (key id context) []).any fun c => Context.beqParent c context) = true ↔
    ∃ p ∈ entered.getD (key id p) [], p.map Context.skeleton = context.map Context.skeleton
  rw [List.any_eq_true]
  constructor
  · rintro ⟨p, hp, hbeq⟩
    have hheld := hentered _ p hp
    have hsame := (beqParent_iff hheld hcontext).mp hbeq
    exact ⟨p, key_eq hheld hcontext hsame ▸ hp, hsame⟩
  · rintro ⟨p, hp, hsame⟩
    have hheld := hentered _ p hp
    exact ⟨p, key_eq hheld hcontext hsame ▸ hp, (beqParent_iff hheld hcontext).mpr hsame⟩

/-- Entering a pair adds its position. -/
theorem positions_add (entered : Entered) (k : Configuration) :
    (entered.add k.state k.context).positions = insert k.position entered.positions := by
  ext ⟨id, structure'⟩
  simp only [positions, Entered.add, Std.HashMap.getD_insert, Set.mem_ofPred_eq, Set.mem_insert_iff,
    Configuration.position, Prod.mk.injEq]
  constructor
  · rintro ⟨p, hp, hsame⟩
    split at hp
    next hkey =>
      have hkey := beq_iff_eq.mp hkey
      rcases List.mem_cons.mp hp with rfl | hp
      · exact Or.inl ⟨(congrArg Prod.fst hkey).symm, hsame.symm⟩
      · exact Or.inr ⟨p, hkey ▸ hp, hsame⟩
    · exact Or.inr ⟨p, hp, hsame⟩
  · rintro (⟨rfl, rfl⟩ | ⟨p, hp, hsame⟩)
    · exact ⟨k.context, by simp, rfl⟩
    · refine ⟨p, ?_, hsame⟩
      split
      next hkey => exact List.mem_cons_of_mem _ (beq_iff_eq.mp hkey ▸ hp)
      · exact hp

end Entered

/-- Entering a configuration adds its position and no other. -/
theorem positions_enter (w : Walk) (k : Configuration) :
    (w.enter k).entered.positions = insert k.position w.entered.positions :=
  w.entered.positions_add k

/-- A configuration that is entered has its position among those entered. -/
theorem position_mem_enter (w : Walk) (k : Configuration) :
    k.position ∈ (w.enter k).entered.positions := by
  rw [positions_enter]
  exact Set.mem_insert _ _

end Lookahead

end TransitionNetwork
