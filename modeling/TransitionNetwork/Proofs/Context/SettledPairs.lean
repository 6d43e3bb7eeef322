import TransitionNetwork.Proofs.Context.CacheTransparency

/-!
# Settled pairs

A pair of contexts is settled by a cache if merging it gives a node that was there before and keeps
nothing more. Apart from a wildcard among several entries, whose pair is always settled, there are
two ways. The result may be kept for the pair. Or both contexts have one entry, of the same return
state, and the pair of their parents is settled by the parent of one of them, which then is the
result although it is kept nowhere.

Every merge with a cache settles its pair, if the contexts are different in structure, and leaves
settled every pair that was. A merge that could unsettle a pair would have to keep a result for it,
which is done only for pairs that are not settled.
-/

namespace TransitionNetwork

namespace MergeCache

/-- In a one-way cache a result is found alike under both orders of its pair. -/
theorem get?_comm {cache : MergeCache} (hcache : cache.OneWay) (a b : Context) :
    cache.get? a b = cache.get? b a := by
  simp only [get?, Option.orElse_eq_orElse, Option.orElse_eq_or]
  cases hab : cache.results[(a.identity, b.identity)]? with
  | none => rw [Option.none_or, Option.or_none]
  | some c =>
    have hmem : (a.identity, b.identity) ∈ cache.results :=
      Std.HashMap.mem_iff_isSome_getElem?.mpr (by rw [hab]; rfl)
    rw [Std.HashMap.getElem?_eq_none (hcache _ _ hmem), Option.none_or]
    rfl

/-- Keeping a result for one pair changes nothing for others. -/
theorem get?_insert_of_ne {cache : MergeCache} {a b x y : Context} (c : Context)
    (hsame : ¬ (a.identity = x.identity ∧ b.identity = y.identity))
    (hswap : ¬ (a.identity = y.identity ∧ b.identity = x.identity)) :
    (cache.insert a b c).get? x y = cache.get? x y := by
  simp only [get?, insert, Std.HashMap.getElem?_insertIfNew, beq_iff_eq, Prod.mk.injEq, hsame, hswap,
    false_and, if_false]

end MergeCache

namespace MergeState

variable {h : History} {m m' : MergeState} {a b x y c : Context}

/-- What is known depends on the cache alone. -/
theorem known?_of_cache_eq (hcache : m'.cache = m.cache) : m'.known? = m.known? := by
  funext a b
  rw [known?, known?, hcache]

/-- With a one-way cache the same is known for both orders of a pair. -/
theorem known?_comm (hm : ∀ cache ∈ m.cache, cache.OneWay) (a b : Context) :
    m.known? a b = m.known? b a := by
  rw [known?, known?]
  cases hcache : m.cache with
  | none => rfl
  | some cache => exact MergeCache.get?_comm (hm cache hcache) a b

/-- Nothing is known for a pair exactly if it is kept in neither order. -/
theorem known?_eq_none_iff :
    m.known? a b = none ↔ ¬ m.Keeps a.identity b.identity ∧ ¬ m.Keeps b.identity a.identity := by
  refine ⟨not_keeps_of_known?, fun ⟨hab, hba⟩ => ?_⟩
  rw [known?, Option.bind_eq_none_iff]
  exact fun cache hcache => MergeCache.get?_eq_none.mpr
    ⟨fun hmem => hab ⟨cache, hcache, hmem⟩, fun hmem => hba ⟨cache, hcache, hmem⟩⟩

/-- Merges of pairs that weigh less keep no result for a pair. -/
theorem FillsUpTo.known?_eq_none [NodeDigest] {w : Nat} (hfills : FillsUpTo h w m m')
    (hw : w < a.weight + b.weight) (ha : h.Holds a) (hb : h.Holds b)
    (hknown : m.known? a b = none) : m'.known? a b = none := by
  obtain ⟨hab, hba⟩ := not_keeps_of_known? hknown
  refine known?_eq_none_iff.mpr ⟨fun hkeeps => ?_, fun hkeeps => ?_⟩
  · refine (hfills.weight _ _ hkeeps).elim hab fun hle => ?_
    rw [ha.node_identity, hb.node_identity] at hle
    omega
  · refine (hfills.weight _ _ hkeeps).elim hba fun hle => ?_
    rw [ha.node_identity, hb.node_identity] at hle
    omega

/-- Keeping a result changes nothing of what is known for other pairs. -/
theorem known?_remember_of_ne (c : Context)
    (hsame : ¬ (a.identity = x.identity ∧ b.identity = y.identity))
    (hswap : ¬ (a.identity = y.identity ∧ b.identity = x.identity)) :
    (m.remember a b c).known? x y = m.known? x y := by
  rw [known?, known?, remember, Option.bind_map]
  exact congrArg (Option.bind m.cache) (funext fun cache => cache.get?_insert_of_ne c hsame hswap)

/-- What is kept for a pair without a result is then known. -/
theorem known?_remember_self (hcache : m.cache.isSome) (hknown : m.known? a b = none) (c : Context) :
    (m.remember a b c).known? a b = some c := by
  obtain ⟨cache, hcache⟩ := Option.isSome_iff_exists.mp hcache
  have hnone := (MergeCache.get?_eq_none.mp (by rwa [known?, hcache] at hknown)).1
  rw [known?, remember, hcache, Option.map_some, Option.bind_some, MergeCache.get?,
    MergeCache.insert, Std.HashMap.getElem?_insertIfNew, if_pos ⟨BEq.rfl, hnone⟩]
  rfl

end MergeState

namespace Context

variable (root : RootReading)

/-- A merge of the first two contexts gives the third one, which was there before, and keeps nothing
more. -/
inductive Settled [NodeDigest] (known : Context → Context → Option Context) :
    Context → Context → Context → Prop
  /-- A context merged with itself. -/
  | same (a : Context) : Settled known a a a
  /-- A wildcard among several entries. -/
  | wildcard {a b c : Context} (hne : ¬ (a == b) = true) (harray : (a.isArray || b.isArray) = true)
      (hc : wildcardOf root a b = some c) : Settled known a b c
  /-- A known result. -/
  | known {a b c : Context} (hne : ¬ (a == b) = true)
      (hwild : (a.isArray || b.isArray) = true → wildcardOf root a b = none)
      (hc : known a b = some c) : Settled known a b c
  /-- An operand whose parent is that of the result. -/
  | operand {a b c p : Context} (hne : ¬ (a == b) = true)
      (harray : ¬ (a.isArray || b.isArray) = true) (hknown : known a b = none)
      (hroot : rootEntries root a b = none) (hreturn : a.top.returnState = b.top.returnState)
      (hparents : Settled known (restOf a.top.parent) (restOf b.top.parent) p)
      (hc : c = a ∨ c = b) (hp : c.top.parent = some p) : Settled known a b c

variable [NodeDigest] {root} {h : History} {m : MergeState} {a b c d : Context}

/-! ## Merging settled pairs -/

omit [NodeDigest] in
/-- The wildcard is found in either order of two contexts. -/
theorem wildcardOf_comm (a b : Context) : wildcardOf root a b = wildcardOf root b a := by
  cases root with
  | exact => rfl
  | wildcard =>
    simp only [wildcardOf]
    cases ha : a.isEmpty <;> cases hb : b.isEmpty <;> simp
    rw [isEmpty_iff.mp ha, isEmpty_iff.mp hb]

omit [NodeDigest] in
/-- Whether one of two contexts is empty does not depend on their order. -/
theorem rootEntries_eq_none_comm (hroot : rootEntries root a b = none) :
    rootEntries root b a = none := by
  obtain ⟨ha, hb⟩ := not_isEmpty_of_rootEntries hroot
  rw [rootEntries.eq_def, eq_false_of_ne_true ha, eq_false_of_ne_true hb]

/-- A pair is settled alike in both orders, if results are known in both orders. -/
theorem Settled.symm {known : Context → Context → Option Context}
    (hcomm : ∀ a b, known a b = known b a) (hs : Settled root known a b c) (ha : h.Holds a)
    (hb : h.Holds b) : Settled root known b a c := by
  induction hs with
  | same a => exact .same a
  | wildcard hne harray hc =>
    exact .wildcard (fun hsame => hne (beq_comm hb ha hsame)) (by rwa [Bool.or_comm])
      (by rwa [wildcardOf_comm])
  | known hne hwild hc =>
    refine .known (fun hsame => hne (beq_comm hb ha hsame)) (fun harray => ?_) (by rwa [hcomm])
    rw [wildcardOf_comm]
    exact hwild (by rwa [Bool.or_comm])
  | operand hne harray hknown hroot hreturn _ hc hp ih =>
    exact .operand (fun hsame => hne (beq_comm hb ha hsame)) (by rwa [Bool.or_comm])
      (by rwa [hcomm]) (rootEntries_eq_none_comm hroot) hreturn.symm
      (ih (holds_restOf ha.top) (holds_restOf hb.top)) hc.symm hp

/-- Merging a settled pair gives its result and changes nothing. -/
theorem Settled.merge_eq (hs : Settled root m.known? a b c) (ha : h.Holds a) (hb : h.Holds b) :
    merge root a b m = (c, m) := by
  induction hs with
  | same a => rw [merge, if_pos (beq_self a)]
  | wildcard hne harray hc => rw [merge, if_neg hne, if_pos harray, hc]
  | @known a b c hne hwild hc =>
    rw [merge, if_neg hne]
    split
    next harray => rw [hwild harray, hc]
    next => rw [hc]
  | @operand a b c p hne harray hknown hroot hreturn hparents hc hp ih =>
    have hdifferent := (restOf_top_of_ne ha hb hne harray hroot hreturn).1
    have hmerged : mergeParents root a.top.parent b.top.parent m = (some p, m) := by
      rw [mergeParents_eq (isSome_or_of_ne hdifferent), ih (holds_restOf ha.top) (holds_restOf hb.top)]
    rw [merge, if_neg hne, if_neg harray, hknown, hroot]
    simp only [hreturn, if_true, hmerged]
    have hself := sameParent_self (some p)
    rcases hc with rfl | rfl
    · rw [hp, if_pos hself]
    · rw [if_neg fun hsame => ?_, hp, if_pos hself]
      have hheld : h.HoldsParent (some p) := hp ▸ hb.top
      exact hdifferent ((hheld.eq_of_sameParent ha.top hsame).symm.trans hp.symm)

/-- A pair is settled with one result at most. -/
theorem Settled.unique (hs : Settled root m.known? a b c) (hs' : Settled root m.known? a b d)
    (ha : h.Holds a) (hb : h.Holds b) : c = d :=
  congrArg Prod.fst ((hs.merge_eq ha hb).symm.trans (hs'.merge_eq ha hb))

/-! ## Keeping results -/

/-- Settled pairs stay settled when a result is kept for a pair that is not. -/
theorem Settled.remember {x y : Context} (hm : ∀ cache ∈ m.cache, cache.OneWay) (ha : h.Holds a)
    (hb : h.Holds b) (hopen : ∀ c, ¬ Settled root m.known? a b c) (hx : h.Holds x) (hy : h.Holds y)
    (hs : Settled root m.known? x y d) : Settled root (m.remember a b c).known? x y d := by
  -- The pair is another one in either order, and so what is known of it does not change.
  have hother {x y d : Context} (hx : h.Holds x) (hy : h.Holds y)
      (hs : Settled root m.known? x y d) : (m.remember a b c).known? x y = m.known? x y := by
    have heq {u v : Context} (hu : h.Holds u) (hv : h.Holds v) (hsame : u.identity = v.identity) :
        u = v := hu.eq_of_sameNode hv (by rwa [sameNode, beq_iff_eq])
    refine MergeState.known?_remember_of_ne c (fun hsame => ?_) fun hsame => ?_
    · rw [← heq ha hx hsame.1, ← heq hb hy hsame.2] at hs
      exact hopen d hs
    · have hswap := hs.symm (MergeState.known?_comm hm) hx hy
      rw [← heq ha hy hsame.1, ← heq hb hx hsame.2] at hswap
      exact hopen d hswap
  induction hs with
  | same a => exact .same a
  | wildcard hne harray hc => exact .wildcard hne harray hc
  | known hne hwild hc =>
    exact .known hne hwild ((hother hx hy (.known hne hwild hc)).trans hc)
  | operand hne harray hknown hroot hreturn hparents hc hp ih =>
    have hsettled := Settled.operand hne harray hknown hroot hreturn hparents hc hp
    exact .operand hne harray ((hother hx hy hsettled).trans hknown) hroot hreturn
      (ih (holds_restOf hx.top) (holds_restOf hy.top)) hc hp

/-- Every pair of contexts of the history that is settled stays settled. -/
def KeepsSettled (root : RootReading) (h : History) (m m' : MergeState) : Prop :=
  ∀ a b c, h.Holds a → h.Holds b → Settled root m.known? a b c → Settled root m'.known? a b c

namespace KeepsSettled

variable {h' : History} {m' m'' : MergeState}

/-- Steps that leave the cache alone keep settled pairs settled. -/
theorem of_cache_eq (hcache : m'.cache = m.cache) : KeepsSettled root h m m' := by
  intro a b c _ _ hs
  rwa [MergeState.known?_of_cache_eq hcache]

/-- Where nothing changes, settled pairs stay settled. -/
theorem refl (root : RootReading) (h : History) (m : MergeState) : KeepsSettled root h m m :=
  of_cache_eq rfl

/-- What two merges keep settled, one after the other, both together do. -/
theorem trans (hfirst : KeepsSettled root h m m') (hext : h.Extends h')
    (hsecond : KeepsSettled root h' m' m'') : KeepsSettled root h m m'' :=
  fun a b c ha hb hs => hsecond a b c (ha.mono hext) (hb.mono hext) (hfirst a b c ha hb hs)

end KeepsSettled

/-- A state of a merge with a cache that is sound and one-way. -/
structure Caching (root : RootReading) (h : History) (m : MergeState) : Prop
    extends m.Sound root h where
  oneWay : ∀ cache ∈ m.cache, cache.OneWay
  isSome : m.cache.isSome

/-- A caching state is one again after a merge that leaves it sound. -/
theorem Caching.of_fillsUpTo {h' : History} {m' : MergeState} {w : Nat} (hm : Caching root h m)
    (hfills : MergeState.FillsUpTo h w m m') (hsound : m'.Sound root h') : Caching root h' m' :=
  ⟨hsound, hfills.oneWay hm.oneWay, hfills.isSome.trans hm.isSome⟩

/-- What a merge does to pairs: it keeps those that are settled, and settles its own, unless its
operands are different nodes of the same structure. -/
structure Settles (root : RootReading) (h : History) (a b : Context) (m : MergeState)
    (result : Context × MergeState) : Prop where
  keeps : KeepsSettled root h m result.2
  settled : ((a == b) = true → a = b) → Settled root result.2.known? a b result.1

/-- The same for two rests of a stack, of which one is known. -/
structure SettlesParents (root : RootReading) (h : History) (p q : Option Context) (m : MergeState)
    (result : Option Context × MergeState) : Prop where
  keeps : KeepsSettled root h m result.2
  settled : p.isSome ∨ q.isSome → ((restOf p == restOf q) = true → restOf p = restOf q) →
    ∃ c, result.1 = some c ∧ Settled root result.2.known? (restOf p) (restOf q) c

/-- A result that is kept for a pair settles it, if it was not settled before. -/
theorem settles_remember {m' m'' : MergeState} (ha : h.Holds a) (hb : h.Holds b)
    (hm' : ∀ cache ∈ m'.cache, cache.OneWay) (hsome : m'.cache.isSome)
    (hcache : m''.cache = m'.cache) (hkeeps : KeepsSettled root h m m') (hne : ¬ (a == b) = true)
    (hwild : (a.isArray || b.isArray) = true → wildcardOf root a b = none)
    (hknown : m'.known? a b = none) (hopen : ∀ c, ¬ Settled root m'.known? a b c) (c : Context) :
    Settles root h a b m (c, m''.remember a b c) := by
  rw [← MergeState.known?_of_cache_eq hcache] at hknown hopen
  rw [← hcache] at hm' hsome
  exact ⟨fun x y d hx hy hs => ((hkeeps.trans (.refl h) (.of_cache_eq hcache)) x y d hx hy hs).remember
      hm' ha hb hopen hx hy,
    fun _ => .known hne hwild (MergeState.known?_remember_self hsome hknown c)⟩

/-- A pair without a known result is settled at most by one of its operands. -/
theorem not_settled {known : Context → Context → Option Context} (hne : ¬ (a == b) = true)
    (hwild : (a.isArray || b.isArray) = true → wildcardOf root a b = none)
    (hknown : known a b = none)
    (hoperand : ¬ (a.isArray || b.isArray) = true → rootEntries root a b = none →
      a.top.returnState = b.top.returnState →
      ∀ p, Settled root known (restOf a.top.parent) (restOf b.top.parent) p →
        a.top.parent ≠ some p ∧ b.top.parent ≠ some p) (c : Context) :
    ¬ Settled root known a b c := by
  intro hs
  cases hs with
  | same => exact hne (beq_self a)
  | wildcard _ harray hc =>
    rw [hwild harray] at hc
    cases hc
  | known _ _ hc =>
    rw [hknown] at hc
    cases hc
  | operand _ harray _ hroot hreturn hparents hc hp =>
    obtain ⟨ha, hb⟩ := hoperand harray hroot hreturn _ hparents
    rcases hc with rfl | rfl
    · exact ha hp
    · exact hb hp

/-! ## Merges -/

open MergeState (FillsUpTo)

/-- A merge of two contexts of one entry each with the same return state, once their parents are
merged. -/
theorem settles_sameTop {h' : History} {m' : MergeState} {w : Nat} {p : Option Context}
    (ha : h.Holds a) (hb : h.Holds b) (hne : ¬ (a == b) = true)
    (harray : ¬ (a.isArray || b.isArray) = true) (hroot : rootEntries root a b = none)
    (hreturn : a.top.returnState = b.top.returnState) (hm : Caching root h m)
    (hknown : m.known? a b = none) (hfills : FillsUpTo h w m m') (hw : w < a.weight + b.weight)
    (hext : h.Extends h') (hp : h'.HoldsParent p)
    (hparents : SettlesParents root h a.top.parent b.top.parent m (p, m')) :
    Settles root h a b m (ofParent a b p m') := by
  obtain ⟨hdifferent, hsame⟩ := restOf_top_of_ne ha hb hne harray hroot hreturn
  obtain ⟨c, hc, hsettled⟩ := hparents.settled (isSome_or_of_ne hdifferent) hsame
  obtain rfl : p = some c := hc
  have hstill := hfills.known?_eq_none hw ha hb hknown
  have haheld := ha.mono hext
  have hbheld := hb.mono hext
  rw [ofParent]
  split
  next hown =>
    have hparent := hp.eq_of_sameParent haheld.top hown
    exact ⟨hparents.keeps, fun _ => .operand hne harray hstill hroot hreturn hsettled (Or.inl rfl)
      hparent.symm⟩
  next hown =>
    split
    next hother =>
      have hparent := hp.eq_of_sameParent hbheld.top hother
      exact ⟨hparents.keeps, fun _ => .operand hne harray hstill hroot hreturn hsettled (Or.inr rfl)
        hparent.symm⟩
    next hother =>
      have hself := sameParent_self (some c)
      -- The merged parent is that of neither operand, so the pair is not settled yet.
      have hopen (d : Context) : ¬ Settled root m'.known? a b d := by
        refine not_settled hne (fun h => (harray h).elim) hstill (fun _ _ _ q hq => ?_) d
        obtain rfl := hsettled.unique hq (holds_restOf haheld.top) (holds_restOf hbheld.top)
        exact ⟨fun h => hown (h ▸ hself), fun h => hother (h ▸ hself)⟩
      exact settles_remember ha hb (hfills.oneWay hm.oneWay) (hfills.isSome.trans hm.isSome)
        (cache_make _ m') hparents.keeps hne (fun h => (harray h).elim) hstill hopen _

/-- A node that is made without merges within and kept for a pair settles it. -/
theorem settles_remember_make (ha : h.Holds a) (hb : h.Holds b) (hm : Caching root h m)
    (hne : ¬ (a == b) = true) (harray : ¬ (a.isArray || b.isArray) = true)
    (hknown : m.known? a b = none)
    (hoperand : rootEntries root a b = none → a.top.returnState ≠ b.top.returnState)
    (es : List (Entry Context)) : Settles root h a b m (remembered a b (m.make es)) := by
  have hnone : (a.isArray || b.isArray) = true → wildcardOf root a b = none := fun h =>
    (harray h).elim
  exact settles_remember ha hb hm.oneWay hm.isSome (cache_make es m) (.refl root h m) hne hnone
    hknown (not_settled hne hnone hknown fun _ hroot hreturn =>
      (hoperand hroot hreturn).elim) _

/-- Every branch of a merge with a cache settles its pair and keeps those that are settled, if the
merges within do. -/
theorem mergeRule_settles : MergeRule root
    (fun a b m result => ∀ h : History, h.Holds a → h.Holds b → Caching root h m →
      Settles root h a b m result)
    (fun p q m result => ∀ h : History, h.HoldsParent p → h.HoldsParent q → Caching root h m →
      SettlesParents root h p q m result)
    (fun es fs m result => ∀ h : History, h.HoldsEntries es → h.HoldsEntries fs → Caching root h m →
      KeepsSettled root h m result.2) where
  same heq h _ _ _ := ⟨.refl root h _, fun hsame => hsame heq ▸ .same _⟩
  wildcard hne harray hwild h _ _ _ := ⟨.refl root h _, fun _ => .wildcard hne harray hwild⟩
  known hne hwild hknown h _ _ _ := ⟨.refl root h _, fun _ => .known hne hwild hknown⟩
  arrays {a b m} hne harray hwild hknown hentries h ha hb hm := by
    have hfills := fillsUpTo_mergeEntries root ha.entries hb.entries m
    -- Merging the entries keeps results of lighter pairs only, so this pair has none yet.
    have hstill := hfills.known?_eq_none (entriesWeight_add_lt a b) ha hb hknown
    exact settles_remember ha hb (hfills.oneWay hm.oneWay) (hfills.isSome.trans hm.isSome)
      (cache_ofMerged a b _ _) (hentries h ha.entries hb.entries hm) hne (fun _ => hwild) hstill
      (not_settled hne (fun _ => hwild) hstill fun hsingle => (hsingle harray).elim) _
  roots hne harray hknown hroot h ha hb hm := by
    refine settles_remember_make ha hb hm hne harray hknown (fun hnone => ?_) _
    rw [hroot] at hnone
    cases hnone
  sameTop {a b m} hne harray hknown hroot hreturn hparents h ha hb hm := by
    obtain ⟨h', hext, -, hp, -⟩ := mergedParents_mergeParents ha.top hb.top hm.toSound
    exact settles_sameTop ha hb hne harray hroot hreturn hm hknown
      (fillsUpTo_mergeParents root ha.top hb.top m) (parentWeight_top_add_lt a b) hext hp
      (hparents h ha.top hb.top hm)
  twoTops hne harray hknown _ hreturn h ha hb hm :=
    settles_remember_make ha hb hm hne harray hknown (fun _ hsame => (hreturn hsame).elim) _
  unknownParents h _ _ _ := ⟨.refl root h _, fun hsome => by simp at hsome⟩
  parents _ hrests h hp hq hm := by
    have hsettles := hrests h (holds_restOf hp) (holds_restOf hq) hm
    exact ⟨hsettles.keeps, fun _ hsame => ⟨_, rfl, hsettles.settled hsame⟩⟩
  nilLeft h _ _ _ := .refl root h _
  nilRight h _ _ _ := .refl root h _
  left _ hrest h hes hfs hm := hrest h (List.forall_mem_cons.mp hes).2 hfs hm
  right _ hrest h hes hfs hm := hrest h hes (List.forall_mem_cons.mp hfs).2 hm
  keptParent _ _ hrest h hes hfs hm :=
    hrest h (List.forall_mem_cons.mp hes).2 (List.forall_mem_cons.mp hfs).2 hm
  mergedParents {e f es fs m m'} _ _ hm' hparents hrest h hes hfs hm := by
    subst hm'
    obtain ⟨he, hes'⟩ := List.forall_mem_cons.mp hes
    obtain ⟨hf, hfs'⟩ := List.forall_mem_cons.mp hfs
    obtain ⟨h', hext, hm', -, -⟩ := mergedParents_mergeParents he hf hm.toSound
    -- The entries behind are merged with the cache that merging the parents has filled.
    have hcaching := hm.of_fillsUpTo (fillsUpTo_mergeParents root he hf m) hm'
    exact (hparents h he hf hm).keeps.trans hext (hrest h' (History.HoldsEntries.mono hes' hext)
      (History.HoldsEntries.mono hfs' hext) hcaching)

/-- A merge with a cache settles its pair and keeps those that are settled. -/
theorem settles_merge {h : History} {m : MergeState} {a b : Context} (ha : h.Holds a)
    (hb : h.Holds b) (hm : Caching root h m) : Settles root h a b m (merge root a b m) :=
  mergeRule_settles.of_merge a b m h ha hb hm

end Context

end TransitionNetwork
