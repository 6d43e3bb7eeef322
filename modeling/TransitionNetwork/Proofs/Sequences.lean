import Mathlib.Data.List.Forall2

/-!
# Steps in sequence and lists in relation

Facts about lists that are not about networks. Steps that may fail, with an error or without one,
are done one after the other: two of them, one for each entry of a list, or in a loop that goes on
with what it has found so far. Two lists are related if their entries are, place by place.
-/

namespace TransitionNetwork

variable {α β ε : Type}

/-! ## Results -/

/-- Two steps succeed together if the first one does and the second one after it. -/
theorem bind_eq_ok {first : Except ε α} {second : α → Except ε β} {b : β} :
    first >>= second = .ok b ↔ ∃ a, first = .ok a ∧ second a = .ok b := by
  cases first with
  | error e => exact ⟨fun h => (by cases h), fun ⟨_, h, _⟩ => (by cases h)⟩
  | ok a => exact ⟨fun h => ⟨a, rfl, h⟩, fun ⟨_, h, h'⟩ => (by cases h; exact h')⟩

/-- A result that is there if errors are forgotten is there if they are not. -/
theorem eq_ok_of_toOption {result : Except ε α} {a : α} (h : result.toOption = some a) :
    result = .ok a := by
  cases result with
  | error e => cases h
  | ok b => exact congrArg Except.ok (Option.some.inj h)

/-! ## Related entries -/

section

variable {related : α → β → Prop} {items : List α} {items' : List β}

/-- What is related to something that is there is there. -/
theorem exists_of_rel_some {a : α} {found : Option β} (h : Option.Rel related (some a) found) :
    ∃ b, found = some b ∧ related a b := by
  cases h with
  | some h => exact ⟨_, rfl, h⟩

/-- The same in the other direction. -/
theorem exists_of_rel_of_some {found : Option α} {b : β} (h : Option.Rel related found (some b)) :
    ∃ a, found = some a ∧ related a b := by
  cases h with
  | some h => exact ⟨_, rfl, h⟩

/-- A list is related to what a map of places and entries makes of it, if every entry is. -/
theorem forall₂_mapIdx {f : Nat → α → β} (h : ∀ i a, related a (f i a)) :
    List.Forall₂ related items (items.mapIdx f) := by
  induction items generalizing f with
  | nil => exact List.Forall₂.nil
  | cons a rest ih =>
    rw [List.mapIdx_cons]
    exact List.Forall₂.cons (h 0 a) (ih fun i => h (i + 1))

/-- Every entry of the second of two related lists is related to one of the first. -/
theorem exists_of_mem_forall₂ (h : List.Forall₂ related items items') {b : β} (hb : b ∈ items') :
    ∃ a ∈ items, related a b := by
  induction h with
  | nil => cases hb
  | cons hhead _ ih =>
    rcases List.mem_cons.mp hb with rfl | hb
    · exact ⟨_, List.mem_cons_self, hhead⟩
    · obtain ⟨a, ha, hrelated⟩ := ih hb
      exact ⟨a, List.mem_cons_of_mem _ ha, hrelated⟩

/-- At every place of two related lists there are related entries, or none. -/
theorem rel_getElem?_of_forall₂ (h : List.Forall₂ related items items') (i : Nat) :
    Option.Rel related items[i]? items'[i]? := by
  induction h generalizing i with
  | nil => exact Option.Rel.none
  | cons hhead _ ih =>
    cases i with
    | zero => exact Option.Rel.some hhead
    | succ i => exact ih i

/-- The first entry of the second of two related lists is related to that of the first. -/
theorem exists_head?_of_forall₂ (h : List.Forall₂ related items items') {b : β}
    (hb : b ∈ items'.head?) : ∃ a ∈ items.head?, related a b := by
  rw [List.head?_eq_getElem?, Option.mem_def] at hb
  rw [List.head?_eq_getElem?]
  exact exists_of_rel_of_some (hb ▸ rel_getElem?_of_forall₂ h 0)

end

/-! ## A step for each entry -/

/-- If all steps succeed on the entries of a list, so does the list of them, with all their results.
`List.mapM_pure` is about steps that succeed everywhere. -/
theorem mapM_eq_pure {m : Type → Type} [Monad m] [LawfulMonad m] {f : α → m β} {g : α → β}
    {items : List α} (h : ∀ a ∈ items, f a = pure (g a)) :
    items.mapM f = pure (items.map g) := by
  induction items with
  | nil => rw [List.mapM_nil, List.map_nil]
  | cons a rest ih =>
    obtain ⟨ha, hrest⟩ := List.forall_mem_cons.mp h
    rw [List.mapM_cons, ha, ih hrest, pure_bind, pure_bind, List.map_cons]

section

variable {f : α → Except ε β} {items : List α} {results : List β}

/-- If all steps succeed, so does the list of them. -/
theorem exists_mapM_eq_ok (h : ∀ a ∈ items, ∃ b, f a = .ok b) :
    ∃ results, items.mapM f = .ok results := by
  induction items with
  | nil => exact ⟨[], rfl⟩
  | cons a rest ih =>
    obtain ⟨⟨b, hb⟩, hrest⟩ := List.forall_mem_cons.mp h
    obtain ⟨others, hothers⟩ := ih hrest
    rw [List.mapM_cons, hb, hothers]
    exact ⟨b :: others, rfl⟩

/-- A list of steps that succeeds gives the result of each of them at its place. -/
theorem forall₂_of_mapM_eq_ok (h : items.mapM f = .ok results) :
    List.Forall₂ (fun a b => f a = .ok b) items results := by
  induction items generalizing results with
  | nil =>
    rw [List.mapM_nil] at h
    cases h
    exact .nil
  | cons a rest ih =>
    rw [List.mapM_cons] at h
    obtain ⟨first, ha, h⟩ := bind_eq_ok.mp h
    obtain ⟨others, hrest, h⟩ := bind_eq_ok.mp h
    cases h
    exact .cons ha (ih hrest)

/-- Each result of a list of steps that all succeed is the result of one of the steps. -/
theorem exists_of_mem_mapM_ok (h : items.mapM f = .ok results) {b : β} (hb : b ∈ results) :
    ∃ a ∈ items, f a = .ok b :=
  exists_of_mem_forall₂ (forall₂_of_mapM_eq_ok h) hb

/-- In a list of steps that all succeed, each step has a result in the list of results. -/
theorem exists_of_mem_of_mapM_ok (h : items.mapM f = .ok results) {a : α} (ha : a ∈ items) :
    ∃ b ∈ results, f a = .ok b :=
  exists_of_mem_forall₂ (List.Forall₂.flip (forall₂_of_mapM_eq_ok h)) ha

/-- A list of checks succeeds exactly if every check does. -/
theorem forM_eq_ok {check : α → Except ε Unit} :
    items.forM check = .ok () ↔ ∀ a ∈ items, check a = .ok () := by
  rw [List.forM_eq_forM]
  induction items with
  | nil => simp [pure, Except.pure]
  | cons a rest ih =>
    rw [List.forM_cons, bind_eq_ok, List.forall_mem_cons, ← ih]
    exact ⟨fun ⟨_, ha, hrest⟩ => ⟨ha, hrest⟩, fun ⟨ha, hrest⟩ => ⟨(), ha, hrest⟩⟩

/-- A list of checks fails only if a check does. -/
theorem exists_of_forM_eq_error {check : α → Except ε Unit} {e : ε}
    (h : items.forM check = .error e) : ∃ a ∈ items, check a = .error e := by
  rw [List.forM_eq_forM] at h
  induction items with
  | nil => cases h
  | cons a rest ih =>
    rw [List.forM_cons] at h
    cases ha : check a with
    | error found =>
      rw [ha] at h
      cases h
      exact ⟨a, List.mem_cons_self, ha⟩
    | ok =>
      rw [ha] at h
      obtain ⟨b, hb, hfound⟩ := ih h
      exact ⟨b, List.mem_cons_of_mem a hb, hfound⟩

end

/-! ## Loops -/

/-- A loop over a list ends with the step for the last entry. -/
theorem foldlM_concat {m : Type → Type} [Monad m] [LawfulMonad m] (step : β → α → m β) (b : β)
    (items : List α) (a : α) :
    (items ++ [a]).foldlM step b = items.foldlM step b >>= (step · a) := by
  simp only [List.foldlM_append, List.foldlM_cons, List.foldlM_nil, bind_pure]

/-- A loop over results that were all found before is the loop that finds each when it uses it. -/
theorem mapM_foldl_eq_foldlM {σ : Type} (f : α → Except ε β) (g : σ → β → σ) (items : List α)
    (s : σ) :
    (do return (← items.mapM f).foldl g s) = items.foldlM (fun s a => do return g s (← f a)) s := by
  induction items generalizing s with
  | nil => rfl
  | cons a rest ih =>
    rw [List.mapM_cons, List.foldlM_cons]
    cases f a with
    | error e => rfl
    | ok b =>
      have hrest := ih (g s b)
      cases hmap : rest.mapM f with
      | error e =>
        rw [hmap] at hrest
        exact hrest
      | ok bs =>
        rw [hmap] at hrest
        exact hrest

/-- A loop over numbers fails in the turn of one of them. -/
theorem exists_turn_of_foldlM_eq_error {step : α → Nat → Except ε α} {start : α} {count : Nat}
    {e : ε} (h : (List.range count).foldlM step start = .error e) :
    ∃ i < count, ∃ before, (List.range i).foldlM step start = .ok before ∧
      step before i = .error e := by
  induction count with
  | zero => cases h
  | succ count ih =>
    rw [List.range_succ, foldlM_concat] at h
    cases hbefore : (List.range count).foldlM step start with
    | error found =>
      rw [hbefore] at h
      cases h
      obtain ⟨i, hi, before, hturn⟩ := ih hbefore
      exact ⟨i, Nat.lt_succ_of_lt hi, before, hturn⟩
    | ok before =>
      rw [hbefore] at h
      exact ⟨count, Nat.lt_succ_self count, before, hbefore, h⟩

section

variable {items : List α} {step step' : β → α → Option β} {b b' : β}

/-- A loop has a result if every step has one that it has in another loop. -/
theorem foldlM_eq_some_of_imp (hstep : ∀ b a b', step b a = some b' → step' b a = some b')
    (h : items.foldlM step b = some b') : items.foldlM step' b = some b' := by
  induction items generalizing b with
  | nil => exact h
  | cons a rest ih =>
    rw [List.foldlM_cons, Option.bind_eq_bind, Option.bind_eq_some_iff] at h
    obtain ⟨next, hnext, hrest⟩ := h
    rw [List.foldlM_cons, hstep b a next hnext]
    exact ih hrest

/-- A loop has gone one item further after one more step. -/
theorem foldlM_take_succ {i : Nat} {a : α} (ha : items[i]? = some a) :
    (items.take (i + 1)).foldlM step b = (items.take i).foldlM step b >>= (step · a) := by
  rw [List.take_add_one, ha]
  exact foldlM_concat step b _ a

/-- What holds before a loop and is kept by every step of it holds after it. -/
theorem holds_of_foldlM {P : β → Prop} (hstart : P b)
    (hstep : ∀ (i : Nat) (a : α) (v v' : β), items[i]? = some a →
      (items.take i).foldlM step b = some v → P v → step v a = some v' → P v')
    (h : items.foldlM step b = some b') : P b' := by
  suffices hprefix : ∀ (n : Nat) (v : β), (items.take n).foldlM step b = some v → P v from
    hprefix items.length b' (List.take_length ▸ h)
  intro n
  induction n with
  | zero =>
    rintro v ⟨⟩
    exact hstart
  | succ n ih =>
    intro v hv
    cases ha : items[n]? with
    | none =>
      rw [List.take_add_one, ha, Option.toList_none, List.append_nil] at hv
      exact ih v hv
    | some a =>
      rw [foldlM_take_succ ha, Option.bind_eq_bind, Option.bind_eq_some_iff] at hv
      obtain ⟨before, hbefore, hv⟩ := hv
      exact hstep n a before v ha hbefore (ih before hbefore) hv

/-- What is kept by the step for every entry, wherever it stands, is kept by the loop. -/
theorem foldlM_keeps {P : β → Prop}
    (hstep : ∀ a ∈ items, ∀ b b', P b → step b a = some b' → P b') (hstart : P b)
    (h : items.foldlM step b = some b') : P b' :=
  holds_of_foldlM hstart (fun _ a v v' ha _ hv => hstep a (List.mem_of_getElem? ha) v v' hv) h

end

/-! ## Single operations on lists -/

/-- Filling up a list with an entry more changes nothing at its end. -/
theorem leftpad_concat (width : Nat) (a b : α) (items : List α) :
    (items ++ [b]).leftpad (width + 1) a = items.leftpad width a ++ [b] := by
  simp [List.leftpad]

/-- Filtering out what separates the parts of a list leaves what it leaves of the parts. -/
theorem filter_intercalate {p : α → Bool} {separator : List α} (h : separator.filter p = [])
    (parts : List (List α)) :
    (separator.intercalate parts).filter p = parts.flatten.filter p := by
  induction parts with
  | nil => rfl
  | cons part parts ih =>
    cases parts with
    | nil => simp
    | cons next parts =>
      rw [List.intercalate_cons_cons, List.filter_append, List.filter_append, h, List.append_nil,
        ih, List.flatten_cons (l := part), List.filter_append]

/-- Leaving out what occurs again makes a list no longer. -/
theorem length_eraseDups_le [BEq α] (items : List α) : items.eraseDups.length ≤ items.length :=
  match items with
  | [] => Nat.zero_le _
  | a :: rest => by
    have hle : (rest.filter fun b => !b == a).length ≤ rest.length := List.length_filter_le _ _
    rw [List.eraseDups_cons, List.length_cons]
    exact Nat.succ_le_succ (Nat.le_trans (length_eraseDups_le _) hle)
termination_by items.length
decreasing_by exact Nat.lt_succ_of_le hle

end TransitionNetwork
