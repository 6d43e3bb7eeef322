import TransitionNetwork.Proofs.Network.References
import TransitionNetwork.Proofs.Network.Language

/-!
# Paths over pending calls

What lies below the pending calls of a place plays no part until they have all returned. A path that
consumes nothing either stays above it, or comes to the end of a rule with nothing of its own
pending and goes on from where the call below continues. So a place offers the tokens that it offers
with nothing pending, and if it can come to the end of its rule, then also those of the place below.
-/

namespace TransitionNetwork

/-- The place with more calls pending below its own. -/
def Place.over (place : Place) (below : List StateId) : Place :=
  ⟨place.state, place.pending ++ below⟩

/-- A transition leads to the same place with more calls pending below. -/
theorem Transition.Leads.over {greatest : TokenType} {t : Transition} {pending : List StateId}
    {label : Option TokenType} {place : Place} (h : t.Leads greatest pending label place)
    (below : List StateId) : t.Leads greatest (pending ++ below) label (place.over below) := by
  cases h with
  | call hfollow => exact .call hfollow
  | pass hepsilon hnone => exact .pass hepsilon hnone
  | consume haccepts => exact .consume haccepts

/-- A transition leads above what lies below the pending calls. -/
theorem Transition.Leads.of_over {greatest : TokenType} {t : Transition}
    {pending below : List StateId} {label : Option TokenType} {place : Place}
    (h : t.Leads greatest (pending ++ below) label place) :
    ∃ above, place = above.over below ∧ t.Leads greatest pending label above := by
  cases h with
  | call hfollow => exact ⟨⟨_, _ :: pending⟩, rfl, .call hfollow⟩
  | pass hepsilon hnone => exact ⟨⟨_, pending⟩, rfl, .pass hepsilon hnone⟩
  | consume haccepts => exact ⟨⟨_, pending⟩, rfl, .consume haccepts⟩

namespace Network

variable {net : Network} {first next last : Place} {id follow : StateId}
  {pending below : List StateId} {label : Option TokenType} {token : TokenType}

/-- A place from which one comes, without consuming anything, to a transition that consumes the
token. -/
def Offers (net : Network) (place : Place) (token : TokenType) : Prop :=
  ∃ last next, net.Path place [] last ∧ net.Move last (some token) next

/-- A place from which one comes, without consuming anything, to the end of a rule with nothing
pending. -/
def Exits (net : Network) (place : Place) : Prop :=
  ∃ stop, (net.kind? stop).any StateKind.isRuleStop ∧ net.Path place [] ⟨stop, []⟩

/-! ## Paths that consume nothing -/

/-- Two paths that consume nothing form one. -/
theorem Path.silent_trans (h : net.Path first [] next) (h' : net.Path next [] last) :
    net.Path first [] last := h.trans h'

/-- A move that consumes nothing is a path that consumes nothing. -/
theorem Move.silent (h : net.Move first none next) : net.Path first [] next := h.path

/-- A path that consumes nothing consists of moves that consume nothing. -/
@[elab_as_elim]
theorem Path.silent_induct {motive : ∀ first, net.Path first [] last → Prop}
    (here : motive last (.here last))
    (move : ∀ first next (hmove : net.Move first none next) (hrest : net.Path next [] last),
      motive next hrest → motive first (hmove.silent.silent_trans hrest))
    (h : net.Path first [] last) : motive first h := by
  suffices hall : ∀ word, net.Path first word last → word = [] → ∀ h, motive first h from
    hall [] h rfl h
  intro word hpath
  induction hpath with
  | here => exact fun _ _ => here
  | @move first next last label word hmove hrest ih =>
    intro hword _
    obtain ⟨hlabel, rfl⟩ := List.append_eq_nil_iff.mp hword
    obtain rfl := Option.toList_eq_nil_iff.mp hlabel
    exact move first next hmove hrest (ih here move hrest rfl hrest)

/-! ## Lifting -/

/-- A move is possible with more calls pending below. -/
theorem Move.over (h : net.Move first label next) (below : List StateId) :
    net.Move (first.over below) label (next.over below) := by
  cases h with
  | back hstate hstop => exact .back hstate hstop
  | along hstate hgoes ht hleads => exact .along hstate hgoes ht (hleads.over below)

/-- A path that consumes nothing is one over more pending calls. -/
theorem Path.over (h : net.Path first [] last) (below : List StateId) :
    net.Path (first.over below) [] (last.over below) := by
  induction h using Path.silent_induct with
  | here => exact .here _
  | move first next hmove _ ih => exact (hmove.over below).silent.silent_trans ih

/-! ## Dividing -/

/-- A move over a pending call stays above it, or returns from the end of a rule to where the call
continues. -/
theorem Move.of_over (h : net.Move ⟨id, pending ++ follow :: below⟩ label next) :
    (∃ above, next = above.over (follow :: below) ∧ net.Move ⟨id, pending⟩ label above) ∨
      pending = [] ∧ (net.kind? id).any StateKind.isRuleStop ∧ label = none ∧
        next = ⟨follow, below⟩ := by
  generalize hplace : (⟨id, pending ++ follow :: below⟩ : Place) = place at h
  cases h with
  | back hstate hstop =>
    obtain ⟨rfl, hpending⟩ := Place.mk.inj hplace
    cases pending with
    | nil =>
      obtain ⟨rfl, rfl⟩ := List.cons.inj hpending
      exact Or.inr ⟨rfl, any_kind?_iff.mpr ⟨_, hstate, hstop⟩, rfl, rfl⟩
    | cons latest pending =>
      obtain ⟨rfl, rfl⟩ := List.cons.inj hpending
      exact Or.inl ⟨⟨_, pending⟩, rfl, .back hstate hstop⟩
  | along hstate hgoes ht hleads =>
    obtain ⟨rfl, rfl⟩ := Place.mk.inj hplace
    obtain ⟨above, hnext, hleads⟩ := hleads.of_over
    exact Or.inl ⟨above, hnext, .along hstate hgoes ht hleads⟩

/-- A path that consumes nothing stays above a pending call, or exits and goes on from where the
call continues. -/
theorem Path.of_over (h : net.Path (first.over (follow :: below)) [] last) :
    (∃ above, last = above.over (follow :: below) ∧ net.Path first [] above) ∨
      net.Exits first ∧ net.Path ⟨follow, below⟩ [] last := by
  generalize hplace : first.over (follow :: below) = place at h
  induction h using Path.silent_induct generalizing first with
  | here => exact Or.inl ⟨first, hplace.symm, .here first⟩
  | move place next hmove hrest ih =>
    subst hplace
    rcases hmove.of_over with ⟨above, rfl, habove⟩ | ⟨hpending, hstop, -, rfl⟩
    · rcases ih rfl with ⟨final, hlast, hpath⟩ | ⟨⟨stop, hstop, hpath⟩, hrest⟩
      · exact Or.inl ⟨final, hlast, habove.silent.silent_trans hpath⟩
      · exact Or.inr ⟨⟨stop, hstop, habove.silent.silent_trans hpath⟩, hrest⟩
    · obtain ⟨id, pending⟩ := first
      obtain rfl : pending = [] := hpending
      exact Or.inr ⟨⟨id, hstop, .here _⟩, hrest⟩

/-- From an exit one goes on to where the call below continues. -/
theorem Exits.path (h : net.Exits first) (follow : StateId) (below : List StateId) :
    net.Path (first.over (follow :: below)) [] ⟨follow, below⟩ := by
  obtain ⟨stop, hstop, hpath⟩ := h
  obtain ⟨s, hs, hisStop⟩ := any_kind?_iff.mp hstop
  have hback : net.Move ⟨stop, follow :: below⟩ none ⟨follow, below⟩ := .back hs hisStop
  exact (hpath.over (follow :: below)).silent_trans hback.silent

/-- A place over a pending call offers its own tokens, and if it exits, then those of the place
where the call continues. -/
theorem offers_over_iff : net.Offers (first.over (follow :: below)) token ↔
    net.Offers first token ∨ net.Exits first ∧ net.Offers ⟨follow, below⟩ token := by
  constructor
  · rintro ⟨last, next, hpath, hmove⟩
    rcases hpath.of_over with ⟨above, rfl, habove⟩ | ⟨hexits, hrest⟩
    · rcases hmove.of_over with ⟨next, -, hnext⟩ | ⟨-, -, hnone, -⟩
      · exact Or.inl ⟨above, next, habove, hnext⟩
      · cases hnone
    · exact Or.inr ⟨hexits, last, next, hrest, hmove⟩
  · rintro (⟨last, next, hpath, hmove⟩ | ⟨hexits, last, next, hpath, hmove⟩)
    · exact ⟨_, _, hpath.over _, hmove.over _⟩
    · exact ⟨last, next, (hexits.path follow below).silent_trans hpath, hmove⟩

/-- A place over a pending call exits if it comes to the end of its rule and the place where the
call continues exits. -/
theorem exits_over_iff : net.Exits (first.over (follow :: below)) ↔
    net.Exits first ∧ net.Exits ⟨follow, below⟩ := by
  constructor
  · rintro ⟨stop, hstop, hpath⟩
    rcases hpath.of_over with ⟨above, hlast, -⟩ | ⟨hexits, hrest⟩
    · have hnil := congrArg Place.pending hlast
      exact absurd hnil.symm (List.append_ne_nil_of_right_ne_nil _ (List.cons_ne_nil _ _))
    · exact ⟨hexits, stop, hstop, hrest⟩
  · rintro ⟨hexits, stop, hstop, hpath⟩
    exact ⟨stop, hstop, (hexits.path follow below).silent_trans hpath⟩

end Network

end TransitionNetwork
