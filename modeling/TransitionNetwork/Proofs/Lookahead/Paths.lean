import TransitionNetwork.Proofs.Lookahead.Exactness
import TransitionNetwork.Proofs.Network.PendingCalls

/-!
# Lookahead along paths

A lookahead under a stack of calls follows the paths of the network: configurations mirror places,
the pending calls being what the context holds above its bottom. The bottom is no context, for the
end of the rule alone, or the empty stack, for the end of the input, and only the token of the end
depends on it. So a lookahead that passes over no call holds the tokens that its place offers, and
the token of the end if the place exits.
-/

namespace TransitionNetwork

namespace Lookahead

/-- The token that a lookahead holds if nothing is left of the stack above the bottom. -/
def endToken : Option Context → TokenType
  | none => Token.epsilon
  | some _ => Token.eof

/-- The state of the place, with its pending calls above the bottom of the context. -/
def Mirrors (bottom : Option Context) (k : Configuration) (place : Place) : Prop :=
  k.position = (place.state, stacked place.pending bottom)

variable {net : Network} {bottom context : Option Context} {k k' : Configuration}
  {place place' : Place} {id : StateId} {s : State} {t : Transition} {pending : List StateId}
  {token : TokenType}

/-! ## Contexts of call stacks -/

/-- A context with the structure of one pushed state has one entry. -/
theorem exists_entry_of_skeleton {c : Context} {parent : Option Context} {r : Int}
    (h : c.skeleton = .node 0 0 ⟨parent, r⟩ []) :
    c.isEmpty = false ∧
      ∃ e, c.entries = [e] ∧ e.returnState = r ∧ e.parent.map Context.skeleton = parent := by
  refine ⟨by rw [← Context.isEmpty_skeleton, h, Context.isEmpty_node], ?_⟩
  have hentries := c.entries_skeleton
  rw [h] at hentries
  obtain ⟨e, rest, hrest, he, hnil⟩ := List.map_eq_cons_iff.mp hentries.symm
  rw [List.map_eq_nil_iff.mp hnil] at hrest
  rw [Context.entrySkeleton_eq, Entry.mk.injEq] at he
  exact ⟨e, hrest, he.2, he.1⟩

/-- Without pending calls the context is the bottom. -/
theorem eq_bottom_of_stacked (hbottom : ∀ c ∈ bottom, c = .empty)
    (h : context.map Context.skeleton = stacked [] bottom) : context = bottom := by
  rw [stacked] at h
  cases bottom with
  | none => exact Option.map_eq_none_iff.mp h
  | some c =>
    obtain rfl := hbottom c rfl
    obtain ⟨c, rfl, hc⟩ := Option.map_eq_some_iff.mp h
    rw [Context.isEmpty_iff.mp (c.isEmpty_skeleton.symm.trans (congrArg Context.isEmpty hc))]

/-- With a pending call the context has its state on top. -/
theorem exists_entry_of_stacked {follow : StateId}
    (h : context.map Context.skeleton = stacked (follow :: pending) bottom) :
    ∃ c e, context = some c ∧ c.isEmpty = false ∧ c.entries = [e] ∧ e.returnState = follow ∧
      e.parent.map Context.skeleton = stacked pending bottom := by
  rw [stacked] at h
  obtain ⟨c, rfl, hc⟩ := Option.map_eq_some_iff.mp h
  obtain ⟨hempty, e, he, hreturn, hparent⟩ := exists_entry_of_skeleton hc
  exact ⟨c, e, rfl, hempty, he, hreturn, hparent⟩

/-- A return through a context leaves the place of the latest pending call. -/
theorem mirrors_of_mem_entries {c : Context} {e : Entry Context} {follow : StateId}
    (hcontext : (some c).map Context.skeleton = stacked (follow :: pending) bottom)
    (he : e ∈ c.entries) : Mirrors bottom ⟨e.returnState.toNat, e.parent⟩ ⟨follow, pending⟩ := by
  obtain ⟨_, f, ⟨⟩, -, hentries, hfollow, hparent⟩ := exists_entry_of_stacked hcontext
  obtain rfl : e = f := List.mem_singleton.mp (hentries ▸ he)
  rw [Mirrors, Configuration.position, hfollow, hparent, Int.toNat_natCast]

/-- A call leaves one more state pending. -/
theorem mirrors_singleton [NodeDigest]
    (hcontext : context.map Context.skeleton = stacked pending bottom) (id follow : StateId)
    (next : NodeId) :
    Mirrors bottom ⟨id, some (Context.singleton ⟨context, (follow : Int)⟩ next).1⟩
      ⟨id, follow :: pending⟩ := by
  refine congrArg (Prod.mk id) ?_
  rw [Option.map_some, Context.skeleton_singleton, hcontext, stacked]

/-! ## Going on -/

/-- A lookahead without a stop state goes on wherever no rule ends. -/
theorem goesOn_lookOptions_iff :
    GoesOn (lookOptions none) id s context ↔ s.kind.isRuleStop = false := by
  constructor
  · rintro ⟨hends, hreturns⟩
    by_contra hstop
    rw [Bool.not_eq_false] at hstop
    cases context with
    | none => exact hends Token.epsilon ⟨Or.inl hstop, Or.inl ⟨rfl, rfl⟩⟩
    | some c =>
      cases hempty : c.isEmpty with
      | true => exact hends Token.eof ⟨Or.inl hstop, Or.inr ⟨c, rfl, hempty, rfl, rfl⟩⟩
      | false => exact hreturns c ⟨hstop, rfl, hempty⟩
  · intro hgoes
    refine ⟨fun token hends => ?_, fun c hreturns => ?_⟩
    · rcases hends.1 with hstop | hstop
      · rw [hgoes] at hstop
        cases hstop
      · cases hstop
    · have hstop := hreturns.1
      rw [hgoes] at hstop
      cases hstop

/-- A lookahead follows the transitions that consume nothing and call no rule. -/
theorem moves_lookOptions_iff :
    moves (lookOptions none) t.kind ↔ t.isEpsilon ∧ t.follow? = none := by
  obtain ⟨target, kind⟩ := t
  cases kind <;> simp [moves, lookOptions, Transition.isEpsilon, TransitionKind.isEpsilon,
    Transition.follow?]

/-- A transition contributes what it accepts. -/
theorem edgeContributes_lookOptions_iff : EdgeContributes net (lookOptions none) t token ↔
    t.accepts token Token.firstUser net.maxTokenType := by
  refine or_iff_left fun hblocks => ?_
  obtain ⟨target, kind⟩ := t
  cases kind <;> simp [blocks, lookOptions] at hblocks

/-! ## Contributing -/

/-- At the end of a rule with nothing pending a configuration contributes the token of the end. -/
theorem contributes_endToken (hbottom : ∀ c ∈ bottom, c = .empty) (hstate : net.state? id = some s)
    (hstop : s.kind.isRuleStop) :
    Contributes net (lookOptions none) ⟨id, bottom⟩ (endToken bottom) := by
  cases bottom with
  | none => exact .ends hstate ⟨Or.inl hstop, Or.inl ⟨rfl, rfl⟩⟩
  | some c =>
    obtain rfl := hbottom c rfl
    exact .ends hstate ⟨Or.inl hstop, Or.inr ⟨.empty, rfl, rfl, rfl, rfl⟩⟩

/-- A lookahead ends where nothing is left of the stack above the bottom. -/
theorem eq_endToken_of_endsWith (hbottom : ∀ c ∈ bottom, c = .empty)
    (hcontext : context.map Context.skeleton = stacked pending bottom)
    (hends : EndsWith (lookOptions none) id s context token) :
    s.kind.isRuleStop ∧ pending = [] ∧ token = endToken bottom := by
  obtain ⟨hstop | hstop, hends⟩ := hends
  · cases pending with
    | nil =>
      obtain rfl := eq_bottom_of_stacked hbottom hcontext
      obtain ⟨rfl, rfl⟩ | ⟨c, rfl, -, -, rfl⟩ := hends
      · exact ⟨hstop, rfl, rfl⟩
      · exact ⟨hstop, rfl, rfl⟩
    | cons follow below =>
      obtain ⟨c, e, rfl, hnonempty, -⟩ := exists_entry_of_stacked hcontext
      obtain ⟨hnone, -⟩ | ⟨c', hc', hempty, -⟩ := hends
      · cases hnone
      · cases hc'
        rw [hnonempty] at hempty
        cases hempty
  · cases hstop

/-- A configuration contributes what is consumed from the place, and at the end of a rule with
nothing pending the token of the end. -/
theorem Mirrors.contributes_iff (hbottom : ∀ c ∈ bottom, c = .empty) (h : Mirrors bottom k place) :
    Contributes net (lookOptions none) k token ↔
      (∃ next, net.Move place (some token) next) ∨
        token = endToken bottom ∧ place.pending = [] ∧
          (net.kind? place.state).any StateKind.isRuleStop := by
  obtain ⟨id, context⟩ := k
  obtain ⟨state, pending⟩ := place
  obtain ⟨rfl, hcontext⟩ := Prod.mk.inj h
  constructor
  · intro hcontributes
    cases hcontributes with
    | ends hstate hends =>
      obtain ⟨hstop, hnone, htoken⟩ := eq_endToken_of_endsWith hbottom hcontext hends
      exact Or.inr ⟨htoken, hnone, Network.any_kind?_iff.mpr ⟨_, hstate, hstop⟩⟩
    | bottom hstate hreturns he hreturn =>
      obtain ⟨-, rfl, hnonempty⟩ := hreturns
      cases pending with
      | nil =>
        obtain rfl := hbottom _ (eq_bottom_of_stacked hbottom hcontext).symm
        cases hnonempty
      | cons follow below =>
        -- A pushed state is never the return state of the empty stack.
        obtain ⟨_, f, ⟨⟩, -, hentries, hfollow, -⟩ := exists_entry_of_stacked hcontext
        rw [hentries, List.mem_singleton] at he
        rw [he, hfollow] at hreturn
        cases hreturn
    | edge hstate hgoes ht htoken =>
      exact Or.inl ⟨_, .along hstate (goesOn_lookOptions_iff.mp hgoes) ht
        (.consume (edgeContributes_lookOptions_iff.mp htoken))⟩
  · rintro (⟨next, hmove⟩ | ⟨rfl, hnone, hstop⟩)
    · cases hmove with
      | along hstate hgoes ht hleads =>
        cases hleads with
        | consume haccepts =>
          exact .edge hstate (goesOn_lookOptions_iff.mpr hgoes) ht
            (edgeContributes_lookOptions_iff.mpr haccepts)
    · obtain rfl : pending = [] := hnone
      obtain rfl := eq_bottom_of_stacked hbottom hcontext
      obtain ⟨s, hs, hisStop⟩ := Network.any_kind?_iff.mp hstop
      exact contributes_endToken hbottom hs hisStop

/-! ## Leading on -/

variable [NodeDigest]

/-- Where a transition leads without consuming anything mirrors where it leads from the place. -/
theorem exists_leads_of_edgeLeads {greatest : TokenType}
    (hcontext : context.map Context.skeleton = stacked pending bottom)
    (h : EdgeLeads (lookOptions none) context t k) :
    ∃ place, t.Leads greatest pending none place ∧ Mirrors bottom k place := by
  cases h with
  | move hmoves =>
    obtain ⟨hepsilon, hnone⟩ := moves_lookOptions_iff.mp hmoves
    exact ⟨_, .pass hepsilon hnone, congrArg (Prod.mk t.target) hcontext⟩
  | @call rule level follow next hkind =>
    exact ⟨_, .call (by rw [Transition.follow?, hkind]), mirrors_singleton hcontext _ _ _⟩

/-- Where a transition leads from the place is mirrored by where it leads in a lookahead. -/
theorem exists_edgeLeads_of_leads {greatest : TokenType}
    (hcontext : context.map Context.skeleton = stacked pending bottom)
    (h : t.Leads greatest pending none place) :
    ∃ k, EdgeLeads (lookOptions none) context t k ∧ Mirrors bottom k place := by
  cases h with
  | pass hepsilon hnone =>
    exact ⟨_, .move (moves_lookOptions_iff.mpr ⟨hepsilon, hnone⟩),
      congrArg (Prod.mk t.target) hcontext⟩
  | @call follow hfollow =>
    obtain ⟨rule, level, hkind⟩ := Transition.exists_kind_of_follow? hfollow
    exact ⟨_, .call 0 hkind, mirrors_singleton hcontext _ _ _⟩

/-- Where a configuration leads mirrors where one moves from the place. -/
theorem Mirrors.exists_move (hbottom : ∀ c ∈ bottom, c = .empty) (h : Mirrors bottom k place)
    (hleads : Leads net (lookOptions none) k k') :
    ∃ place', net.Move place none place' ∧ Mirrors bottom k' place' := by
  obtain ⟨id, pending⟩ := place
  obtain ⟨rfl, hcontext⟩ := Prod.mk.inj h
  cases hleads with
  | @back id context s c e hstate hreturns he hreturn =>
    obtain ⟨hstop, rfl, hnonempty⟩ := hreturns
    cases pending with
    | nil =>
      obtain rfl := hbottom c (eq_bottom_of_stacked hbottom hcontext).symm
      cases hnonempty
    | cons follow below => exact ⟨_, .back hstate hstop, mirrors_of_mem_entries hcontext he⟩
  | edge hstate hgoes ht hedge =>
    obtain ⟨place', hplace, hmirrors⟩ := exists_leads_of_edgeLeads hcontext hedge
    exact ⟨place', .along hstate (goesOn_lookOptions_iff.mp hgoes) ht hplace, hmirrors⟩

/-- Where one moves from a place is mirrored by where the configuration leads. -/
theorem Mirrors.exists_leads (h : Mirrors bottom k place) (hmove : net.Move place none place') :
    ∃ k', Leads net (lookOptions none) k k' ∧ Mirrors bottom k' place' := by
  obtain ⟨id, context⟩ := k
  cases hmove with
  | back hstate hstop =>
    obtain ⟨rfl, hcontext⟩ := Prod.mk.inj h
    obtain ⟨c, e, rfl, hnonempty, hentries, hfollow, -⟩ := exists_entry_of_stacked hcontext
    have he : e ∈ c.entries := by rw [hentries]; exact List.mem_singleton_self e
    exact ⟨_, .back hstate ⟨hstop, rfl, hnonempty⟩ he (hfollow ▸ Int.natCast_nonneg _),
      mirrors_of_mem_entries hcontext he⟩
  | along hstate hgoes ht hleads =>
    obtain ⟨rfl, hcontext⟩ := Prod.mk.inj h
    obtain ⟨k', hedge, hmirrors⟩ := exists_edgeLeads_of_leads hcontext hleads
    exact ⟨k', .edge hstate (goesOn_lookOptions_iff.mpr hgoes) ht hedge, hmirrors⟩

/-! ## Lookahead -/

/-- What can be reached behind a step can be reached before it. -/
theorem Reaches.of_leads {k₁ : Configuration} (h : Leads net (lookOptions none) k k')
    (hreaches : Reaches net (lookOptions none) k' k₁) : Reaches net (lookOptions none) k k₁ := by
  induction hreaches with
  | refl => exact .step .refl h
  | step _ hleads ih => exact ih.step hleads

/-- What can be reached mirrors where paths lead that consume nothing. -/
theorem Mirrors.exists_path (hbottom : ∀ c ∈ bottom, c = .empty) (h : Mirrors bottom k place)
    (hreaches : Reaches net (lookOptions none) k k') :
    ∃ place', net.Path place [] place' ∧ Mirrors bottom k' place' := by
  induction hreaches with
  | refl => exact ⟨place, .here place, h⟩
  | step _ hleads ih =>
    obtain ⟨place', hpath, hmirrors⟩ := ih
    obtain ⟨next, hmove, hnext⟩ := hmirrors.exists_move hbottom hleads
    exact ⟨next, hpath.silent_trans hmove.silent, hnext⟩

/-- Where a path leads that consumes nothing is mirrored by what can be reached. -/
theorem Mirrors.exists_reaches (h : Mirrors bottom k place) (hpath : net.Path place [] place') :
    ∃ k', Reaches net (lookOptions none) k k' ∧ Mirrors bottom k' place' := by
  induction hpath using Network.Path.silent_induct generalizing k with
  | here => exact ⟨k, .refl, h⟩
  | move first next hmove _ ih =>
    obtain ⟨k₁, hleads, hmirrors⟩ := h.exists_leads hmove
    obtain ⟨k', hreaches, hlast⟩ := ih hmirrors
    exact ⟨k', hreaches.of_leads hleads, hlast⟩

/-- A lookahead under a stack of calls that passes over no call holds the tokens that its place
offers, and the token of the end if the place exits. -/
theorem contains_look_iff {h : History} (hcontext : h.HoldsParent context)
    (hbottom : ∀ c ∈ bottom, c = .empty)
    (hstacked : context.map Context.skeleton = stacked pending bottom)
    (hpassed : (walk net (lookOptions none) id context).passedCall = false) :
    (net.look id none context).contains token ↔
      net.Offers ⟨id, pending⟩ token ∨ token = endToken bottom ∧ net.Exits ⟨id, pending⟩ := by
  have hstart : Mirrors bottom ⟨id, context⟩ ⟨id, pending⟩ := congrArg (Prod.mk id) hstacked
  have hexact : (net.look id none context).contains token ↔
      ∃ k, Reaches net (lookOptions none) ⟨id, context⟩ k ∧
        Contributes net (lookOptions none) k token := by
    refine ⟨(collected_walk net (lookOptions none) id context).contributed token, ?_⟩
    rintro ⟨k, hreaches, htoken⟩
    exact (closed_of_reaches hcontext hpassed hreaches).1 token htoken
  rw [hexact]
  constructor
  · rintro ⟨k, hreaches, htoken⟩
    obtain ⟨last, hpath, hmirrors⟩ := hstart.exists_path hbottom hreaches
    rcases (hmirrors.contributes_iff hbottom).mp htoken with ⟨next, hmove⟩ | ⟨hend, hnone, hstop⟩
    · exact Or.inl ⟨last, next, hpath, hmove⟩
    · obtain ⟨stop, pending⟩ := last
      obtain rfl : pending = [] := hnone
      exact Or.inr ⟨hend, stop, hstop, hpath⟩
  · rintro (⟨last, next, hpath, hmove⟩ | ⟨hend, stop, hstop, hpath⟩)
    · obtain ⟨k, hreaches, hmirrors⟩ := hstart.exists_reaches hpath
      exact ⟨k, hreaches, (hmirrors.contributes_iff hbottom).mpr (Or.inl ⟨next, hmove⟩)⟩
    · obtain ⟨k, hreaches, hmirrors⟩ := hstart.exists_reaches hpath
      exact ⟨k, hreaches, (hmirrors.contributes_iff hbottom).mpr (Or.inr ⟨hend, rfl, hstop⟩)⟩

/-! ## Regions without calls -/

/-- States that call no rule and from which one comes, without consuming anything, to each other
only. -/
def CallFree (net : Network) (region : List StateId) : Prop :=
  ∀ id ∈ region, ∀ s ∈ net.state? id, ∀ t ∈ s.transitions,
    t.follow? = none ∧ (t.isEpsilon → t.target ∈ region)

instance (net : Network) (region : List StateId) : Decidable (CallFree net region) :=
  inferInstanceAs (Decidable (∀ id ∈ region, ∀ s ∈ net.state? id, ∀ t ∈ s.transitions,
    t.follow? = none ∧ (t.isEpsilon → t.target ∈ region)))

/-- The place is in the region, and so are the states in which its calls continue. -/
def Within (region : List StateId) (place : Place) : Prop :=
  place.state ∈ region ∧ place.pending ⊆ region

variable {region : List StateId}

omit [NodeDigest] in
/-- A move that consumes nothing stays in a region without calls. -/
theorem CallFree.move (h : CallFree net region) (hplace : Within region place)
    (hmove : net.Move place none place') : Within region place' := by
  cases hmove with
  | back hstate hstop =>
    obtain ⟨-, hpending⟩ := hplace
    exact List.cons_subset.mp hpending
  | along hstate hgoes ht hleads =>
    obtain ⟨hid, hpending⟩ := hplace
    obtain ⟨hnone, htarget⟩ := h _ hid _ hstate _ ht
    cases hleads with
    | call hfollow =>
      rw [hnone] at hfollow
      cases hfollow
    | pass hepsilon _ => exact ⟨htarget hepsilon, hpending⟩

omit [NodeDigest] in
/-- A path that consumes nothing does not leave a region without calls. -/
theorem CallFree.path (h : CallFree net region) (hplace : Within region place)
    (hpath : net.Path place [] place') : Within region place' := by
  induction hpath using Network.Path.silent_induct with
  | here => exact hplace
  | move first next hmove _ ih => exact ih (h.move hplace hmove)

/-- A lookahead passes over no call in a region without calls. -/
theorem CallFree.passedCall_walk (h : CallFree net region) (hplace : Within region ⟨id, pending⟩)
    (hbottom : ∀ c ∈ bottom, c = .empty)
    (hstacked : context.map Context.skeleton = stacked pending bottom) :
    (walk net (lookOptions none) id context).passedCall = false := by
  by_contra hpassed
  rw [Bool.not_eq_false] at hpassed
  obtain ⟨k, s, t, hreaches, hstate, ht, hcalls⟩ :=
    passedReached_walk net (lookOptions none) id context hpassed
  have hstart : Mirrors bottom ⟨id, context⟩ ⟨id, pending⟩ := congrArg (Prod.mk id) hstacked
  obtain ⟨last, hpath, hmirrors⟩ := hstart.exists_path hbottom hreaches
  have hmem : k.state ∈ region := (Prod.mk.inj hmirrors).1 ▸ (h.path hplace hpath).1
  rw [(h _ hmem s hstate t ht).1] at hcalls
  cases hcalls

end Lookahead

end TransitionNetwork
