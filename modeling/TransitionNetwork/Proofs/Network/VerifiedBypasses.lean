import TransitionNetwork.Proofs.Network.BypassLanguage
import TransitionNetwork.Proofs.Network.BypassOutcomes
import TransitionNetwork.Proofs.Stream.LoadedLinks

/-!
# Verification after bypasses

Bypasses turn transitions towards the ends of new blocks, and what is asked of a state depends on
the kinds of the states that its transitions lead to. Of these a bypass changes only what leads to
the last state of a rule or to the entry of a precedence loop. So a state of a verified network goes
on to keep its rules, unless it closes a precedence loop and its transition is turned away; and the
first state of a new block keeps its rules, unless the rule begins with a transition that consumes a
token and thereby comes to stand next to one that consumes none.
-/

namespace TransitionNetwork

namespace Network

/-! ## Rules for states whose transitions are turned -/

section

variable {net net' : Network} {old new : StateId} {s s' : State}
  (hrel : s.Redirected old new s')

include hrel

/-- Turning transitions leaves their number. -/
theorem length_redirected : s'.transitions.length = s.transitions.length :=
  hrel.transitions.length_eq.symm

/-- Turning transitions leaves the rule on their number. -/
theorem branching_redirected : branching s' = branching s := by
  rw [branching, branching, length_redirected hrel, hrel.rest]

variable (hkept : ∀ t ∈ s.transitions, net'.kind? t.target = net.kind? t.target)

include hkept

/-- The kinds of targets have a property alike if neither of the states between which transitions
are turned has it. -/
theorem any_targetKind?_redirected {property : StateKind → Bool}
    (hold : (net.kind? old).any property = false) (hnew : (net'.kind? new).any property = false)
    (i : Nat) : (net'.targetKind? s' i).any property = (net.targetKind? s i).any property := by
  rw [targetKind?, targetKind?]
  have hi := rel_getElem?_of_forall₂ hrel.transitions i
  cases ht : s.transitions[i]? with
  | none =>
    rw [ht] at hi
    generalize s'.transitions[i]? = found at hi
    cases hi
    rfl
  | some t =>
    rw [ht] at hi
    obtain ⟨t', ht', hturned⟩ := exists_of_rel_some hi
    rw [ht', Option.bind_some, Option.bind_some]
    rcases hturned with rfl | ⟨rfl, rfl⟩
    · rw [hkept t' (List.mem_of_getElem? ht)]
    · exact hnew.trans hold.symm

/-- The rules for a kind of state are the same but for what closes a star loop, as long as
transitions are turned between states that are no parts of one. -/
theorem kindRequirements_redirected
    (hbody : (net.kind? old).any StateKind.isStarBlockStart = false ∧
      (net'.kind? new).any StateKind.isStarBlockStart = false)
    (hexit : (net.kind? old).any StateKind.isLoopEnd = false ∧
      (net'.kind? new).any StateKind.isLoopEnd = false)
    (hclosing : s.kind ≠ .starLoopBack) : net'.kindRequirements s' = net.kindRequirements s := by
  have hnonGreedy : s'.nonGreedy = s.nonGreedy := by rw [hrel.rest]
  have hbranches : net'.loopBranches s' = net.loopBranches s := by
    simp only [loopBranches, any_targetKind?_redirected hrel hkept hbody.1 hbody.2,
      any_targetKind?_redirected hrel hkept hexit.1 hexit.2, hnonGreedy]
  rw [kindRequirements, kindRequirements, hrel.kind, length_redirected hrel, hbranches]
  rcases hkind : s.kind with _ | _ | _ | ⟨_ | _ | _, _⟩ | _ | _ | _ | _ | _ | _
  case starLoopBack => exact absurd hkind hclosing
  all_goals rfl

end

/-- The rules for what closes a star loop. -/
theorem requirements_of_starLoopBack {net : Network} {s : State} (hkind : s.kind = .starLoopBack) :
    net.requirements s =
      [(s.epsilonOnly || decide (s.transitions.length ≤ 1), .transitionsMixed),
        (s.transitions.length == 1, .starLoopBackTransitionCount),
        ((net.targetKind? s 0).any StateKind.isStarLoopEntry, .starLoopBackTarget),
        branching s] := by
  rw [requirements, kindRequirements, hkind]
  rfl

/-! ## What bypasses may break -/

/-- A rule begins with a transition that consumes a token. -/
def ConsumesAtStart (net : Network) (rule : RuleIndex) : Prop :=
  ∃ start ∈ net.ruleStart? rule, ∃ s ∈ net.state? start, ∃ t ∈ s.transitions, t.isEpsilon = false

/-- A state closes a loop that decides if a rule with precedence levels goes on and is chosen to end
the body of the rule, but the loop is linked to another state that closes it. -/
def ClosesUnlinked (net : Network) (id : StateId) : Prop :=
  ∃ closing ∈ net.state? id, closing.kind = .starLoopBack ∧ ∃ t ∈ closing.transitions,
    ∃ entry ∈ net.state? t.target, net.isPrecedenceDecision entry ∧
      entry.kind.loopBack? ≠ some id ∧
        ∃ rule, ∃ start ∈ net.ruleStart? rule, net.ChosenEnd rule start t.target

/-- What a state of a verified network may break after bypasses: the first state of a new block may
mix transitions, and a state that closed a precedence loop may have been turned away from it. -/
def BrokenByBypass (net : Network) (s : State) (broken : Violation) : Prop :=
  (broken = .transitionsMixed ∧ net.slots.size ≤ s.number ∧
    s.kind = .blockStart .basic (some (s.number + 1)) ∧ ∃ rule ∈ s.rule, net.ConsumesAtStart rule) ∨
  broken = .starLoopBackTarget ∧ net.ClosesUnlinked s.number

/-- What bypasses leave of a network. States keep their kinds, a rule begins with a transition that
consumes a token only if it did, and what closes or decides on a star loop did so. -/
structure Rebuilt (net reached : Network) : Prop where
  wellReferenced : reached.WellReferenced
  ruleStarts : reached.ruleStarts = net.ruleStarts
  ruleStops : reached.ruleStops = net.ruleStops
  ruleTokenTypes : reached.ruleTokenTypes = net.bypassTokenTypes
  size : net.slots.size ≤ reached.slots.size
  kinds : ∀ k s, net.state? k = some s → reached.kind? k = some s.kind
  starts : ∀ rule start, net.ruleStart? rule = some start → ∀ s ∈ reached.state? start,
    ∀ t ∈ s.transitions, t.isEpsilon = false → net.ConsumesAtStart rule
  closings : ∀ k s', reached.state? k = some s' → s'.kind = .starLoopBack →
    ∃ s, net.state? k = some s ∧ s.kind = .starLoopBack ∧ ∀ t ∈ s'.transitions,
      (reached.kind? t.target).any StateKind.isStarLoopEntry → t ∈ s.transitions
  entries : ∀ k s', reached.state? k = some s' → reached.isPrecedenceLoopEntry s' →
    ∃ s, net.state? k = some s ∧ s.kind = s'.kind ∧ s.rule = s'.rule ∧ net.isPrecedenceLoopEntry s
  requirements : ∀ s ∈ reached.states, ∀ rule ∈ reached.requirements s,
    rule.1 = true ∨ net.BrokenByBypass s rule.2

/-- At first nothing is rebuilt but the token types that stand for rules. -/
theorem rebuilt_reserveTokens {net : Network} (hnet : net.WellReferenced) (h : net.Verified) :
    net.Rebuilt net.reserveTokens where
  wellReferenced := hnet.withTokenTypes _
  ruleStarts := rfl
  ruleStops := rfl
  ruleTokenTypes := rfl
  size := Nat.le_refl _
  kinds _ s hs := kind?_eq_some.mpr ⟨s, hs, rfl⟩
  starts _ start hstart s hs t ht hconsumes := ⟨start, hstart, s, hs, t, ht, hconsumes⟩
  closings _ s hs hkind := ⟨s, hs, hkind, fun _ ht _ => ht⟩
  entries _ s hs hentry := ⟨s, hs, rfl, rfl, hentry⟩
  requirements s hs rule hrule := Or.inl (h.requirements s hs rule hrule)

namespace Rebuilt

section

variable {net reached next : Network} {rule : RuleIndex} {start stop : StateId}
  {token : TokenType} {first : State} {body : List Transition} (h : net.Rebuilt reached)
  (hadded : BypassAdded reached next rule start stop token first body)

include h hadded

/-- A rule begins with a transition that consumes a token after one more bypass only if it did at
first. -/
theorem starts_of_bypassAdded {other : RuleIndex} {begin : StateId}
    (hstart : net.ruleStart? other = some begin) {s : State} (hs : s ∈ next.state? begin)
    {t : Transition} (ht : t ∈ s.transitions) (hconsumes : t.isEpsilon = false) :
    net.ConsumesAtStart other := by
  have hlive : begin < reached.nextId := by
    have hmem : begin ∈ reached.ruleStarts := h.ruleStarts ▸ List.mem_of_getElem? hstart
    obtain ⟨s, hs⟩ := Option.isSome_iff_exists.mp
      (isSome_of_any_kind? (h.wellReferenced.ruleStarts begin hmem))
    exact lt_size_of_state? hs
  rcases hadded.state_cases hs with ⟨-, s₀, hs₀, hrel⟩ | ⟨-, rfl⟩ | ⟨hk, -⟩ | ⟨hk, -⟩ | ⟨hk, -⟩
  · obtain ⟨t₀, ht₀, hturned⟩ := exists_of_mem_forall₂ hrel.transitions ht
    have hkind : t.kind = t₀.kind := by rcases hturned with rfl | ⟨-, rfl⟩ <;> rfl
    exact h.starts other begin hstart s₀ hs₀ t₀ ht₀ (by rwa [Transition.isEpsilon, ← hkind])
  · rw [List.mem_singleton.mp ht] at hconsumes
    cases hconsumes
  all_goals lia

/-- After one more bypass, what closes a star loop did so at first, and its transitions to entries
are its own. -/
theorem closings_of_bypassAdded {k : StateId} {s' : State} (hs' : next.state? k = some s')
    (hkind : s'.kind = .starLoopBack) :
    ∃ s, net.state? k = some s ∧ s.kind = .starLoopBack ∧ ∀ t ∈ s'.transitions,
      (next.kind? t.target).any StateKind.isStarLoopEntry → t ∈ s.transitions := by
  rcases hadded.state_cases hs' with ⟨-, s₁, hs₁, hrel⟩ | ⟨-, rfl⟩ | ⟨-, -, -, hopening, -⟩ |
    ⟨-, rfl⟩ | ⟨-, rfl⟩
  case inl =>
    obtain ⟨s, hs, hclosing, hown⟩ := h.closings k s₁ hs₁ (hrel.kind ▸ hkind)
    refine ⟨s, hs, hclosing, fun t ht hentry => ?_⟩
    obtain ⟨t₁, ht₁, hturned⟩ := exists_of_mem_forall₂ hrel.transitions ht
    rcases hturned with rfl | ⟨-, rfl⟩
    · refine hown t ht₁ ?_
      obtain ⟨target, htarget⟩ := Option.isSome_iff_exists.mp
        (h.wellReferenced.transitions s₁ (mem_states.mpr ⟨k, hs₁⟩) t ht₁).target
      rw [hadded.kind?_eq htarget] at hentry
      rw [kind?, htarget]
      exact hentry
    · rw [kind?, hadded.closing] at hentry
      cases hentry
  case inr.inl =>
    have hrule := hadded.isRuleStart
    rw [show first.kind = .starLoopBack from hkind] at hrule
    cases hrule
  case inr.inr.inl =>
    rw [hopening] at hkind
    cases hkind
  all_goals cases hkind

/-- After one more bypass, the entry of a precedence loop was one at first. -/
theorem entries_of_bypassAdded {k : StateId} {s' : State} (hs' : next.state? k = some s')
    (hentry : next.isPrecedenceLoopEntry s') :
    ∃ s, net.state? k = some s ∧ s.kind = s'.kind ∧ s.rule = s'.rule ∧
      net.isPrecedenceLoopEntry s := by
  obtain ⟨s₁, hs₁, hrel, hbefore⟩ := (hadded.loopsStem hadded.isRuleStart).exists_entry hs' hentry
  obtain ⟨s, hs, hkind, hrule, hdecides⟩ := h.entries k s₁ hs₁ hbefore
  exact ⟨s, hs, hkind.trans hrel.kind.symm, hrule.trans hrel.rule.symm, hdecides⟩

/-- Where the body of a rule ends there is no part of a star loop but its entry. -/
theorem kind?_stop_of_bypassAdded {property : StateKind → Bool}
    (hentry : ∀ kind : StateKind, kind.isStarLoopEntry → property kind = false)
    (hstop : property .ruleStop = false) : (reached.kind? stop).any property = false := by
  have hends := hadded.endsBody
  rw [EndsBody] at hends
  split at hends
  · obtain ⟨s, hs, -, hloop⟩ := hends
    rw [kind?, hs]
    exact hentry s.kind (isPrecedenceLoopEntry_iff.mp hloop).1
  · obtain ⟨s, hs, hkind, -⟩ := h.wellReferenced.ruleStops rule stop hends
    rw [kind?, hs, Option.map_some, StateKind.eq_ruleStop hkind]
    exact hstop

/-- One more bypass leaves the kinds of the states to which transitions led. -/
theorem kept_of_bypassAdded {k : StateId} {s : State} (hs : reached.state? k = some s) :
    ∀ t ∈ s.transitions, next.kind? t.target = reached.kind? t.target := by
  intro t ht
  obtain ⟨target, htarget⟩ := Option.isSome_iff_exists.mp
    (h.wellReferenced.transitions s (mem_states.mpr ⟨k, hs⟩) t ht).target
  rw [hadded.kind?_eq htarget, kind?, htarget, Option.map_some]

variable (hnet : net.WellReferenced)
  (hturn : (List.range rule).foldlM addBypass net.reserveTokens = .ok reached)
  (hnext : reached.addBypass rule = .ok next)

include hnet hturn hnext

/-- What closes a star loop and is turned away from it closed a precedence loop that is linked to
another state. -/
theorem closesUnlinked_of_turned {k : StateId} {s s' : State} {t t' : Transition}
    (hs : reached.state? k = some s) (hs' : next.state? k = some s') (hne : k ≠ start)
    (hkind : s.kind = .starLoopBack) (ht : s.transitions = [t]) (ht' : s'.transitions = [t'])
    (hentry : (reached.kind? t.target).any StateKind.isStarLoopEntry) (hturned : t' ≠ t) :
    net.ClosesUnlinked k := by
  obtain ⟨excluded, hchosen⟩ := hadded.chosen
  have hend : net.ChosenEnd rule start stop := ⟨reached, excluded, hturn, hchosen⟩
  cases hs'.symm.trans (hadded.state?_of_chosen h.wellReferenced hnext hchosen hs hne)
  rw [ht] at ht'
  -- Only transitions to the end of the body are turned, but for the one that is spared.
  obtain ⟨htarget, hexcluded⟩ : t.target = stop ∧ excluded ≠ some (k, 0) := by
    by_contra hkept
    rw [List.mapIdx_cons, List.mapIdx_nil, if_neg hkept, List.cons.injEq] at ht'
    exact hturned ht'.1.symm
  rcases bodyEnd_eq_ok h.wellReferenced.numbered
      (hadded.bodyEnd_eq h.wellReferenced hchosen) with
    ⟨hprecedence, entry, hfound, hrule, hloop, hback⟩ | ⟨-, hstop, -⟩
  · obtain ⟨before, hbefore, hsame, hsameRule, hdecides⟩ := h.entries stop entry hfound hloop
    obtain ⟨closing, hclosing, hcloses, hown⟩ := h.closings k s hs hkind
    have hstart : net.ruleStart? rule = some start := by
      rw [ruleStart?, ← h.ruleStarts]
      exact hadded.ruleStart
    refine ⟨closing, hclosing, hcloses, t, hown t (ht ▸ List.mem_singleton_self t) hentry, before,
      htarget ▸ hbefore, ?_, fun hlinked => hexcluded ?_, rule, start, hstart, htarget ▸ hend⟩
    · obtain ⟨begin, hbegin, -⟩ :=
        any_kind?_iff.mp (hnet.ruleStarts start (List.mem_of_getElem? hstart))
      rw [h.kinds start begin hbegin] at hprecedence
      rw [isPrecedenceDecision, hdecides, hsameRule, hrule, Option.any_some, hasPrecedence, hstart,
        Option.bind_some, kind?, hbegin, Bool.and_true]
      exact hprecedence
    · rw [hback, ← hsame, hlinked]
      rfl
  · obtain ⟨last, hlast, hisStop, -⟩ := h.wellReferenced.ruleStops rule stop hstop
    rw [htarget, kind?, hlast, Option.map_some, StateKind.eq_ruleStop hisStop] at hentry
    cases hentry

/-- What closed a star loop goes on to lead to its entry, unless it closed a precedence loop that is
linked to another state. -/
theorem starLoopBack_of_redirected {k : StateId} {s s' : State} (hs : reached.state? k = some s)
    (hs' : next.state? k = some s') (hne : k ≠ start)
    (hrel : s.Redirected stop (reached.nextId + 1) s') (hkind : s.kind = .starLoopBack)
    (hcount : s.transitions.length = 1)
    (htarget : (reached.targetKind? s 0).any StateKind.isStarLoopEntry) :
    (next.targetKind? s' 0).any StateKind.isStarLoopEntry ∨ net.ClosesUnlinked k := by
  obtain ⟨t, ht⟩ := List.length_eq_one_iff.mp hcount
  obtain ⟨t', ht'⟩ := List.length_eq_one_iff.mp ((length_redirected hrel).trans hcount)
  rw [targetKind?, ht] at htarget
  rw [targetKind?, ht']
  rcases eq_or_ne t' t with rfl | hturned
  · left
    change (reached.kind? t'.target).any StateKind.isStarLoopEntry at htarget
    rw [← h.kept_of_bypassAdded hadded hs t' (ht ▸ List.mem_singleton_self t')] at htarget
    exact htarget
  · exact Or.inr
      (h.closesUnlinked_of_turned hadded hnet hturn hnext hs hs' hne hkind ht ht' htarget hturned)

/-- A state whose transitions were turned goes on to keep the rules that it kept, unless it closed a
precedence loop. -/
theorem requirements_of_redirected {k : StateId} {s s' : State} (hs : reached.state? k = some s)
    (hs' : next.state? k = some s') (hne : k ≠ start)
    (hrel : s.Redirected stop (reached.nextId + 1) s') :
    ∀ required ∈ next.requirements s', required.1 = true ∨ net.BrokenByBypass s' required.2 := by
  have hbroken : net.BrokenByBypass s = net.BrokenByBypass s' := by
    funext broken
    rw [BrokenByBypass, BrokenByBypass, hrel.number, hrel.kind, hrel.rule]
  have hbefore := h.requirements s (mem_states.mpr ⟨k, hs⟩)
  rw [hbroken] at hbefore
  have hmixed : (s'.epsilonOnly || decide (s'.transitions.length ≤ 1)) =
      (s.epsilonOnly || decide (s.transitions.length ≤ 1)) := by
    rw [hrel.epsilonOnly, length_redirected hrel]
  intro required hrequired
  by_cases hclosing : s.kind = .starLoopBack
  -- Of the rules for what closes a star loop, one looks at where its transition leads.
  · rw [requirements_of_starLoopBack (hrel.kind.trans hclosing), hmixed, length_redirected hrel,
      branching_redirected hrel] at hrequired
    simp only [requirements_of_starLoopBack hclosing, List.forall_mem_cons] at hbefore
    obtain ⟨hfirst, hcount, htarget, hlast, -⟩ := hbefore
    simp only [List.mem_cons, List.not_mem_nil, or_false] at hrequired
    rcases hrequired with rfl | rfl | rfl | rfl
    · exact hfirst
    · exact hcount
    · have hsingle : s.transitions.length = 1 := by
        rcases hcount with hcount | ⟨hother, -⟩ | ⟨hother, -⟩
        · exact beq_iff_eq.mp hcount
        all_goals cases hother
      refine htarget.elim (fun hentry => ?_) Or.inr
      refine (h.starLoopBack_of_redirected hadded hnet hturn hnext hs hs' hne hrel hclosing hsingle
        hentry).imp_right fun hturned => Or.inr ⟨rfl, ?_⟩
      rwa [hrel.number, h.wellReferenced.numbered k s hs]
    · exact hlast
  -- No rule for other kinds can tell the end of the body from the end of the block.
  · have hnew {property : StateKind → Bool}
        (hend : property (.blockEnd (some reached.nextId)) = false) :
        (next.kind? (reached.nextId + 1)).any property = false := by
      rw [kind?, hadded.closing]
      exact hend
    rw [Network.requirements, hmixed, branching_redirected hrel,
      kindRequirements_redirected hrel (h.kept_of_bypassAdded hadded hs)
      ⟨h.kind?_stop_of_bypassAdded hadded
        (fun kind hkind => by cases kind <;> first | rfl | cases hkind) rfl, hnew rfl⟩
      ⟨h.kind?_stop_of_bypassAdded hadded
        (fun kind hkind => by cases kind <;> first | rfl | cases hkind) rfl, hnew rfl⟩
      hclosing] at hrequired
    exact hbefore required hrequired

end

section

variable {net reached next : Network} {rule : RuleIndex} {start stop : StateId}
  {token : TokenType} {first : State} {body : List Transition} (h : net.Rebuilt reached)
  (hadded : BypassAdded reached next rule start stop token first body)

include h hadded

/-- The first state of a rule, which now leads to the block alone, keeps its rules. -/
theorem requirements_of_leading : ∀ required ∈ next.requirements
      { first with transitions := [.epsilon reached.nextId], epsilonOnly := true },
    required.1 = true ∨ net.BrokenByBypass
      { first with transitions := [.epsilon reached.nextId], epsilonOnly := true } required.2 := by
  have hbefore := h.requirements first (mem_states.mpr ⟨start, hadded.found⟩)
  obtain ⟨stop, precedence, hkind⟩ : ∃ stop precedence, first.kind = .ruleStart stop precedence := by
    have hisStart := hadded.isRuleStart
    cases hkind : first.kind <;> rw [hkind] at hisStart <;> first | exact ⟨_, _, rfl⟩ | cases hisStart
  have hstop : stop.isSome := by
    have hlinked := hbefore (stop.isSome, .ruleStartWithoutStop) (by
      rw [Network.requirements, kindRequirements, hkind]
      exact List.mem_cons_of_mem _ List.mem_cons_self)
    rcases hlinked with hlinked | ⟨hother, -⟩ | ⟨hother, -⟩
    · exact hlinked
    all_goals cases hother
  intro required hrequired
  left
  simp only [Network.requirements, kindRequirements, branching, hkind, List.cons_append,
    List.nil_append, List.mem_cons, List.not_mem_nil, or_false] at hrequired
  rcases hrequired with rfl | rfl | rfl
  · rfl
  · exact hstop
  · rfl

/-- The first state of the new block may mix transitions if the rule begins with one that consumes a
token, and keeps its rules otherwise. -/
theorem requirements_of_opening (hnext : reached.addBypass rule = .ok next) {s' : State}
    (hs' : next.state? reached.nextId = some s') :
    ∀ required ∈ next.requirements s', required.1 = true ∨ net.BrokenByBypass s' required.2 := by
  obtain ⟨_, hfound, hnumber, hrule, hkind, htransitions⟩ := hadded.opening
  cases hfound.symm.trans hs'
  obtain ⟨hdecision, hflag⟩ := hadded.flagged_opening h.wellReferenced hnext hs'
  intro required hrequired
  simp only [Network.requirements, kindRequirements, branching, hkind, List.cons_append,
    List.nil_append, List.mem_cons, List.not_mem_nil, or_false] at hrequired
  rcases hrequired with rfl | rfl | rfl
  · by_cases hepsilon : ∀ t ∈ body, t.isEpsilon = true
    · left
      have hall : s'.transitions.all Transition.isEpsilon = true := by
        rw [htransitions, List.all_append, List.all_eq_true.mpr hepsilon]
        rfl
      have hsome : s'.transitions.isEmpty = false := by
        rw [htransitions]
        cases body <;> rfl
      rw [hflag, hall, hsome]
      rfl
    · right
      simp only [not_forall, exists_prop] at hepsilon
      obtain ⟨t, ht, hconsumes⟩ := hepsilon
      -- The transition was the rule's own, before the body was moved into the block.
      obtain ⟨t₀, ht₀, hturned⟩ := exists_of_mem_forall₂ hadded.moved ht
      have hsame : t.kind = t₀.kind := by rcases hturned with rfl | ⟨-, rfl⟩ <;> rfl
      refine Or.inl ⟨rfl, hnumber ▸ h.size, hnumber ▸ hkind, rule, hrule, ?_⟩
      refine h.starts rule start ?_ first hadded.found t₀ ht₀ ?_
      · rw [ruleStart?, ← h.ruleStarts]
        exact hadded.ruleStart
      · rw [Transition.isEpsilon, ← hsame]
        exact Bool.eq_false_iff.mpr hconsumes
  · exact Or.inl rfl
  · left
    change (_ || s'.decision.isSome) = true
    rw [hdecision]
    exact Bool.or_true _

/-- A bypass leaves of a network what the bypasses before it have left. -/
theorem of_bypassAdded (hnet : net.WellReferenced)
    (hturn : (List.range rule).foldlM addBypass net.reserveTokens = .ok reached)
    (hnext : reached.addBypass rule = .ok next) : net.Rebuilt next where
  wellReferenced := h.wellReferenced.of_addBypass hnext
  ruleStarts := hadded.ruleStarts_eq.trans h.ruleStarts
  ruleStops := hadded.ruleStops_eq.trans h.ruleStops
  ruleTokenTypes := hadded.ruleTokenTypes_eq.trans h.ruleTokenTypes
  size := h.size.trans (by rw [hadded.size]; exact Nat.le_add_right _ 3)
  kinds k s hs := by
    obtain ⟨s', hs', hkind⟩ := kind?_eq_some.mp (h.kinds k s hs)
    rw [hadded.kind?_eq hs', hkind]
  starts _ _ hstart _ hs _ ht hconsumes := h.starts_of_bypassAdded hadded hstart hs ht hconsumes
  closings _ _ hs hkind := h.closings_of_bypassAdded hadded hs hkind
  entries _ _ hs hentry := h.entries_of_bypassAdded hadded hs hentry
  requirements s' hs' := by
    obtain ⟨k, hk⟩ := mem_states.mp hs'
    rcases hadded.state_cases hk with ⟨hne, s, hs, hrel⟩ | ⟨rfl, rfl⟩ | ⟨rfl, -⟩ | ⟨-, rfl⟩ | ⟨-, rfl⟩
    · exact h.requirements_of_redirected hadded hnet hturn hnext hs hk hne hrel
    · exact h.requirements_of_leading hadded
    · exact h.requirements_of_opening hadded hnext hk
    · intro required hrequired
      rcases List.mem_cons.mp hrequired with rfl | hrequired
      · exact Or.inl rfl
      · rcases List.mem_pair.mp hrequired with rfl | rfl <;> exact Or.inl rfl
    · intro required hrequired
      rcases List.mem_pair.mp hrequired with rfl | rfl <;> exact Or.inl rfl

end

end Rebuilt

/-! ## Bypasses of all rules -/

section

variable {net : Network} (hnet : net.WellReferenced) (hverified : net.Verified)

include hnet hverified

/-- What the bypasses of the rules in front of a rule leave of a verified network. -/
theorem rebuilt_of_foldlM {count : Nat} {reached : Network}
    (h : (List.range count).foldlM addBypass net.reserveTokens = .ok reached) :
    net.Rebuilt reached := by
  induction count generalizing reached with
  | zero =>
    cases h
    exact rebuilt_reserveTokens hnet hverified
  | succ count ih =>
    rw [List.range_succ, List.foldlM_append, bind_eq_ok] at h
    obtain ⟨before, hbefore, h⟩ := h
    rw [List.foldlM_cons, bind_eq_ok] at h
    obtain ⟨next, hnext, h⟩ := h
    cases h
    have hrebuilt := ih hbefore
    obtain ⟨start, stop, token, first, body, hadded⟩ :=
      exists_bypassAdded hrebuilt.wellReferenced hnext
    exact hrebuilt.of_bypassAdded hadded hnet hbefore hnext

/-- Every rule of a verified network ends. -/
theorem Verified.isSome_ruleStop?_of_ruleStart? {rule : RuleIndex} {start : StateId}
    (hstart : net.ruleStart? rule = some start) : (net.ruleStop? rule).isSome := by
  obtain ⟨s, hs, hlinked⟩ := hverified.rules rule start hstart
  obtain ⟨first, hfirst, hkind⟩ :=
    any_kind?_iff.mp (hnet.ruleStarts start (List.mem_of_getElem? hstart))
  cases hs.symm.trans hfirst
  rw [← hlinked]
  exact hverified.isSome_ruleStop? (mem_states.mpr ⟨start, hs⟩) hkind

/-- A rule is given its bypass when it is its turn, unless it lacks a loop. -/
theorem Rebuilt.lacksLoop {reached : Network} (h : net.Rebuilt reached) {rule : RuleIndex}
    (hrule : rule < net.ruleCount) {e : LoadError} (he : reached.addBypass rule = .error e) :
    reached.LacksLoop rule ∧ e = .precedenceLoopNotFound rule := by
  obtain ⟨start, hstart⟩ : ∃ start, net.ruleStart? rule = some start :=
    ⟨_, List.getElem?_eq_getElem hrule⟩
  have hfirst : reached.ruleStart? rule = some start := by
    rw [ruleStart?, h.ruleStarts]
    exact hstart
  have htoken : reached.ruleTokenType? rule = some (net.maxTokenType + (rule : Int) + 1) := by
    rw [ruleTokenType?, h.ruleTokenTypes]
    exact getElem?_bypassTokenTypes hrule
  refine addBypass_eq_error h.wellReferenced hfirst htoken ?_ he
  rw [ruleStop?, h.ruleStops]
  exact hverified.isSome_ruleStop?_of_ruleStart? hnet hstart

/-- Bypasses are added to all rules unless one lacks a loop when it is its turn. -/
theorem exists_lacksLoop_of_addBypasses {e : LoadError} (h : net.addBypasses = .error e) :
    ∃ rule before, (List.range rule).foldlM addBypass net.reserveTokens = .ok before ∧
      before.LacksLoop rule ∧ e = .precedenceLoopNotFound rule := by
  obtain ⟨rule, hrule, before, hbefore, hturn⟩ := exists_turn_of_foldlM_eq_error h
  exact ⟨rule, before, hbefore,
    (rebuilt_of_foldlM hnet hverified hbefore).lacksLoop hnet hverified hrule hturn⟩

omit hnet in
/-- After bypasses, verification fails only for what they may break. -/
theorem Rebuilt.exists_broken {reached : Network} (h : net.Rebuilt reached) {e : LoadError}
    (he : reached.verify = .error e) : ∃ s ∈ reached.states, ∃ broken,
      e = .violation s.number broken ∧ net.BrokenByBypass s broken := by
  obtain ⟨s, hs, broken, hmem, rfl⟩ := exists_broken_of_verify he fun rule start hstart => by
    rw [ruleStart?, h.ruleStarts] at hstart
    obtain ⟨first, hfirst, hlinked⟩ := hverified.rules rule start hstart
    obtain ⟨s, hs, hkind⟩ := kind?_eq_some.mp (h.kinds start first hfirst)
    exact ⟨s, hs, by rw [hkind, hlinked, ruleStop?, ruleStop?, h.ruleStops]⟩
  refine ⟨s, hs, broken, rfl, (h.requirements s hs _ hmem).resolve_left ?_⟩
  exact Bool.false_ne_true

end

end Network

end TransitionNetwork
