import TransitionNetwork.Lookahead.Walk
import TransitionNetwork.Proofs.Context.Structure
import TransitionNetwork.Proofs.IntervalSet.Canonical

/-!
# Configurations of a lookahead

What a lookahead is about, apart from the walk that finds it: from a state with a context one comes
to others without consuming a token, and some of them contribute tokens. Nothing here depends on the
identities and digests of contexts.
-/

namespace TransitionNetwork

/-- The tokens that a transition can consume are those that it accepts. -/
theorem Transition.contains_consumed (net : Network) (t : Transition) (token : TokenType) :
    (t.consumed net.vocabulary).contains token = true ↔
      t.accepts token Token.firstUser net.maxTokenType = true := by
  rcases t with ⟨target, kind⟩
  have hvocabulary : net.vocabulary.contains token = true ↔
      Token.firstUser ≤ token ∧ token ≤ net.maxTokenType := IntervalSet.contains_ofRange _ _ _
  have hnone : (∅ : IntervalSet).contains token = false := rfl
  cases kind with
  | atom label =>
    simp only [consumed, label?, accepts, Option.getD_some, decide_eq_true_eq,
      IntervalSet.contains_singleton]
    exact eq_comm
  | range start stop =>
    simp only [consumed, label?, accepts, Option.getD_some, Bool.and_eq_true, decide_eq_true_eq,
      IntervalSet.contains_ofRange]
  | notSet excluded =>
    simp [consumed, accepts, IntervalSet.contains_complement, hvocabulary]
  | wildcard => simp [consumed, accepts, hvocabulary]
  | _ => simp [consumed, label?, accepts, hnone]

namespace Lookahead

/-- A state that is entered with a context, or with none. -/
structure Configuration where
  state : StateId
  context : Option Context

/-- Whether a walk ends in a state as at the end of a rule. -/
def AtEnd (options : WalkOptions) (id : StateId) (s : State) : Prop :=
  s.kind.isRuleStop = true ∨ options.stop = some id

/-- The token of the end, where a walk ends: that of the rule without a context, and that of the
input under the empty stack. -/
def EndsWith (options : WalkOptions) (id : StateId) (s : State) (context : Option Context)
    (token : TokenType) : Prop :=
  AtEnd options id s ∧ (context = none ∧ token = Token.epsilon ∨
    ∃ c, context = some c ∧ c.isEmpty = true ∧ options.collectsEof = true ∧ token = Token.eof)

/-- Whether the rule that ends in a state returns through a context. -/
def Returns (s : State) (context : Option Context) (c : Context) : Prop :=
  s.kind.isRuleStop = true ∧ context = some c ∧ c.isEmpty = false

/-- Whether the transitions of a state are followed, because a walk neither ends nor returns. -/
def GoesOn (options : WalkOptions) (id : StateId) (s : State) (context : Option Context) : Prop :=
  (∀ token, ¬ EndsWith options id s context token) ∧ ∀ c, ¬ Returns s context c

/-- Whether a transition that consumes nothing and calls no rule is followed. -/
def moves (options : WalkOptions) : TransitionKind → Bool
  | .epsilon _ | .action _ _ _ => true
  | .predicate _ _ _ | .precedence _ => options.throughPredicates
  | _ => false

/-- Whether a walk ends at a transition because of a predicate. -/
def blocks (options : WalkOptions) : TransitionKind → Bool
  | .predicate _ _ _ | .precedence _ => !options.throughPredicates
  | _ => false

/-- The tokens that a transition contributes: those that it accepts, or the mark of a predicate. -/
def EdgeContributes (net : Network) (options : WalkOptions) (t : Transition) (token : TokenType) :
    Prop :=
  t.accepts token Token.firstUser net.maxTokenType = true ∨
    blocks options t.kind = true ∧ token = Token.invalid

/-- The tokens that a configuration contributes. -/
inductive Contributes (net : Network) (options : WalkOptions) : Configuration → TokenType → Prop
  | ends {id : StateId} {context : Option Context} {s : State} {token : TokenType}
      (hstate : net.state? id = some s) (hends : EndsWith options id s context token) :
      Contributes net options ⟨id, context⟩ token
  | bottom {id : StateId} {context : Option Context} {s : State} {c : Context} {e : Entry Context}
      (hstate : net.state? id = some s) (hreturns : Returns s context c) (he : e ∈ c.entries)
      (hreturn : e.returnState = Context.emptyReturn) (heof : options.collectsEof = true) :
      Contributes net options ⟨id, context⟩ Token.eof
  | edge {id : StateId} {context : Option Context} {s : State} {t : Transition}
      {token : TokenType} (hstate : net.state? id = some s) (hgoes : GoesOn options id s context)
      (ht : t ∈ s.transitions) (htoken : EdgeContributes net options t token) :
      Contributes net options ⟨id, context⟩ token

variable {net : Network} {options : WalkOptions} {id : StateId} {s : State}
  {context context' : Option Context} {w : Walk}

/-- The test by which a visit decides that it is at an end. -/
theorem atEnd_iff : (s.kind.isRuleStop || options.stop == some id) = true ↔
    AtEnd options id s := by
  simp [AtEnd]

/-- A walk ends, returns or goes on. -/
theorem endsWith_or_returns_or_goesOn (options : WalkOptions) (id : StateId) (s : State)
    (context : Option Context) : (∃ token, EndsWith options id s context token) ∨
      (∃ c, Returns s context c) ∨ GoesOn options id s context := by
  by_cases hends : ∃ token, EndsWith options id s context token
  · exact Or.inl hends
  · by_cases hreturns : ∃ c, Returns s context c
    · exact Or.inr (Or.inl hreturns)
    · exact Or.inr (Or.inr ⟨not_exists.mp hends, not_exists.mp hreturns⟩)

variable [NodeDigest]

/-- Where a transition leads from a context. A call pushes the follow state; which identity the new
context has is of no account. -/
inductive EdgeLeads (options : WalkOptions) (context : Option Context) (t : Transition) :
    Configuration → Prop
  | move (hmoves : moves options t.kind = true) : EdgeLeads options context t ⟨t.target, context⟩
  | call {rule : RuleIndex} {level : Int} {follow : StateId} (next : NodeId)
      (hkind : t.kind = .rule rule level follow) : EdgeLeads options context t
        ⟨t.target, some (Context.singleton ⟨context, (follow : Int)⟩ next).1⟩

/-- One configuration leads to another without a token. -/
inductive Leads (net : Network) (options : WalkOptions) : Configuration → Configuration → Prop
  | back {id : StateId} {context : Option Context} {s : State} {c : Context} {e : Entry Context}
      (hstate : net.state? id = some s) (hreturns : Returns s context c) (he : e ∈ c.entries)
      (hreturn : 0 ≤ e.returnState) :
      Leads net options ⟨id, context⟩ ⟨e.returnState.toNat, e.parent⟩
  | edge {id : StateId} {context : Option Context} {s : State} {t : Transition}
      {k : Configuration} (hstate : net.state? id = some s) (hgoes : GoesOn options id s context)
      (ht : t ∈ s.transitions) (hleads : EdgeLeads options context t k) :
      Leads net options ⟨id, context⟩ k

/-- The configurations to which one leads in any number of steps. -/
inductive Reaches (net : Network) (options : WalkOptions) (start : Configuration) :
    Configuration → Prop
  | refl : Reaches net options start start
  | step {k k' : Configuration} : Reaches net options start k → Leads net options k k' →
      Reaches net options start k'

/-! ## Leaving a state -/

/-- Where a walk ends, it collects the token of the end. -/
theorem leaveState_of_endsWith (visit : Visit) {token : TokenType}
    (hends : EndsWith options id s context token) :
    leaveState net options visit id s context w = some (w.collect token) := by
  obtain ⟨hatEnd, ⟨rfl, rfl⟩ | ⟨c, rfl, hempty, heof, rfl⟩⟩ := hends
  · simp [leaveState, atEnd_iff.mpr hatEnd]
  · simp [leaveState, atEnd_iff.mpr hatEnd, hempty, heof]

/-- Where a rule returns, a walk returns through the context. -/
theorem leaveState_of_returns (visit : Visit) {c : Context} (hreturns : Returns s context c) :
    leaveState net options visit id s context w = returnThrough options visit s.rule c w := by
  obtain ⟨hstop, rfl, hempty⟩ := hreturns
  simp [leaveState, hstop, hempty]

/-- Where a walk goes on, it follows every transition. -/
theorem leaveState_of_goesOn (visit : Visit) (hgoes : GoesOn options id s context) :
    leaveState net options visit id s context w = followAll net options visit s context w := by
  obtain ⟨hends, hreturns⟩ := hgoes
  cases context with
  | none =>
    have hatEnd : ¬ AtEnd options id s := fun h => hends Token.epsilon ⟨h, Or.inl ⟨rfl, rfl⟩⟩
    simp [leaveState, mt atEnd_iff.mp hatEnd]
  | some c =>
    have hnotReturns : (s.kind.isRuleStop && !c.isEmpty) = false := by
      have hc := hreturns c
      cases hstop : s.kind.isRuleStop <;> cases hempty : c.isEmpty <;>
        simp_all [Returns]
    have hnotEnds : ((s.kind.isRuleStop || options.stop == some id) && c.isEmpty &&
        options.collectsEof) = false := by
      by_contra hall
      rw [Bool.not_eq_false, Bool.and_eq_true, Bool.and_eq_true, atEnd_iff] at hall
      exact hends Token.eof ⟨hall.1.1, Or.inr ⟨c, rfl, hall.1.2, hall.2, rfl⟩⟩
    simp only [leaveState, hnotEnds, hnotReturns, Bool.false_eq_true, if_false]

/-! ## Following a transition -/

omit [NodeDigest] in
/-- A transition calls a rule, is followed, ends the walk because of a predicate, or consumes. -/
theorem calls_or_moves_or_blocks_or_consumes (options : WalkOptions) (t : Transition) :
    (∃ rule level follow, t.kind = .rule rule level follow) ∨ moves options t.kind = true ∨
      blocks options t.kind = true ∨ t.isEpsilon = false := by
  rcases t with ⟨target, kind⟩
  cases kind <;> cases hthrough : options.throughPredicates <;>
    simp [moves, blocks, hthrough, Transition.isEpsilon, TransitionKind.isEpsilon]

variable {t : Transition} {go : Visit}

omit [NodeDigest] in
/-- A transition along which a walk moves consumes nothing. -/
theorem isEpsilon_of_moves (hmoves : moves options t.kind = true) : t.isEpsilon = true := by
  obtain ⟨target, kind⟩ := t
  cases kind <;> first | rfl | cases hmoves

omit [NodeDigest] in
/-- A transition that ends the walk because of a predicate consumes nothing. -/
theorem isEpsilon_of_blocks (hblocks : blocks options t.kind = true) : t.isEpsilon = true := by
  obtain ⟨target, kind⟩ := t
  cases kind <;> first | rfl | cases hblocks

omit [NodeDigest] in
/-- A walk does not end at a transition along which it moves. -/
theorem blocks_eq_false_of_moves (hmoves : moves options t.kind = true) :
    blocks options t.kind = false := by
  obtain ⟨target, kind⟩ := t
  cases kind <;> simp_all [moves, blocks]

/-- A call of a rule is passed over while another one is open. -/
theorem followTransition_of_open {rule : RuleIndex} {level : Int} {follow : StateId}
    (hkind : t.kind = .rule rule level follow) (hopen : w.called.contains rule = true) :
    followTransition net options go context w t = some { w with passedCall := true } := by
  simp only [followTransition, hkind, hopen, if_true]

/-- A call of a rule leads to the first state of the rule with the follow state pushed. -/
theorem followTransition_of_call {rule : RuleIndex} {level : Int} {follow : StateId}
    (hkind : t.kind = .rule rule level follow) (hopen : w.called.contains rule = false) :
    followTransition net options go context w t =
      (go t.target (some (w.push context follow).1)
        ((w.push context follow).2.openCall rule)).map (Walk.closeCall · rule) := by
  simp only [followTransition, hkind, hopen, Bool.false_eq_true, if_false, Option.map_eq_bind]
  rfl

/-- Following a transition along which a walk moves is a visit of its target in the same context. -/
theorem followTransition_of_moves (hmoves : moves options t.kind = true) :
    followTransition net options go context w t = go t.target context w := by
  unfold followTransition
  cases hkind : t.kind <;> simp_all [moves]

/-- Following a transition that blocks the walk only marks the predicate. -/
theorem followTransition_of_blocks (hblocks : blocks options t.kind = true) :
    followTransition net options go context w t = some (w.collect Token.invalid) := by
  unfold followTransition
  cases hkind : t.kind <;> simp_all [blocks]

/-- Following a transition that consumes a token only collects what it consumes. -/
theorem followTransition_of_consumes (hconsumes : t.isEpsilon = false) :
    followTransition net options go context w t =
      some (w.collectAll (t.consumed net.vocabulary)) := by
  unfold followTransition
  rw [Transition.isEpsilon] at hconsumes
  cases hkind : t.kind <;> simp_all [TransitionKind.isEpsilon]

/-! ## Entering a state -/

/-- The walk once a configuration is entered. -/
def Walk.enter (w : Walk) (k : Configuration) : Walk :=
  { w with entered := w.entered.add k.state k.context }

/-- A configuration that was entered is not entered again. -/
theorem visit_of_has (depth : Nat) (hhas : w.entered.has id context = true) :
    visit net options (depth + 1) id context w = some w := by
  simp [visit, hhas]

/-- A state that does not exist leads nowhere. -/
theorem visit_of_state?_eq_none (depth : Nat) (hhas : w.entered.has id context = false)
    (hstate : net.state? id = none) :
    visit net options (depth + 1) id context w = some (w.enter ⟨id, context⟩) := by
  simp [visit, hhas, hstate, Walk.enter]

/-- A state that is entered is left for where it leads. -/
theorem visit_of_state? (depth : Nat) (hhas : w.entered.has id context = false)
    (hstate : net.state? id = some s) :
    visit net options (depth + 1) id context w =
      leaveState net options (visit net options depth) id s context (w.enter ⟨id, context⟩) := by
  simp [visit, hhas, hstate, Walk.enter]

/-! ## Configurations that are alike -/

/-- The configurations have one state, and contexts of the same structure. -/
structure Alike (k k' : Configuration) : Prop where
  state : k.state = k'.state
  context : k.context.map Context.skeleton = k'.context.map Context.skeleton

omit [NodeDigest] in
/-- Being alike is symmetric. -/
theorem Alike.symm {k k' : Configuration} (h : Alike k k') : Alike k' k :=
  ⟨h.state.symm, h.context.symm⟩

section

variable (hsame : context.map Context.skeleton = context'.map Context.skeleton)

include hsame

omit [NodeDigest] in
/-- A walk ends alike in contexts of the same structure. -/
theorem EndsWith.of_alike {token : TokenType} (hends : EndsWith options id s context token) :
    EndsWith options id s context' token := by
  obtain ⟨hatEnd, ⟨rfl, htoken⟩ | ⟨c, rfl, hempty, heof, htoken⟩⟩ := hends
  · exact ⟨hatEnd, Or.inl ⟨by simpa using hsame.symm, htoken⟩⟩
  · obtain ⟨c', hc', hskeleton⟩ := Option.map_eq_some_iff.mp hsame.symm
    refine ⟨hatEnd, Or.inr ⟨c', hc', ?_, heof, htoken⟩⟩
    rw [← Context.isEmpty_skeleton, hskeleton, Context.isEmpty_skeleton, hempty]

omit [NodeDigest] in
/-- A rule returns through contexts of the same structure alike. -/
theorem Returns.of_alike {c : Context} (hreturns : Returns s context c) :
    ∃ c', Returns s context' c' ∧ c.skeleton = c'.skeleton := by
  obtain ⟨hstop, rfl, hempty⟩ := hreturns
  obtain ⟨c', hc', hskeleton⟩ := Option.map_eq_some_iff.mp hsame.symm
  refine ⟨c', ⟨hstop, hc', ?_⟩, hskeleton.symm⟩
  rw [← Context.isEmpty_skeleton, hskeleton, Context.isEmpty_skeleton, hempty]

omit [NodeDigest] in
/-- A walk goes on alike in contexts of the same structure. -/
theorem GoesOn.of_alike (hgoes : GoesOn options id s context) : GoesOn options id s context' := by
  refine ⟨fun token hends => hgoes.1 token (hends.of_alike hsame.symm), fun c hreturns => ?_⟩
  obtain ⟨c', hreturns', -⟩ := hreturns.of_alike hsame.symm
  exact hgoes.2 c' hreturns'

/-- A transition leads to alike configurations from contexts of the same structure. -/
theorem EdgeLeads.of_alike {t : Transition} {k : Configuration}
    (hleads : EdgeLeads options context t k) :
    ∃ k', EdgeLeads options context' t k' ∧ Alike k k' := by
  cases hleads with
  | move hmoves => exact ⟨_, .move hmoves, rfl, hsame⟩
  | call next hkind =>
    refine ⟨_, .call next hkind, rfl, ?_⟩
    rw [Option.map_some, Option.map_some, Context.skeleton_singleton, Context.skeleton_singleton,
      hsame]

end

omit [NodeDigest] in
/-- Contexts of the same structure have entries of the same structure. -/
theorem exists_entry_of_skeleton_eq {c c' : Context} (hsame : c.skeleton = c'.skeleton)
    {e : Entry Context} (he : e ∈ c.entries) : ∃ e' ∈ c'.entries,
      e'.returnState = e.returnState ∧
        e.parent.map Context.skeleton = e'.parent.map Context.skeleton := by
  have hmem : Context.entrySkeleton e ∈ c'.entries.map Context.entrySkeleton := by
    rw [← Context.entries_skeleton, ← hsame, Context.entries_skeleton]
    exact List.mem_map_of_mem he
  obtain ⟨e', he', heq⟩ := List.mem_map.mp hmem
  rw [Context.entrySkeleton_eq, Context.entrySkeleton_eq, Entry.mk.injEq] at heq
  exact ⟨e', he', heq.2, heq.1.symm⟩

omit [NodeDigest] in
/-- Alike configurations contribute the same tokens. -/
theorem Contributes.of_alike {k k' : Configuration} {token : TokenType}
    (hcontributes : Contributes net options k token) (halike : Alike k k') :
    Contributes net options k' token := by
  obtain ⟨id', context'⟩ := k'
  obtain ⟨hid, hsame⟩ := halike
  cases hcontributes <;> simp only at hid hsame <;> subst hid
  case ends hstate hends => exact .ends hstate (hends.of_alike hsame)
  case bottom hstate hreturns he hreturn heof =>
    obtain ⟨c', hreturns', hskeleton⟩ := hreturns.of_alike hsame
    obtain ⟨e', he', hreturn', -⟩ := exists_entry_of_skeleton_eq hskeleton he
    exact .bottom hstate hreturns' he' (hreturn'.trans hreturn) heof
  case edge hstate hgoes ht htoken => exact .edge hstate (hgoes.of_alike hsame) ht htoken

/-- Alike configurations lead to alike configurations. -/
theorem Leads.of_alike {k k' k₁ : Configuration} (hleads : Leads net options k k₁)
    (halike : Alike k k') : ∃ k₁', Leads net options k' k₁' ∧ Alike k₁ k₁' := by
  obtain ⟨id', context'⟩ := k'
  obtain ⟨hid, hsame⟩ := halike
  cases hleads <;> simp only at hid hsame <;> subst hid
  case back hstate hreturns he hreturn =>
    obtain ⟨c', hreturns', hskeleton⟩ := hreturns.of_alike hsame
    obtain ⟨e', he', hreturn', hparent⟩ := exists_entry_of_skeleton_eq hskeleton he
    exact ⟨_, .back hstate hreturns' he' (hreturn' ▸ hreturn), by rw [hreturn'], hparent⟩
  case edge hstate hgoes ht hedge =>
    obtain ⟨k₁', hedge', halike'⟩ := hedge.of_alike hsame
    exact ⟨k₁', .edge hstate (hgoes.of_alike hsame) ht hedge', halike'⟩

end Lookahead

end TransitionNetwork
