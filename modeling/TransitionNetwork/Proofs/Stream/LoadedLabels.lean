import TransitionNetwork.Proofs.Network.BypassLanguage

/-!
# Labels of loaded networks

Whatever holds of all transitions that consume nothing, of those that were read from units and of
those that consume the token of a bypass, holds of all transitions of a loaded network. So no
transition of a loaded network consumes the marker that lookahead sets hold for the end of a rule,
which lies below the end of the input, and the sets that transitions consume have canonical
intervals.
-/

namespace TransitionNetwork

/-- The property is one of labels: it depends on the kind of a transition alone, and transitions
that consume nothing have it. -/
structure Transition.OfLabels (P : Transition → Prop) : Prop where
  of_kind : ∀ {t t' : Transition}, t'.kind = t.kind → P t → P t'
  of_isEpsilon : ∀ {t : Transition}, t.isEpsilon → P t

/-- All transitions of the network have the property. -/
def Network.AllTransitions (P : Transition → Prop) (net : Network) : Prop :=
  ∀ s ∈ net.states, ∀ t ∈ s.transitions, P t

variable {P : Transition → Prop}

/-- What actions refer to is no label. -/
theorem Transition.OfLabels.withoutAction (hP : Transition.OfLabels P) (t : Transition) :
    P t.withoutAction ↔ P t := by
  obtain ⟨target, kind⟩ := t
  cases kind with
  | action => exact ⟨fun _ => hP.of_isEpsilon rfl, fun _ => hP.of_isEpsilon rfl⟩
  | _ => rfl

/-- A property of labels is seen in the view without actions. -/
theorem Transition.OfLabels.withoutActions (hP : Transition.OfLabels P) (s : State) :
    (∀ t ∈ s.withoutActions.transitions, P t) ↔ ∀ t ∈ s.transitions, P t := by
  simp [State.withoutActions, hP.withoutAction]

/-! ## Networks without bypasses -/

namespace Network

variable {net net' : Network}

/-- Steps that keep the property of each state keep it for the network. -/
theorem AllTransitions.of_keeps (h : net.AllTransitions P)
    (hkeeps : Keeps (fun s => ∀ t ∈ s.transitions, P t) net net') : net'.AllTransitions P := by
  intro s' hs'
  obtain ⟨k, hk⟩ := mem_states.mp hs'
  obtain ⟨s, hs, hsame⟩ := hkeeps.exists_of_state? hk
  exact hsame ▸ h s (mem_states.mpr ⟨k, hs⟩)

/-- A part of the states that depends on their transitions is kept if these are. -/
theorem Keeps.forall_transitions (h : Keeps State.transitions net net') :
    Keeps (fun s => ∀ t ∈ s.transitions, P t) net net' := h.comp fun ts => ∀ t ∈ ts, P t

end Network

namespace Stream

open Decoder

variable {w : Decoder.Written}

/-- The transitions of a linked network are those that were read and return transitions. -/
theorem allTransitions_linked (hP : Transition.OfLabels P)
    (hread : ∀ (net : Network) (t : Transition), t.Writable net → P t) (hw : WellRead w)
    {linked : Network} (h : w.linked = .ok linked) : linked.AllTransitions P := by
  obtain ⟨returns, hreturns, -, hrest⟩ := linked_eq_ok h
  intro s hs t ht
  obtain ⟨k, hk⟩ := Network.mem_states.mp hs
  rw [transitions_linked hw.transitions hrest k s hk] at ht
  rcases List.mem_append.mp ht with ht | ht
  · obtain ⟨edge, hedge, rfl⟩ := List.mem_map.mp ht
    exact hread _ _ (hw.edges edge (List.mem_of_mem_filter hedge)).2
  · obtain ⟨outermost, hkind⟩ := epsilon_of_mem_returns hreturns t ht
    exact hP.of_isEpsilon (by rw [Transition.isEpsilon, hkind]; rfl)

/-- Behind linking, a load without bypass transitions changes no label. -/
theorem Loaded.allTransitions (hP : Transition.OfLabels P)
    (hread : ∀ (net : Network) (t : Transition), t.Writable net → P t) {options : LoadOptions}
    {linked result net : Network} {ids : List StateId}
    (h : Loaded options w linked ids result net) : net.AllTransitions P := by
  have hresult : Network.Keeps (fun s => ∀ t ∈ s.transitions, P t) (linked.addDecisions ids)
      result := by
    intro k
    have hsame := congrArg (fun net => (net.state? k).map fun s => ∀ t ∈ s.transitions, P t)
      h.withoutActions
    simpa only [Network.state?_withoutActions, Option.map_map, Function.comp_def,
      hP.withoutActions] using hsame
  rw [h.marked]
  exact (allTransitions_linked hP hread h.wellRead h.linkedOk).of_keeps
    (((linked.keeps_addDecisions ids).comp State.transitions).forall_transitions.trans
      (hresult.trans
        (result.revises_markPrecedenceDecisions.2.keeps.comp State.transitions).forall_transitions))

end Stream

/-! ## Networks with bypasses -/

namespace Network

/-- A bypass adds one label, the token of its rule. -/
theorem Bypassed.allTransitions (hP : Transition.OfLabels P) {net net' : Network} {rule : RuleIndex}
    {start stop : StateId} {token : TokenType} {first : State} {body : List Transition}
    (h : Bypassed net net' rule start stop token first body) (hnet : net.AllTransitions P)
    (htoken : ∀ target, P (.atom target token)) : net'.AllTransitions P := by
  have hredirected {ts ts' : List Transition} (hts : ∀ t ∈ ts, P t)
      (hrelated : List.Forall₂ (Transition.Redirected stop (net.nextId + 1)) ts ts') :
      ∀ t' ∈ ts', P t' := by
    intro t' ht'
    obtain ⟨t, ht, rfl | ⟨-, rfl⟩⟩ := exists_of_mem_forall₂ hrelated ht'
    · exact hts t' ht
    · exact hP.of_kind (t := t) rfl (hts t ht)
  have hsingle {target : StateId} : ∀ t ∈ [Transition.epsilon target], P t := by
    intro t ht
    rw [List.mem_singleton.mp ht]
    exact hP.of_isEpsilon rfl
  intro s' hs'
  obtain ⟨k, hk⟩ := mem_states.mp hs'
  rcases h.state_cases hk with ⟨-, s, hs, hrel⟩ | ⟨-, rfl⟩ | ⟨-, -, -, -, htransitions⟩ | ⟨-, rfl⟩ |
    ⟨-, rfl⟩
  · exact hredirected (hnet s (mem_states.mpr ⟨k, hs⟩)) hrel.transitions
  · exact hsingle
  · rw [htransitions]
    exact List.forall_mem_append.mpr
      ⟨hredirected (hnet first (mem_states.mpr ⟨start, h.found⟩)) h.moved, hsingle⟩
  · exact hsingle
  · intro t ht
    rw [List.mem_singleton.mp ht]
    exact htoken _

/-- The tokens of bypasses lie behind the vocabulary, and bypasses add no other labels. -/
theorem AllTransitions.of_addBypasses (hP : Transition.OfLabels P) {net net' : Network}
    (hnet : net.AllTransitions P) (hreferenced : net.WellReferenced)
    (hmax : Token.eof ≤ net.maxTokenType)
    (htokens : ∀ token target, Token.eof ≤ token → P (.atom target token))
    (h : net.addBypasses = .ok net') : net'.AllTransitions P := by
  refine (foldlM_addBypass (P := fun reached => reached.WellReferenced ∧ reached.AllTransitions P ∧
    reached.ruleTokenTypes = net.bypassTokenTypes) ?_ h
      ⟨hreferenced.withTokenTypes _, hnet, rfl⟩).2.1
  rintro reached next rule ⟨hreached, hall, hsame⟩ hnext
  obtain ⟨start, stop, token, first, body, hadded⟩ := exists_bypassAdded hreached hnext
  have hmem : token ∈ net.bypassTokenTypes := hsame ▸ List.mem_of_getElem? hadded.ruleTokenType
  have htoken : Token.eof ≤ token :=
    Int.le_of_lt (Int.lt_of_le_of_lt hmax (bounds_of_mem_bypassTokenTypes hmem).1)
  exact ⟨hreached.of_addBypass hnext,
    hadded.toBypassed.allTransitions hP hall fun target => htokens token target htoken,
    hadded.ruleTokenTypes_eq.trans hsame⟩

/-! ## Loaded networks -/

/-- What holds of networks that were loaded without bypasses, and is kept when bypasses are added to
such a network, holds of every loaded network. -/
theorem load_induct {P : Network → Prop} {options : LoadOptions} {units : List UInt16}
    {net : Network} (h : load options units = .ok net)
    (plain : ∀ {options w linked ids result net}, Stream.Loaded options w linked ids result net →
      P net)
    (bypassed : ∀ {options w linked ids result net net'},
      Stream.Loaded options w linked ids result net → net.addBypasses = .ok net' → P net') :
    P net := by
  obtain ⟨net', hplain, hnet⟩ := exists_load_of_load h
  obtain ⟨w, cursor, linked, ids, result, -, hloaded, -⟩ := Stream.exists_loaded hplain
  rcases hnet with rfl | hbypasses
  · exact plain hloaded
  · exact bypassed hloaded hbypasses

/-- A property of labels holds of all transitions of a loaded network if those that units stand for
have it, and those that consume a token above the end of the input. -/
theorem allTransitions_of_load (hP : Transition.OfLabels P)
    (hread : ∀ (net : Network) (t : Transition), t.Writable net → P t)
    (htokens : ∀ token target, Token.eof ≤ token → P (.atom target token)) {options : LoadOptions}
    {units : List UInt16} {net : Network} (h : load options units = .ok net) :
    net.AllTransitions P :=
  load_induct h (fun hloaded => hloaded.allTransitions hP hread) fun hloaded hbypasses =>
    (hloaded.allTransitions hP hread).of_addBypasses hP hloaded.wellReferenced
      hloaded.maxTokenType.1 htokens hbypasses

end Network

/-! ## Labels of the vocabulary -/

/-- The transition consumes nothing below the end of the input. -/
def Transition.Labelled (t : Transition) : Prop :=
  ∀ greatest token : TokenType, t.accepts token Token.firstUser greatest → Token.eof ≤ token

/-- The state has such transitions only. -/
def State.Labelled (s : State) : Prop := ∀ t ∈ s.transitions, t.Labelled

/-- The network has such transitions only. -/
def Network.Labelled (net : Network) : Prop := ∀ s ∈ net.states, s.Labelled

/-- What a transition consumes is a property of its label. -/
theorem Transition.ofLabels_labelled : Transition.OfLabels Transition.Labelled where
  of_kind hkind ht greatest token haccepts := by
    rw [accepts, hkind] at haccepts
    exact ht greatest token haccepts
  of_isEpsilon {t} ht greatest token haccepts := by
    obtain ⟨target, kind⟩ := t
    cases kind with
    | epsilon | rule | predicate | precedence | action => cases haccepts
    | range | atom | set | notSet | wildcard => cases ht

/-- The vocabulary begins behind the end of the input. -/
theorem eof_le_of_firstUser_le {token : TokenType} (h : Token.firstUser ≤ token) :
    Token.eof ≤ token := by
  have hfirst : Token.firstUser = 1 := rfl
  have heof : Token.eof = -1 := rfl
  lia

/-- A transition that can be written has labels that units stand for. -/
theorem Transition.labelled_of_writable {net : Network} {t : Transition} (h : t.Writable net) :
    t.Labelled := by
  intro greatest token haccepts
  have heof : Token.eof = -1 := rfl
  obtain ⟨target, kind⟩ := t
  obtain ⟨-, hkind⟩ := h
  cases kind with
  | epsilon | rule | predicate | precedence | action => cases haccepts
  | range start stop =>
    rw [accepts, Bool.and_eq_true, decide_eq_true_eq, decide_eq_true_eq] at haccepts
    have hstart := hkind.1.1
    lia
  | atom label =>
    rw [accepts, decide_eq_true_eq] at haccepts
    have hlabel : Stream.IsValue label := hkind
    exact haccepts ▸ hlabel.1
  | set label =>
    change label.intervals.any (·.contains token) = true at haccepts
    rw [List.any_eq_true] at haccepts
    obtain ⟨i, hi, htoken⟩ := haccepts
    rw [Interval.contains, Bool.and_eq_true, decide_eq_true_eq] at htoken
    have hlabel : label.Writable := hkind
    exact Int.le_trans (hlabel.bounds i hi).1 htoken.1
  | notSet excluded =>
    rw [accepts, Bool.and_eq_true, Bool.and_eq_true, decide_eq_true_eq] at haccepts
    exact eof_le_of_firstUser_le haccepts.1.1
  | wildcard =>
    rw [accepts, Bool.and_eq_true, decide_eq_true_eq] at haccepts
    exact eof_le_of_firstUser_le haccepts.1

namespace Network

/-- No transition of a loaded network consumes anything below the end of the input. -/
theorem labelled_of_load {options : LoadOptions} {units : List UInt16} {net : Network}
    (h : load options units = .ok net) : net.Labelled := by
  refine allTransitions_of_load Transition.ofLabels_labelled
    (fun _ _ => Transition.labelled_of_writable) (fun token target htoken => ?_) h
  intro greatest other haccepts
  exact of_decide_eq_true haccepts ▸ htoken

end Network

/-! ## Sets -/

/-- The set that the transition consumes, or does not consume, has canonical intervals. -/
def Transition.SetCanonical (t : Transition) : Prop :=
  ∀ used ∈ Stream.usedSet? t, IntervalSet.Canonical used.intervals

/-- That a set is canonical is a property of a label. -/
theorem Transition.ofLabels_setCanonical : Transition.OfLabels Transition.SetCanonical where
  of_kind hkind ht used hused := by
    rw [Stream.usedSet?, hkind] at hused
    exact ht used hused
  of_isEpsilon {t} ht used hused := by
    obtain ⟨target, kind⟩ := t
    cases kind with
    | set | notSet => cases ht
    | _ => cases hused

/-- All sets that transitions of a loaded network refer to have canonical intervals. -/
theorem Network.canonical_of_load {options : LoadOptions} {units : List UInt16} {net : Network}
    (h : load options units = .ok net) :
    ∀ used ∈ Stream.usedSets net, IntervalSet.Canonical used.intervals := by
  intro used hused
  obtain ⟨t, ht, htused⟩ := List.mem_filterMap.mp (List.mem_eraseDups.mp hused)
  obtain ⟨s, hs, ht⟩ := List.mem_flatMap.mp ht
  refine allTransitions_of_load Transition.ofLabels_setCanonical (fun _ _ hwritable _ hfound =>
    (Stream.writable_of_usedSet? hwritable hfound).canonical) (fun _ _ _ _ hfound => ?_) h s hs t ht
    used htused
  cases hfound

end TransitionNetwork
