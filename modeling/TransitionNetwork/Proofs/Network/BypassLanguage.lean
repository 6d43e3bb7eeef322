import TransitionNetwork.Proofs.Network.Language
import TransitionNetwork.Proofs.Stream.LoadedReferences

/-!
# The languages of networks with bypasses

A bypass simulates the network without it: what the moved body consumes is consumed between the same
places, with two more moves through the block. The other way round, a path in the network with the
bypass that never consumes the token of the rule goes through the body, and forgetting the block
makes it a path in the network without. So the languages agree on words without the tokens that
stand for rules, and the token of a rule leads from its first state to where its body ends.
-/

namespace TransitionNetwork

namespace Network

/-- The state that a state stands for in the network without a bypass: the block stands for the
first state of its rule and for where the body ends. -/
def blockOrigin (net : Network) (start stop k : StateId) : StateId :=
  if k = net.nextId then start else if k = net.nextId + 1 then stop else k

/-- A state that was there before stands for itself. -/
theorem blockOrigin_of_state? {net : Network} {k : StateId} (hk : (net.state? k).isSome)
    (start stop : StateId) : net.blockOrigin start stop k = k := by
  obtain ⟨s, hs⟩ := Option.isSome_iff_exists.mp hk
  have hlt : k < net.nextId := lt_size_of_state? hs
  rw [blockOrigin, if_neg (by lia), if_neg (by lia)]

/-- The state that consumes the token of the rule was not there before. -/
theorem ne_choice_of_state? {net : Network} {k : StateId} {s : State} (hs : net.state? k = some s) :
    k ≠ net.nextId + 2 := by
  have hlt : k < net.nextId := lt_size_of_state? hs
  lia

/-- The place that a place stands for. -/
def placeOrigin (net : Network) (start stop : StateId) (place : Place) : Place :=
  ⟨net.blockOrigin start stop place.state, place.pending.map (net.blockOrigin start stop)⟩

namespace Bypassed

variable {net net' : Network} {rule : RuleIndex} {start stop : StateId} {token : TokenType}
  {first : State} {body : List Transition}
  (h : Bypassed net net' rule start stop token first body)

include h

/-! ## The network simulates what it was -/

/-- From the end of the block one comes to where the body ends. -/
theorem path_closing (pending : List StateId) :
    net'.Path ⟨net.nextId + 1, pending⟩ [] ⟨stop, pending⟩ :=
  (Move.along h.closing rfl (List.mem_singleton_self _) (Transition.leads_epsilon _ _ _)).path

/-- From the first state of the rule one comes into the block. -/
theorem path_opening (hgoes : first.kind.isRuleStop = false) (pending : List StateId) :
    net'.Path ⟨start, pending⟩ [] ⟨net.nextId, pending⟩ :=
  (Move.along h.leading hgoes (List.mem_singleton_self _) (Transition.leads_epsilon _ _ _)).path

/-- A turned transition leads where it led, through the end of the block. -/
theorem path_of_redirected {id : StateId} {s' : State} (hs' : net'.state? id = some s')
    (hgoes : s'.kind.isRuleStop = false) {t t' : Transition} (ht' : t' ∈ s'.transitions)
    (hredirected : t.Redirected stop (net.nextId + 1) t') {pending : List StateId}
    {label : Option TokenType} {place : Place}
    (hleads : t.Leads net.maxTokenType pending label place) :
    net'.Path ⟨id, pending⟩ label.toList place := by
  rw [← h.maxTokenType_eq] at hleads
  rcases hredirected with rfl | ⟨htarget, rfl⟩
  · exact (Move.along hs' hgoes ht' hleads).path
  · have hpath {next : Place} {label : Option TokenType}
        (hleads : Transition.Leads net'.maxTokenType { t with target := net.nextId + 1 } pending
          label ⟨net.nextId + 1, next.pending⟩) (hnext : next.state = stop) :
        net'.Path ⟨id, pending⟩ label.toList next := by
      have hback := (Move.along hs' hgoes ht' hleads).path.trans (h.path_closing next.pending)
      rw [List.append_nil, ← hnext] at hback
      exact hback
    cases hleads with
    | call hfollow => exact hpath (.call hfollow) htarget
    | pass hepsilon hnone => exact hpath (.pass hepsilon hnone) htarget
    | consume haccepts => exact hpath (.consume haccepts) htarget

/-- Every move is made by a path. -/
theorem path_of_move {place place' : Place}
    {label : Option TokenType} (hmove : net.Move place label place') :
    net'.Path place label.toList place' := by
  cases hmove with
  | back hs hstop =>
    obtain ⟨s', hs', hkind⟩ := kind?_eq_some.mp (h.kind?_eq hs)
    exact (Move.back hs' (hkind ▸ hstop)).path
  | @along id pending s t label place hs hgoes ht hleads =>
    rcases eq_or_ne id start with rfl | hne
    · cases h.found.symm.trans hs
      obtain ⟨opening, hopening, -, -, hkind, htransitions⟩ := h.opening
      obtain ⟨t', ht', hredirected⟩ := exists_of_mem_forall₂ h.moved.flip ht
      refine (h.path_opening hgoes pending).trans
        (h.path_of_redirected hopening (by rw [hkind]; rfl) ?_ hredirected hleads)
      rw [htransitions]
      exact List.mem_append_left _ ht'
    · obtain ⟨s', hs', hrel⟩ := h.redirected hs hne
      obtain ⟨t', ht', hredirected⟩ := exists_of_mem_forall₂ hrel.transitions.flip ht
      exact h.path_of_redirected hs' (hrel.kind ▸ hgoes) ht' hredirected hleads

/-- Every path is still there. -/
theorem path {place place' : Place} {word : List TokenType}
    (hpath : net.Path place word place') : net'.Path place word place' := by
  induction hpath with
  | here => exact .here _
  | move hmove _ ih => exact (h.path_of_move hmove).trans ih

/-- The token of the rule leads from its first state to where its body ends. -/
theorem path_token (hgoes : first.kind.isRuleStop = false) (pending : List StateId) :
    net'.Path ⟨start, pending⟩ [token] ⟨stop, pending⟩ := by
  obtain ⟨opening, hopening, -, -, hkind, htransitions⟩ := h.opening
  have hchoose : net'.Path ⟨net.nextId, pending⟩ [] ⟨net.nextId + 2, pending⟩ := by
    refine (Move.along hopening (by rw [hkind]; rfl) ?_ (Transition.leads_epsilon _ _ _)).path
    rw [htransitions]
    exact List.mem_append_right _ (List.mem_singleton_self _)
  have hconsume : net'.Path ⟨net.nextId + 2, pending⟩ [token] ⟨net.nextId + 1, pending⟩ :=
    (Move.along h.choice rfl (List.mem_singleton_self _) (.consume (decide_eq_true rfl))).path
  exact (h.path_opening hgoes pending).trans
    (hchoose.trans (hconsume.trans (h.path_closing pending)))

/-! ## The network simulates what it becomes -/

/-- A state that ends a rule is an old one: neither the block nor the first state of the rule
does. -/
theorem exists_of_isRuleStop (hgoes : first.kind.isRuleStop = false) {k : StateId} {s' : State}
    (hs' : net'.state? k = some s') (hstop : s'.kind.isRuleStop = true) :
    ∃ s, net.state? k = some s ∧ s.kind.isRuleStop = true := by
  rcases h.state_cases hs' with ⟨-, s, hs, hrel⟩ | ⟨rfl, rfl⟩ |
    ⟨rfl, -, -, hkind, -⟩ | ⟨rfl, rfl⟩ | ⟨rfl, rfl⟩
  · exact ⟨s, hs, hrel.kind ▸ hstop⟩
  · rw [hgoes] at hstop
    cases hstop
  · rw [hkind] at hstop
    cases hstop
  · cases hstop
  · cases hstop

/-- A turned transition leads from and to the places that its own places stand for. -/
theorem leads_of_redirected {t t' : Transition} (ht : t.Refers net)
    (hredirected : t.Redirected stop (net.nextId + 1) t') {pending : List StateId}
    {label : Option TokenType} {place : Place}
    (hleads : t'.Leads net'.maxTokenType pending label place) :
    t.Leads net.maxTokenType (pending.map (net.blockOrigin start stop)) label
      (net.placeOrigin start stop place) := by
  have htarget : net.blockOrigin start stop t'.target = t.target := by
    rcases hredirected with rfl | ⟨htarget, rfl⟩
    · exact blockOrigin_of_state? ht.target start stop
    · rw [blockOrigin, if_neg (Nat.succ_ne_self _), if_pos rfl, htarget]
  have hkind : t'.kind = t.kind := by
    rcases hredirected with rfl | ⟨-, rfl⟩ <;> rfl
  rw [h.maxTokenType_eq] at hleads
  clear hredirected
  -- The two transitions differ in their targets only.
  obtain ⟨target, kind⟩ := t
  obtain ⟨target', kind'⟩ := t'
  subst hkind
  cases hleads with
  | @call follow hfollow =>
    have hsame := blockOrigin_of_state? (ht.call follow hfollow).2 start stop
    rw [placeOrigin, htarget, List.map_cons, hsame]
    exact .call hfollow
  | pass hepsilon hnone =>
    rw [placeOrigin, htarget]
    exact .pass hepsilon hnone
  | consume haccepts =>
    rw [placeOrigin, htarget]
    exact .consume haccepts

/-- A move along a turned transition is one between the places that its places stand for. -/
theorem origin_of_redirected (hnet : net.WellReferenced) {k : StateId} {s : State}
    (hs : net.state? k = some s) (hgoes : s.kind.isRuleStop = false) {ts : List Transition}
    (hredirected : List.Forall₂ (Transition.Redirected stop (net.nextId + 1)) s.transitions ts)
    {t' : Transition} (ht' : t' ∈ ts) {pending : List StateId} {label : Option TokenType}
    {place : Place} (hleads : t'.Leads net'.maxTokenType pending label place) :
    net.Path ⟨k, pending.map (net.blockOrigin start stop)⟩ label.toList
      (net.placeOrigin start stop place) := by
  obtain ⟨t, ht, hrel⟩ := exists_of_mem_forall₂ hredirected ht'
  have hrefers := hnet.transitions s (mem_states.mpr ⟨k, hs⟩) t ht
  exact (Move.along hs hgoes ht (h.leads_of_redirected hrefers hrel hleads)).path

/-- A move that does not consume the token of the rule is one between the places that its places
stand for, or none at all, unless it leads to where the token has to be consumed. -/
theorem origin_of_move (hnet : net.WellReferenced) (hgoes : first.kind.isRuleStop = false)
    (hlive : (net.state? stop).isSome) {place place' : Place} {label : Option TokenType}
    (hmove : net'.Move place label place') (hlabel : label ≠ some token) :
    place.state ≠ net.nextId + 2 ∧ (place'.state = net.nextId + 2 ∨
      net.Path (net.placeOrigin start stop place) label.toList
        (net.placeOrigin start stop place')) := by
  have hold {k : StateId} {s : State} (hs : net.state? k = some s) :
      net.blockOrigin start stop k = k := blockOrigin_of_state? (by rw [hs]; rfl) start stop
  have hopening : net.blockOrigin start stop net.nextId = start := if_pos rfl
  have hclosing : net.blockOrigin start stop (net.nextId + 1) = stop := by
    rw [blockOrigin, if_neg (Nat.succ_ne_self _), if_pos rfl]
  cases hmove with
  | @back id follow pending s' hs' hisStop =>
    obtain ⟨s, hs, hstop⟩ := h.exists_of_isRuleStop hgoes hs' hisStop
    refine ⟨ne_choice_of_state? hs, Or.inr ?_⟩
    rw [placeOrigin, hold hs, List.map_cons]
    exact (Move.back hs hstop).path
  | @along id pending s' t' label place hs' hgoes' ht' hleads =>
    rcases h.state_cases hs' with ⟨-, s, hs, hrel⟩ | ⟨rfl, rfl⟩ |
      ⟨rfl, -, -, -, htransitions⟩ | ⟨rfl, rfl⟩ | ⟨rfl, rfl⟩
    · refine ⟨ne_choice_of_state? hs, Or.inr ?_⟩
      rw [placeOrigin, hold hs]
      exact h.origin_of_redirected hnet hs (hrel.kind ▸ hgoes') hrel.transitions ht' hleads
    -- The first state and the block stand for the same state: there is nothing to do.
    · rw [List.mem_singleton.mp ht'] at hleads
      obtain ⟨rfl, rfl⟩ := Transition.eq_of_leads_epsilon hleads
      refine ⟨ne_choice_of_state? h.found, Or.inr ?_⟩
      rw [placeOrigin, placeOrigin, hold h.found, hopening]
      exact .here _
    · refine ⟨by lia, ?_⟩
      rw [htransitions] at ht'
      rcases List.mem_append.mp ht' with ht' | ht'
      · rw [placeOrigin, hopening]
        exact Or.inr (h.origin_of_redirected hnet h.found hgoes h.moved ht' hleads)
      -- This is the way to the choice, where the token would have to be consumed.
      · rw [List.mem_singleton.mp ht'] at hleads
        rw [(Transition.eq_of_leads_epsilon hleads).2]
        exact Or.inl rfl
    · rw [List.mem_singleton.mp ht'] at hleads
      obtain ⟨rfl, rfl⟩ := Transition.eq_of_leads_epsilon hleads
      obtain ⟨s, hs⟩ := Option.isSome_iff_exists.mp hlive
      refine ⟨by lia, Or.inr ?_⟩
      rw [placeOrigin, placeOrigin, hclosing, hold hs]
      exact .here _
    · rw [List.mem_singleton.mp ht'] at hleads
      exact absurd (Transition.eq_of_leads_atom hleads) hlabel

/-- A path that never consumes the token of the rule is one between the places that its places stand
for. -/
theorem origin_of_path (hnet : net.WellReferenced) (hgoes : first.kind.isRuleStop = false)
    (hlive : (net.state? stop).isSome) {place place' : Place} {word : List TokenType}
    (hpath : net'.Path place word place') (htoken : token ∉ word)
    (hlast : place'.state ≠ net.nextId + 2) :
    place.state ≠ net.nextId + 2 ∧
      net.Path (net.placeOrigin start stop place) word (net.placeOrigin start stop place') := by
  induction hpath with
  | here => exact ⟨hlast, .here _⟩
  | @move place next place' label word hmove _ ih =>
    have hlabel : label ≠ some token := by
      rintro rfl
      exact htoken (List.mem_append_left _ (List.mem_singleton_self token))
    obtain ⟨hnext, hrest⟩ := ih (fun hmem => htoken (List.mem_append_right _ hmem)) hlast
    obtain ⟨hplace, hmoves⟩ := h.origin_of_move hnet hgoes hlive hmove hlabel
    exact ⟨hplace, (hmoves.resolve_left hnext).trans hrest⟩

/-- On words without the token of the bypassed rule the language of every rule is what it was. -/
theorem mem_language_of_mem (hnet : net.WellReferenced) (hgoes : first.kind.isRuleStop = false)
    (hlive : (net.state? stop).isSome) {word : List TokenType} (htoken : token ∉ word)
    {other : RuleIndex} (hword : word ∈ net'.language other) : word ∈ net.language other := by
  obtain ⟨entry, exit, hentry, hexit, hpath⟩ := hword
  rw [ruleStart?, h.ruleStarts_eq] at hentry
  have hentryLive := isSome_of_any_kind? (hnet.ruleStarts entry (List.mem_of_getElem? hentry))
  obtain ⟨s', hs', hisStop⟩ := any_kind?_iff.mp hexit
  obtain ⟨s, hs, hstop⟩ := h.exists_of_isRuleStop hgoes hs' hisStop
  obtain ⟨-, horigin⟩ := h.origin_of_path hnet hgoes hlive hpath htoken (ne_choice_of_state? hs)
  rw [placeOrigin, placeOrigin, blockOrigin_of_state? hentryLive,
    blockOrigin_of_state? (by rw [hs]; rfl)] at horigin
  exact ⟨entry, exit, hentry, any_kind?_iff.mpr ⟨s, hs, hstop⟩, horigin⟩

end Bypassed

/-! ## Bypasses of several rules -/

/-- What bypasses keep: the tables of rules, the paths, the languages on words without tokens that
stand for rules, and which states end the bodies of rules at most. -/
structure KeepsPaths (net net' : Network) : Prop where
  ruleStarts : net'.ruleStarts = net.ruleStarts
  ruleTokenTypes : net'.ruleTokenTypes = net.ruleTokenTypes
  path : ∀ place word place', net.Path place word place' → net'.Path place word place'
  exit : ∀ id, (net.kind? id).any StateKind.isRuleStop → (net'.kind? id).any StateKind.isRuleStop
  language : ∀ word, (∀ token ∈ word, token ∉ net.ruleTokenTypes) → ∀ rule,
    word ∈ net'.language rule → word ∈ net.language rule
  endsBody : ∀ rule start stop, net.ruleStart? rule = some start →
    net'.EndsBody rule start stop → net.EndsBody rule start stop

namespace KeepsPaths

variable {net net' net'' : Network}

/-- A network keeps its own paths. -/
theorem refl (net : Network) : KeepsPaths net net where
  ruleStarts := rfl
  ruleTokenTypes := rfl
  path _ _ _ h := h
  exit _ h := h
  language _ _ _ h := h
  endsBody _ _ _ _ h := h

/-- Paths that are kept twice are kept. -/
theorem trans (h : KeepsPaths net net') (h' : KeepsPaths net' net'') : KeepsPaths net net'' where
  ruleStarts := h'.ruleStarts.trans h.ruleStarts
  ruleTokenTypes := h'.ruleTokenTypes.trans h.ruleTokenTypes
  path place word place' hpath := h'.path place word place' (h.path place word place' hpath)
  exit id hid := h'.exit id (h.exit id hid)
  language word htokens rule hword :=
    h.language word htokens rule (h'.language word (h.ruleTokenTypes ▸ htokens) rule hword)
  endsBody rule start stop hstart hends :=
    h.endsBody rule start stop hstart (h'.endsBody rule start stop (by
      rw [ruleStart?, h.ruleStarts]
      exact hstart) hends)

/-- The languages agree on words without tokens that stand for rules. -/
theorem mem_language_iff (h : KeepsPaths net net') {word : List TokenType}
    (htokens : ∀ token ∈ word, token ∉ net.ruleTokenTypes) (rule : RuleIndex) :
    word ∈ net'.language rule ↔ word ∈ net.language rule := by
  refine ⟨h.language word htokens rule, ?_⟩
  rintro ⟨start, stop, hstart, hstop, hpath⟩
  refine ⟨start, stop, ?_, h.exit stop hstop, h.path _ _ _ hpath⟩
  rw [ruleStart?, h.ruleStarts]
  exact hstart

end KeepsPaths

/-- The first state of a rule does not end it. -/
theorem BypassAdded.isRuleStop_first {net net' : Network} {rule : RuleIndex}
    {start stop : StateId} {token : TokenType} {first : State} {body : List Transition}
    (h : BypassAdded net net' rule start stop token first body) : first.kind.isRuleStop = false := by
  have hfirst := h.isRuleStart
  cases hkind : first.kind <;> rw [hkind] at hfirst <;> first | rfl | cases hfirst

/-- A state that ends the body of a rule behind a bypass did so in front of it. -/
theorem BypassAdded.endsBody_of_endsBody {net net' : Network} (hnet : net.WellReferenced)
    {rule : RuleIndex} {start stop : StateId} {token : TokenType} {first : State}
    {body : List Transition} (h : BypassAdded net net' rule start stop token first body)
    {other : RuleIndex} {entry exit : StateId} (hentry : net.ruleStart? other = some entry)
    (hends : net'.EndsBody other entry exit) : net.EndsBody other entry exit := by
  obtain ⟨s, hs, -⟩ := any_kind?_iff.mp (hnet.ruleStarts entry (List.mem_of_getElem? hentry))
  have hkind : net'.kind? entry = net.kind? entry := by
    rw [h.kind?_eq hs, kind?, hs, Option.map_some]
  rw [EndsBody, hkind] at hends
  rw [EndsBody]
  split at hends
  next hprecedence =>
    obtain ⟨s', hs', hrule, hloops⟩ := hends
    obtain ⟨s, hs, hrel, hbefore⟩ := (h.loopsStem h.isRuleStart).exists_entry hs' hloops
    rw [if_pos hprecedence]
    exact ⟨s, hs, hrel.rule ▸ hrule, hbefore⟩
  next hplain =>
    rw [if_neg hplain]
    rwa [ruleStop?, h.ruleStops_eq] at hends

/-- The bypass of one rule keeps the paths. -/
theorem BypassAdded.keepsPaths {net net' : Network} (hnet : net.WellReferenced) {rule : RuleIndex}
    {start stop : StateId} {token : TokenType} {first : State} {body : List Transition}
    (h : BypassAdded net net' rule start stop token first body) : KeepsPaths net net' := by
  obtain ⟨ending, hending, -⟩ := h.endsBody.exists_state? hnet
  have hlive : (net.state? stop).isSome := by rw [hending]; rfl
  exact {
    ruleStarts := h.ruleStarts_eq
    ruleTokenTypes := h.ruleTokenTypes_eq
    path := fun _ _ _ hpath => h.path hpath
    exit := fun id hid => by
      obtain ⟨s, hs, hisStop⟩ := any_kind?_iff.mp hid
      rw [h.kind?_eq hs]
      exact hisStop
    language := fun word hword other =>
      h.mem_language_of_mem hnet h.isRuleStop_first hlive fun hmem =>
        hword token hmem (List.mem_of_getElem? h.ruleTokenType)
    endsBody := fun _ _ _ => h.endsBody_of_endsBody hnet }

/-- Bypasses one after the other keep the references and the paths. -/
theorem keepsPaths_of_foldlM {net net' : Network} (hnet : net.WellReferenced)
    {rules : List RuleIndex} (h : rules.foldlM addBypass net = .ok net') :
    net'.WellReferenced ∧ KeepsPaths net net' := by
  refine foldlM_addBypass (P := fun reached => reached.WellReferenced ∧ KeepsPaths net reached)
    (fun reached next rule hreached hnext => ?_) h ⟨hnet, .refl net⟩
  obtain ⟨start, stop, token, first, body, hadded⟩ := exists_bypassAdded hreached.1 hnext
  exact ⟨hreached.1.of_addBypass hnext, hreached.2.trans (hadded.keepsPaths hreached.1)⟩

/-! ## Bypasses of all rules -/

/-- The network in which token types stand for rules, but no rule has a bypass yet. -/
def reserveTokens (net : Network) : Network := { net with ruleTokenTypes := net.bypassTokenTypes }

/-- The state that is chosen to end the body of a rule when it is the turn of that rule. -/
def ChosenEnd (net : Network) (rule : RuleIndex) (start stop : StateId) : Prop :=
  ∃ reached excluded, (List.range rule).foldlM addBypass net.reserveTokens = .ok reached ∧
    (reached.addBlock rule).bodyEnd rule start = .ok (stop, excluded)

variable {net net' : Network}

/-- Reserving tokens for the rules changes no language. -/
theorem language_reserveTokens (net : Network) (rule : RuleIndex) :
    net.reserveTokens.language rule = net.language rule := by
  have hstates : ∀ k, net.reserveTokens.state? k = net.state? k := fun _ => rfl
  have hmax : net.reserveTokens.maxTokenType = net.maxTokenType := rfl
  apply Set.ext
  intro word
  constructor
  · rintro ⟨start, stop, hstart, hstop, hpath⟩
    exact ⟨start, stop, hstart, hstop, hpath.of_state? net (fun k => (hstates k).symm) hmax.symm⟩
  · rintro ⟨start, stop, hstart, hstop, hpath⟩
    exact ⟨start, stop, hstart, hstop, hpath.of_state? net.reserveTokens hstates hmax⟩

/-- The tokens of the rules are numbered behind the vocabulary. -/
theorem getElem?_bypassTokenTypes {rule : RuleIndex} (h : rule < net.ruleCount) :
    net.bypassTokenTypes[rule]? = some (net.maxTokenType + (rule : Int) + 1) := by
  rw [bypassTokenTypes, List.getElem?_map, List.getElem?_range h, Option.map_some]

/-- The token types that stand for rules lie right behind those of the vocabulary. -/
theorem bounds_of_mem_bypassTokenTypes {token : TokenType} (h : token ∈ net.bypassTokenTypes) :
    net.maxTokenType < token ∧ token ≤ net.maxTokenType + net.ruleCount := by
  obtain ⟨rule, hrule, rfl⟩ := List.mem_map.mp h
  have hlt := List.mem_range.mp hrule
  constructor <;> lia

/-- When it is the turn of a rule, the rules in front of it have been given their bypasses. -/
theorem exists_turn (h : net.addBypasses = .ok net') {rule : RuleIndex}
    (hrule : rule < net.ruleCount) : ∃ before after,
      (List.range rule).foldlM addBypass net.reserveTokens = .ok before ∧
      before.addBypass rule = .ok after ∧
      ((List.range net.ruleCount).drop (rule + 1)).foldlM addBypass after = .ok net' := by
  have hlength : rule < (List.range net.ruleCount).length := by rwa [List.length_range]
  rw [addBypasses, ← List.take_append_drop rule (List.range net.ruleCount),
    List.drop_eq_getElem_cons hlength, List.getElem_range, List.take_range,
    Nat.min_eq_left (Nat.le_of_lt hrule), List.foldlM_append, bind_eq_ok] at h
  obtain ⟨before, hbefore, h⟩ := h
  rw [List.foldlM_cons, bind_eq_ok] at h
  obtain ⟨after, hafter, h⟩ := h
  exact ⟨before, after, hbefore, hafter, h⟩

/-- Bypasses leave the language of every rule as it was, up to words with tokens that stand for
rules, and let such a token lead from the first state of its rule to where the body ends. The
network is one that was loaded without bypasses, as it is when they are added. -/
theorem languages_of_addBypasses {verify : Bool} {units : List UInt16}
    (hload : load ⟨verify, false⟩ units = .ok net) (h : net.addBypasses = .ok net') :
    (∀ (rule : RuleIndex) (word : List TokenType),
      (∀ token ∈ word,
        ¬ (net.maxTokenType < token ∧ token ≤ net.maxTokenType + net.ruleCount)) →
      (word ∈ net'.language rule ↔ word ∈ net.language rule)) ∧
    ∀ rule < net.ruleCount, ∃ start token stop, net'.ruleStart? rule = some start ∧
      net'.ruleTokenType? rule = some token ∧ token = net.maxTokenType + (rule : Int) + 1 ∧
      net.ChosenEnd rule start stop ∧ net.EndsBody rule start stop ∧
      ∀ pending, net'.Path ⟨start, pending⟩ [token] ⟨stop, pending⟩ := by
  obtain ⟨w, cursor, linked, ids, result, -, hloaded, -⟩ := Stream.exists_loaded hload
  have hnet : net.reserveTokens.WellReferenced := hloaded.wellReferenced.withTokenTypes _
  refine ⟨fun rule word hword => ?_, fun rule hrule => ?_⟩
  · obtain ⟨-, hkeeps⟩ := keepsPaths_of_foldlM hnet h
    rw [← net.language_reserveTokens rule]
    exact hkeeps.mem_language_iff (fun token htoken hmem =>
      hword token htoken (bounds_of_mem_bypassTokenTypes hmem)) rule
  · obtain ⟨before, after, hbefore, hafter, hlater⟩ := exists_turn h hrule
    -- The path through the block is there once it is the turn of the rule, and stays there.
    obtain ⟨hbeforeNet, hkeeps⟩ := keepsPaths_of_foldlM hnet hbefore
    obtain ⟨start, stop, token, first, body, hadded⟩ := exists_bypassAdded hbeforeNet hafter
    obtain ⟨-, hkeeps'⟩ := keepsPaths_of_foldlM (hbeforeNet.of_addBypass hafter) hlater
    have hstarts := hkeeps.ruleStarts
    have htokens := hkeeps.ruleTokenTypes
    have hlast := (hadded.keepsPaths hbeforeNet).trans hkeeps'
    have hstart : net.ruleStart? rule = some start := by
      rw [← hadded.ruleStart, ruleStart?, ruleStart?, hstarts]
      rfl
    have htoken : token = net.maxTokenType + (rule : Int) + 1 := by
      have hfound := hadded.ruleTokenType
      rw [ruleTokenType?, htokens] at hfound
      exact Option.some.inj (hfound.symm.trans (getElem?_bypassTokenTypes hrule))
    obtain ⟨excluded, hchosen⟩ := hadded.chosen
    refine ⟨start, token, stop, ?_, ?_, htoken, ⟨before, excluded, hbefore, hchosen⟩,
      hkeeps.endsBody rule start stop hstart hadded.endsBody, fun pending => ?_⟩
    · rw [ruleStart?, hlast.ruleStarts]
      exact hadded.ruleStart
    · rw [ruleTokenType?, hlast.ruleTokenTypes]
      exact hadded.ruleTokenType
    · exact hkeeps'.path _ _ _ (hadded.path_token hadded.isRuleStop_first pending)

/-- In the parser with a loop, the token 4 stands for the second rule. -/
theorem languages_of_addBypasses_loopParser :
    ∃ net net', load ⟨true, false⟩ loopParserUnits = .ok net ∧ net.addBypasses = .ok net' ∧
      (∀ (rule : RuleIndex) (word : List TokenType), (∀ token ∈ word, ¬ (2 < token ∧ token ≤ 4)) →
        (word ∈ net'.language rule ↔ word ∈ net.language rule)) ∧
      ∃ start stop, net'.ruleStart? 1 = some start ∧ net.EndsBody 1 start stop ∧
        ∀ pending, net'.Path ⟨start, pending⟩ [4] ⟨stop, pending⟩ := by
  have hload : ((load ⟨true, false⟩ loopParserUnits).toOption.map fun net =>
      (net.maxTokenType, net.ruleCount, net.addBypasses.toOption.isSome)) = some (2, 2, true) := by
    decide +kernel
  obtain ⟨net, hnet, hfacts⟩ := Option.map_eq_some_iff.mp hload
  obtain ⟨hmax, hcount, hadded⟩ : net.maxTokenType = 2 ∧ net.ruleCount = 2 ∧
      net.addBypasses.toOption.isSome := by
    simpa only [Prod.mk.injEq] using hfacts
  obtain ⟨net', hnet'⟩ := Option.isSome_iff_exists.mp hadded
  have hok := eq_ok_of_toOption hnet
  have hok' := eq_ok_of_toOption hnet'
  obtain ⟨hlanguages, htokens⟩ := languages_of_addBypasses hok hok'
  obtain ⟨start, token, stop, hstart, -, rfl, -, hends, hpath⟩ := htokens 1 (by rw [hcount]; decide)
  rw [hmax, hcount] at hlanguages
  rw [hmax] at hpath
  exact ⟨net, net', hok, hok', hlanguages, start, stop, hstart, hends, hpath⟩

end Network

end TransitionNetwork
