import TransitionNetwork.Proofs.Lookahead.Advances

/-!
# Completeness of walks

A visit does what is due at every position that it adds, if the depth exceeds the number of
positions that are left. So a walk, whose depth exceeds the number of all positions within reach,
has been wherever one can come to from its start, unless it passed over a call.
-/

namespace TransitionNetwork

namespace Lookahead

/-- Closing a call that was opened restores the open calls. -/
theorem erase_insert_called {w : Walk} {rule : RuleIndex} (hopen : w.called.contains rule = false) :
    (w.called.insert rule).erase rule = w.called := by
  ext other
  rw [Std.ExtTreeSet.mem_erase, Std.ExtTreeSet.mem_insert]
  constructor
  · rintro ⟨hne, heq | hother⟩
    · exact (hne heq).elim
    · exact hother
  · intro hother
    refine ⟨fun heq => ?_, Or.inr hother⟩
    obtain rfl := Std.LawfulEqCmp.eq_of_compare heq
    rw [Std.ExtTreeSet.mem_iff_contains, hopen] at hother
    cases hother

/-- Opening a call that was closed restores the open calls. -/
theorem insert_erase_called {w : Walk} {rule : RuleIndex} (hopen : w.called.contains rule = true) :
    (w.called.erase rule).insert rule = w.called := by
  ext other
  rw [Std.ExtTreeSet.mem_insert, Std.ExtTreeSet.mem_erase]
  constructor
  · rintro (heq | ⟨-, hother⟩)
    · obtain rfl := Std.LawfulEqCmp.eq_of_compare heq
      exact hopen
    · exact hother
  · intro hother
    by_cases heq : compare rule other = .eq
    · exact Or.inl heq
    · exact Or.inr ⟨heq, hother⟩

variable [NodeDigest] {net : Network} {options : WalkOptions} {w w' : Walk} {k : Configuration}
  {h base : History} {depth : Nat} {context : Option Context} {id : StateId} {s : State}
  {go : Visit} {t : Transition}

/-! ## Following transitions -/

/-- What is due at a transition has been done. -/
def EdgeClosed (net : Network) (options : WalkOptions) (context : Option Context) (t : Transition)
    (w : Walk) : Prop :=
  w.passedCall = false →
    (∀ token, EdgeContributes net options t token → w.tokens.contains token = true) ∧
      ∀ k, EdgeLeads options context t k → k.position ∈ w.entered.positions

/-- What has been done at a transition stays done for a walk that covers more. -/
theorem EdgeClosed.mono {t : Transition} (hcovers : Covers net options w w')
    (hclosed : EdgeClosed net options context t w) : EdgeClosed net options context t w' := by
  intro hpassed
  obtain ⟨htokens, hleads⟩ := hclosed (hcovers.passed hpassed)
  exact ⟨fun token htoken => hcovers.tokens token (htokens token htoken),
    fun k hk => hcovers.entered (hleads k hk)⟩

omit [NodeDigest] in
/-- A transition that consumes nothing accepts no token. -/
theorem not_accepts_of_isEpsilon (hepsilon : t.isEpsilon = true)
    (token least greatest : TokenType) : ¬ t.accepts token least greatest = true := by
  obtain ⟨target, kind⟩ := t
  intro haccepts
  cases kind <;> first | cases haccepts | cases hepsilon

omit [NodeDigest] in
/-- A transition that consumes nothing and does not end the walk contributes nothing. -/
theorem not_edgeContributes {token : TokenType} (hepsilon : t.isEpsilon = true)
    (hblocks : blocks options t.kind = false) : ¬ EdgeContributes net options t token := by
  rintro (haccepts | ⟨hblocked, -⟩)
  · exact not_accepts_of_isEpsilon hepsilon _ _ _ haccepts
  · rw [hblocks] at hblocked
    cases hblocked

/-- A transition that is neither followed nor a call leads nowhere. -/
theorem not_edgeLeads (hmoves : ¬ moves options t.kind = true)
    (hcall : ∀ rule level follow, t.kind ≠ .rule rule level follow) :
    ¬ EdgeLeads options context t k := by
  rintro (hmoves' | ⟨next, hkind⟩)
  · exact hmoves hmoves'
  · exact hcall _ _ _ hkind

/-- Opening a call of another rule with the follow state pushed keeps the walk ready. -/
theorem exists_ready_openCall (hready : Ready net base h w) (hfits : Fits net base h w context)
    {rule : RuleIndex} {follow : StateId} (hrule : rule ∈ calledRules net)
    (hfollow : follow ∈ followStates net) (hopen : w.called.contains rule = false) :
    ∃ h', h.Extends h' ∧ Ready net base h' ((w.push context follow).2.openCall rule) ∧
      Fits net base h' ((w.push context follow).2.openCall rule)
        (some (w.push context follow).1) := by
  have hentry : h.HoldsEntries [⟨context, (follow : Int)⟩] := by
    rw [History.holdsEntries_singleton]
    exact hfits.held
  obtain ⟨h', hext, hnext, hheld⟩ := Context.exists_holds_ofEntries hentry
  rw [← hready.sound.next] at hnext hheld
  refine ⟨h', hext, ⟨hready.later.trans hext, ⟨hnext.symm, hready.sound.entered.mono hext,
    hready.sound.canonical⟩, fun other hother => ?_⟩, ⟨?_, ?_⟩⟩
  · rcases Std.ExtTreeSet.mem_insert.mp hother with heq | hother
    · exact Std.LawfulEqCmp.eq_of_compare heq ▸ hrule
    · exact hready.calls other hother
  · rintro _ ⟨⟩
    exact hheld
  · have hsize : ((w.push context follow).2.openCall rule).called.size = w.called.size + 1 := by
      change (w.called.insert rule).size = _
      rw [Std.ExtTreeSet.size_insert, hopen]
      rfl
    rw [hsize]
    exact hfits.above.push hfollow w.next

/-- Calling a rule does what is due at the transition. -/
theorem exists_followCall (hgo : Completes net options base depth go)
    (hstate : net.state? id = some s) (ht : t ∈ s.transitions) (hready : Ready net base h w)
    (hfits : Fits net base h w context) (hdepth : unentered net base w < depth) {rule : RuleIndex}
    {level : Int} {follow : StateId} (hkind : t.kind = .rule rule level follow) :
    ∃ w', followTransition net options go context w t = some w' ∧ Advances net options h w w' ∧
      EdgeClosed net options context t w' := by
  cases hopen : w.called.contains rule with
  | true =>
    -- Nothing is due any more once a call is passed over.
    have hcovers : Covers net options w { w with passedCall := true } :=
      .of_entered_eq (fun _ h => h) rfl fun hpassed => by cases hpassed
    refine ⟨_, followTransition_of_open hkind hopen, ⟨⟨h, .refl h, hready.sound.next,
      hready.sound.entered, hready.sound.canonical⟩, hcovers, rfl⟩, fun hpassed => ?_⟩
    cases hpassed
  | false =>
    obtain ⟨hrule, hfollow⟩ := mem_calls hstate ht hkind
    obtain ⟨h', hext, hready', hfits'⟩ := exists_ready_openCall hready hfits hrule hfollow hopen
    obtain ⟨w', hw', hadvances, hmem⟩ := hgo t.target _ _ h' hready' hfits' hdepth
    obtain ⟨h'', hext', hsound⟩ := hadvances.sound
    refine ⟨w'.closeCall rule, ?_, ⟨⟨h'', hext.trans hext', hsound.next, hsound.entered,
      hsound.canonical⟩, ?_, ?_⟩, fun _ => ⟨fun token htoken => ?_, fun k hleads => ?_⟩⟩
    · rw [followTransition_of_call hkind hopen, hw', Option.map_some]
    · exact ⟨hadvances.covers.tokens, hadvances.covers.entered, hadvances.covers.passed,
        hadvances.covers.closed⟩
    · change w'.called.erase rule = w.called
      rw [hadvances.called]
      exact erase_insert_called hopen
    · refine (not_edgeContributes ?_ ?_ htoken).elim
      · simp [Transition.isEpsilon, hkind, TransitionKind.isEpsilon]
      · simp [blocks, hkind]
    · cases hleads with
      | move hmoves => simp [moves, hkind] at hmoves
      | call next hkind' =>
        obtain ⟨-, -, rfl⟩ : rule = _ ∧ level = _ ∧ follow = _ := by
          simpa using hkind.symm.trans hkind'
        change (t.target, some (Context.singleton _ next).1.skeleton) ∈ w'.entered.positions
        -- Which identity the new context has is of no account for the position.
        rw [Context.skeleton_singleton, ← Context.skeleton_singleton context follow w.next]
        exact hmem

/-- Following a transition does what is due at it. -/
theorem exists_followTransition (hgo : Completes net options base depth go)
    (hstate : net.state? id = some s) (ht : t ∈ s.transitions) (hready : Ready net base h w)
    (hfits : Fits net base h w context) (hdepth : unentered net base w < depth) :
    ∃ w', followTransition net options go context w t = some w' ∧ Advances net options h w w' ∧
      EdgeClosed net options context t w' := by
  rcases calls_or_moves_or_blocks_or_consumes options t with
    ⟨rule, level, follow, hkind⟩ | hmoves | hblocks | hconsumes
  · exact exists_followCall hgo hstate ht hready hfits hdepth hkind
  · obtain ⟨w', hw', hadvances, hmem⟩ := hgo t.target context w h hready hfits hdepth
    refine ⟨w', by rw [followTransition_of_moves hmoves, hw'], hadvances,
      fun _ => ⟨fun token htoken => ?_, fun k hleads => ?_⟩⟩
    · exact (not_edgeContributes (isEpsilon_of_moves hmoves) (blocks_eq_false_of_moves hmoves)
        htoken).elim
    · cases hleads with
      | move => exact hmem
      | call next hkind =>
        rw [hkind] at hmoves
        cases hmoves
  · obtain ⟨hadvances, hcontains⟩ := advances_collect hready.sound Token.invalid
    refine ⟨_, followTransition_of_blocks hblocks, hadvances,
      fun _ => ⟨?_, fun k hleads => (not_edgeLeads (fun hmoves => ?_) ?_ hleads).elim⟩⟩
    · rintro token (haccepts | ⟨-, rfl⟩)
      · exact (not_accepts_of_isEpsilon (isEpsilon_of_blocks hblocks) _ _ _ haccepts).elim
      · exact hcontains
    · rw [blocks_eq_false_of_moves hmoves] at hblocks
      cases hblocks
    · intro rule level follow hkind
      rw [hkind] at hblocks
      cases hblocks
  · obtain ⟨hadvances, hcontains⟩ :=
      advances_collectAll hready.sound (t.consumed net.vocabulary)
    refine ⟨_, followTransition_of_consumes hconsumes, hadvances,
      fun _ => ⟨?_, fun k hleads => (not_edgeLeads (fun hmoves => ?_) ?_ hleads).elim⟩⟩
    · rintro token (haccepts | ⟨hblocks, -⟩)
      · exact hcontains token ((t.contains_consumed net token).mpr haccepts)
      · rw [isEpsilon_of_blocks hblocks] at hconsumes
        cases hconsumes
    · rw [isEpsilon_of_moves hmoves] at hconsumes
      cases hconsumes
    · intro rule level follow hkind
      rw [Transition.isEpsilon, hkind] at hconsumes
      cases hconsumes

/-! ## Returning -/

/-- What is due at an entry through which a rule returns has been done. -/
def ReturnClosed (options : WalkOptions) (e : Entry Context) (w : Walk) : Prop :=
  (e.returnState = Context.emptyReturn → options.collectsEof = true →
    w.tokens.contains Token.eof = true) ∧
  (0 ≤ e.returnState →
    (⟨e.returnState.toNat, e.parent⟩ : Configuration).position ∈ w.entered.positions)

/-- What has been done at an entry stays done for a walk that covers more. -/
theorem ReturnClosed.mono {e : Entry Context} (hcovers : Covers net options w w')
    (hclosed : ReturnClosed options e w) : ReturnClosed options e w' :=
  ⟨fun hbottom heof => hcovers.tokens _ (hclosed.1 hbottom heof),
    fun hnonneg => hcovers.entered (hclosed.2 hnonneg)⟩

/-- Returning through an entry does what is due at it. -/
theorem exists_returnTo (hgo : Completes net options base depth go) {e : Entry Context}
    (hready : Ready net base h w) (hfits : Fits net base h w e.parent)
    (hdepth : unentered net base w < depth) :
    ∃ w', returnTo options go w e = some w' ∧ Advances net options h w w' ∧
      ReturnClosed options e w' := by
  have hvalue : Context.emptyReturn = -1 := rfl
  unfold returnTo
  split
  next hbottom =>
    split
    · obtain ⟨hadvances, hcontains⟩ := advances_collect hready.sound Token.eof
      exact ⟨_, rfl, hadvances, fun _ _ => hcontains, fun hnonneg => by omega⟩
    next heof =>
      exact ⟨w, rfl, .refl hready.sound, fun _ heof' => (heof heof').elim,
        fun hnonneg => by omega⟩
  next hbottom =>
    split
    next hnegative =>
      exact ⟨w, rfl, .refl hready.sound, fun hreturn => (hbottom hreturn).elim,
        fun hnonneg => by omega⟩
    · obtain ⟨w', hw', hadvances, hmem⟩ := hgo _ e.parent w h hready hfits hdepth
      exact ⟨w', hw', hadvances, fun hreturn => (hbottom hreturn).elim, fun _ => hmem⟩

/-- The rests of a context fit with one call less that is open. -/
theorem Fits.parent {c : Context} (hfits : Fits net base h w (some c)) {e : Entry Context}
    (he : e ∈ c.entries) (hsize : w.called.size - 1 ≤ w'.called.size) :
    Fits net base h w' e.parent :=
  ⟨(hfits.held c rfl).entries e he, (hfits.above.back he).mono hsize⟩

/-- Returning through a context does what is due at its entries. -/
theorem exists_returnThrough (hgo : Completes net options base depth go) {c : Context}
    (hready : Ready net base h w) (hfits : Fits net base h w (some c))
    (hdepth : unentered net base w < depth) (rule : Option RuleIndex) :
    ∃ w', returnThrough options go rule c w = some w' ∧ Advances net options h w w' ∧
      ∀ e ∈ c.entries, ReturnClosed options e w' := by
  have hfold {v : Walk} (hready : Ready net base h v) (hdepth : unentered net base v < depth)
      (hsize : w.called.size - 1 ≤ v.called.size) :
      ∃ w', c.entries.foldlM (returnTo options go) v = some w' ∧ Advances net options h v w' ∧
        ∀ e ∈ c.entries, ReturnClosed options e w' :=
    exists_foldlM (fun _ _ _ hcovers hclosed => hclosed.mono hcovers)
      (fun e he v' h' hext hcalled hready' hdepth' => exists_returnTo hgo hready'
        ((hfits.parent he hsize).mono hext hcalled) hdepth') hready hdepth
  unfold returnThrough
  split
  next rule' hopen =>
    have hcontains : w.called.contains rule' = true := (Option.filter_eq_some_iff.mp hopen).2
    have hready' : Ready net base h (w.closeCall rule') :=
      ⟨hready.later, ⟨hready.sound.next, hready.sound.entered, hready.sound.canonical⟩,
        fun other hother => hready.calls other (Std.ExtTreeSet.mem_erase.mp hother).2⟩
    -- One call less is open, which the rests of the context make up for.
    have hsize : w.called.size - 1 ≤ (w.closeCall rule').called.size := by
      change _ ≤ (w.called.erase rule').size
      rw [Std.ExtTreeSet.size_erase, if_pos hcontains]
    obtain ⟨w', hw', hadvances, hclosed⟩ := hfold hready' hdepth hsize
    obtain ⟨h', hext, hsound⟩ := hadvances.sound
    refine ⟨w'.openCall rule', ?_, ⟨⟨h', hext, hsound.next, hsound.entered, hsound.canonical⟩,
      ?_, ?_⟩, hclosed⟩
    · rw [hw']
      rfl
    · exact ⟨hadvances.covers.tokens, hadvances.covers.entered, hadvances.covers.passed,
        hadvances.covers.closed⟩
    · change w'.called.insert rule' = w.called
      rw [hadvances.called]
      exact insert_erase_called hcontains
  · exact hfold hready hdepth (Nat.sub_le _ _)

/-! ## Leaving a state -/

omit [NodeDigest] in
/-- A walk ends with one token. -/
theorem EndsWith.unique {token token' : TokenType} (hends : EndsWith options id s context token)
    (hends' : EndsWith options id s context token') : token = token' := by
  obtain ⟨-, ⟨rfl, rfl⟩ | ⟨c, rfl, -, -, rfl⟩⟩ := hends
  · obtain ⟨-, ⟨-, rfl⟩ | ⟨c', hc', -⟩⟩ := hends'
    · rfl
    · cases hc'
  · obtain ⟨-, ⟨hnone, -⟩ | ⟨c', -, -, -, rfl⟩⟩ := hends'
    · cases hnone
    · rfl

omit [NodeDigest] in
/-- A walk does not end where a rule returns. -/
theorem EndsWith.not_returns {token : TokenType} (hends : EndsWith options id s context token)
    (c : Context) : ¬ Returns s context c := by
  rintro ⟨-, rfl, hnonempty⟩
  obtain ⟨-, ⟨hnone, -⟩ | ⟨c', hc', hempty, -⟩⟩ := hends
  · cases hnone
  · cases hc'
    rw [hnonempty] at hempty
    cases hempty

variable (hstate : net.state? id = some s)

include hstate

/-- Where a walk ends, only the token of the end is due. -/
theorem closed_of_endsWith {token : TokenType} (hends : EndsWith options id s context token)
    (hcontains : w.tokens.contains token = true) : Closed net options w ⟨id, context⟩ := by
  refine ⟨fun token' htoken => ?_, fun k hleads => ?_⟩
  · cases htoken with
    | ends hstate' hends' =>
      cases hstate.symm.trans hstate'
      exact hends.unique hends' ▸ hcontains
    | bottom hstate' hreturns =>
      cases hstate.symm.trans hstate'
      exact (hends.not_returns _ hreturns).elim
    | edge hstate' hgoes =>
      cases hstate.symm.trans hstate'
      exact (hgoes.1 token hends).elim
  · cases hleads with
    | back hstate' hreturns =>
      cases hstate.symm.trans hstate'
      exact (hends.not_returns _ hreturns).elim
    | edge hstate' hgoes =>
      cases hstate.symm.trans hstate'
      exact (hgoes.1 token hends).elim

/-- Where a rule returns, only what the entries ask for is due. -/
theorem closed_of_returns {c : Context} (hreturns : Returns s context c)
    (hentries : ∀ e ∈ c.entries, ReturnClosed options e w) :
    Closed net options w ⟨id, context⟩ := by
  have hsame {c' : Context} (hreturns' : Returns s context c') : c = c' :=
    Option.some.inj (hreturns.2.1.symm.trans hreturns'.2.1)
  refine ⟨fun token' htoken => ?_, fun k hleads => ?_⟩
  · cases htoken with
    | ends hstate' hends =>
      cases hstate.symm.trans hstate'
      exact (hends.not_returns c hreturns).elim
    | bottom hstate' hreturns' he hreturn heof =>
      cases hstate.symm.trans hstate'
      obtain rfl := hsame hreturns'
      exact (hentries _ he).1 hreturn heof
    | edge hstate' hgoes =>
      cases hstate.symm.trans hstate'
      exact (hgoes.2 c hreturns).elim
  · cases hleads with
    | back hstate' hreturns' he hnonneg =>
      cases hstate.symm.trans hstate'
      obtain rfl := hsame hreturns'
      exact (hentries _ he).2 hnonneg
    | edge hstate' hgoes =>
      cases hstate.symm.trans hstate'
      exact (hgoes.2 c hreturns).elim

/-- Where a walk goes on, only what the transitions ask for is due. -/
theorem closed_of_goesOn (hgoes : GoesOn options id s context) (hpassed : w.passedCall = false)
    (hedges : ∀ t ∈ s.transitions, EdgeClosed net options context t w) :
    Closed net options w ⟨id, context⟩ := by
  refine ⟨fun token' htoken => ?_, fun k hleads => ?_⟩
  · cases htoken with
    | ends hstate' hends =>
      cases hstate.symm.trans hstate'
      exact (hgoes.1 _ hends).elim
    | bottom hstate' hreturns =>
      cases hstate.symm.trans hstate'
      exact (hgoes.2 _ hreturns).elim
    | edge hstate' _ ht htoken =>
      cases hstate.symm.trans hstate'
      exact (hedges _ ht hpassed).1 _ htoken
  · cases hleads with
    | back hstate' hreturns =>
      cases hstate.symm.trans hstate'
      exact (hgoes.2 _ hreturns).elim
    | edge hstate' _ ht hleads =>
      cases hstate.symm.trans hstate'
      exact (hedges _ ht hpassed).2 k hleads

/-- Leaving a state does what is due there. -/
theorem exists_leaveState (hgo : Completes net options base depth go) (hready : Ready net base h w)
    (hfits : Fits net base h w context) (hdepth : unentered net base w < depth) :
    ∃ w', leaveState net options go id s context w = some w' ∧ Advances net options h w w' ∧
      (w'.passedCall = false → Closed net options w' ⟨id, context⟩) := by
  rcases endsWith_or_returns_or_goesOn options id s context with
    ⟨token, hends⟩ | ⟨c, hreturns⟩ | hgoes
  · obtain ⟨hadvances, hcontains⟩ := advances_collect hready.sound token
    exact ⟨_, leaveState_of_endsWith go hends, hadvances,
      fun _ => closed_of_endsWith hstate hends hcontains⟩
  · obtain rfl := hreturns.2.1
    obtain ⟨w', hw', hadvances, hentries⟩ :=
      exists_returnThrough hgo hready hfits hdepth s.rule
    exact ⟨w', by rw [leaveState_of_returns go hreturns, hw'], hadvances,
      fun _ => closed_of_returns hstate hreturns hentries⟩
  · have hfollows : ∃ w', followAll net options go s context w = some w' ∧
        Advances net options h w w' ∧ ∀ t ∈ s.transitions, EdgeClosed net options context t w' :=
      exists_foldlM (fun _ _ _ hcovers hclosed => EdgeClosed.mono hcovers hclosed)
        (fun t ht v h' hext hcalled hready' hdepth' => exists_followTransition hgo hstate ht
          hready' (hfits.mono hext hcalled) hdepth') hready hdepth
    obtain ⟨w', hw', hadvances, hedges⟩ := hfollows
    exact ⟨w', by rw [leaveState_of_goesOn go hgoes, hw'], hadvances,
      fun hpassed => closed_of_goesOn hstate hgoes hpassed hedges⟩

/-! ## Visits -/

omit hstate

/-- Nothing is due at a state that does not exist. -/
theorem closed_of_state?_eq_none (hnone : net.state? id = none) :
    Closed net options w ⟨id, context⟩ := by
  refine ⟨fun token htoken => ?_, fun k hleads => ?_⟩
  · cases htoken <;> simp_all
  · cases hleads <;> simp_all

/-- Entering a configuration keeps a walk ready. -/
theorem Ready.enter (hready : Ready net base h w) (hfits : Fits net base h w context) :
    Ready net base h (w.enter ⟨id, context⟩) :=
  ⟨hready.later, ⟨hready.sound.next, hready.sound.entered.add hfits.held, hready.sound.canonical⟩,
    hready.calls⟩

/-- A visit does what is to be done if the depth exceeds the number of positions that are left. -/
theorem completes_visit (net : Network) (options : WalkOptions) (base : History) (depth : Nat) :
    Completes net options base depth (visit net options depth) := by
  induction depth with
  | zero =>
    intro id context w h _ _ hdepth
    exact (Nat.not_lt_zero _ hdepth).elim
  | succ depth ih =>
    intro id context w h hready hfits hdepth
    have hfound : w.entered.has id context = true ↔ _ :=
      Entered.has_iff hready.sound.entered hfits.held
    cases hhas : w.entered.has id context with
    | true =>
      exact ⟨w, visit_of_has depth hhas, .refl hready.sound, hfound.mp hhas⟩
    | false =>
      have hentered : Ready net base h (w.enter ⟨id, context⟩) := hready.enter hfits
      have hnew : (⟨id, context⟩ : Configuration).position ∉ w.entered.positions := by
        rw [← hfound, hhas]
        exact Bool.false_ne_true
      cases hstate : net.state? id with
      | none =>
        have hcovers : Covers net options w (w.enter ⟨id, context⟩) :=
          .of_enter (.refl _) fun _ => closed_of_state?_eq_none hstate
        exact ⟨_, visit_of_state?_eq_none depth hhas hstate,
          ⟨⟨h, .refl h, hentered.sound⟩, hcovers, rfl⟩, position_mem_enter w _⟩
      | some s =>
        have hwithin : (⟨id, context⟩ : Configuration).position ∈ positionsWithin net base :=
          mem_positionsWithin (Network.lt_size_of_state? hstate) hready.calls.size_le hfits.above
        -- The position is new and within reach, so there is one less to enter for the visits below.
        have hless := unentered_enter_lt hwithin hnew
        have hfits' : Fits net base h (w.enter ⟨id, context⟩) context := ⟨hfits.held, hfits.above⟩
        obtain ⟨w', hw', hadvances, hclosed⟩ :=
          exists_leaveState hstate ih hentered hfits' (by omega)
        exact ⟨w', by rw [visit_of_state? depth hhas hstate, hw'], ⟨hadvances.sound,
          .of_enter hadvances.covers hclosed, hadvances.called⟩,
          hadvances.covers.entered (position_mem_enter w _)⟩

/-- A walk from a context of a history is ready for it in the history up to the free identity. -/
theorem exists_ready_start (net : Network) {context : Option Context}
    (hcontext : h.HoldsParent context) :
    ∃ base : History, base.next = freshId context ∧
      Ready net base base (.start (freshId context)) ∧
      Fits net base base (.start (freshId context)) context := by
  have hpos : 0 < freshId context := Nat.succ_pos _
  let base : History := h.upTo (freshId context) hpos
  have hheld : base.HoldsParent context := by
    rintro c rfl
    exact (hcontext c rfl).upTo hpos (Nat.lt_succ_self _)
  have hsound : (Walk.start (freshId context)).Sound base :=
    ⟨rfl, Entered.heldBy_empty, .nil⟩
  exact ⟨base, rfl, ⟨.refl base, hsound, fun rule hrule => by simp [Walk.start] at hrule⟩,
    hheld, .of_holds hheld _⟩

/-- The depth that is computed for a walk exceeds the number of positions that are left. -/
theorem unentered_start_lt (net : Network) {context : Option Context}
    (hbase : base.next = freshId context) :
    unentered net base (.start (freshId context)) < depthBound net context :=
  Nat.lt_of_le_of_lt (unentered_le_length net base _) (length_positionsWithin_lt net hbase)

/-- A walk from a context of a history ends within its depth, and does what is to be done. -/
theorem advances_walk (net : Network) (options : WalkOptions) (id : StateId)
    {context : Option Context} (hcontext : h.HoldsParent context) :
    ∃ base : History, base.next = freshId context ∧
      Advances net options base (.start (freshId context)) (walk net options id context) ∧
      (⟨id, context⟩ : Configuration).position ∈ (walk net options id context).entered.positions := by
  obtain ⟨base, hbase, hready, hfits⟩ := exists_ready_start net hcontext
  obtain ⟨w, hw, hadvances, hmem⟩ := completes_visit net options base (depthBound net context) id
    context _ base hready hfits (unentered_start_lt net hbase)
  have hwalk : walk net options id context = w := by
    rw [walk, hw, Option.getD_some]
  exact ⟨base, hbase, hwalk ▸ hadvances, hwalk ▸ hmem⟩

/-- A walk that passes over no call has been wherever one can come to, and has done what is due
there. -/
theorem closed_of_reaches (hcontext : h.HoldsParent context)
    (hpassed : (walk net options id context).passedCall = false)
    (hreaches : Reaches net options ⟨id, context⟩ k) :
    Closed net options (walk net options id context) k := by
  obtain ⟨base, -, hadvances, hstart⟩ := advances_walk net options id hcontext
  have hclosed (k : Configuration)
      (hk : k.position ∈ (walk net options id context).entered.positions) :
      Closed net options (walk net options id context) k :=
    hadvances.covers.closed hpassed k hk fun hnone => by
      have hempty := Entered.positions_empty
      change k.position ∈ (∅ : Entered).positions at hnone
      rw [hempty] at hnone
      exact hnone
  suffices k.position ∈ (walk net options id context).entered.positions from hclosed k this
  induction hreaches with
  | refl => exact hstart
  | step _ hleads ih => exact (hclosed _ ih).2 _ hleads

end Lookahead

end TransitionNetwork
