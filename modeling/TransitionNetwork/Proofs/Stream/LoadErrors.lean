import TransitionNetwork.Proofs.Network.Verified
import TransitionNetwork.Proofs.Stream.LoadedReferences

/-!
# References in load errors

A load ends with an error if a number refers to nothing. Whether that number was read, is the number
of a state or is the index of a rule, a unit can hold it. States that were found once are found
again, so that what follows decoding asks for no others.
-/

namespace TransitionNetwork

/-- If the computation fails since a number refers to nothing, a unit can hold that number. -/
def RefersInUnits {α : Type} (result : Except LoadError α) : Prop :=
  ∀ what number, result = .error (.missing what number) → Stream.IsValue number

namespace RefersInUnits

variable {α β : Type}

/-- A success refers to no number in vain. -/
theorem ok (a : α) : RefersInUnits (.ok a) := fun _ _ h => by cases h

/-- A failure refers in vain to the number that it names. -/
theorem missing {what : Referent} {number : Int} (h : Stream.IsValue number) :
    RefersInUnits (.error (.missing what number) : Except LoadError α) := by
  rintro _ _ ⟨⟩
  exact h

/-- Any other failure refers to no number. -/
theorem failed {e : LoadError} (h : ∀ what number, e ≠ .missing what number) :
    RefersInUnits (.error e : Except LoadError α) := fun what number herror =>
  (h what number (Except.error.inj herror)).elim

/-- Two steps refer in vain only to what one of them does. -/
theorem bind {x : Except LoadError α} {f : α → Except LoadError β} (hx : RefersInUnits x)
    (hf : ∀ a, x = .ok a → RefersInUnits (f a)) : RefersInUnits (x >>= f) := by
  cases x with
  | error e => exact fun what number h => hx what number (by cases h; rfl)
  | ok a => exact hf a rfl

/-- Steps for the items of a list refer in vain only to what one of them does. -/
theorem mapM {items : List α} {f : α → Except LoadError β}
    (h : ∀ a ∈ items, RefersInUnits (f a)) : RefersInUnits (items.mapM f) := by
  induction items with
  | nil => exact ok []
  | cons a rest ih =>
    obtain ⟨ha, hrest⟩ := List.forall_mem_cons.mp h
    rw [List.mapM_cons]
    exact ha.bind fun _ _ => (ih hrest).bind fun _ _ => ok _

/-- Steps one after the other refer in vain only to what one of them does. -/
theorem foldlM {items : List α} {f : β → α → Except LoadError β}
    (h : ∀ b, ∀ a ∈ items, RefersInUnits (f b a)) (b : β) : RefersInUnits (items.foldlM f b) := by
  induction items generalizing b with
  | nil => exact ok b
  | cons a rest ih =>
    rw [List.foldlM_cons]
    exact (h b a List.mem_cons_self).bind fun next _ =>
      ih (fun b a ha => h b a (List.mem_cons_of_mem _ ha)) next

/-- Checks of the items of a list refer in vain only to what one of them does. -/
theorem forM {items : List α} {f : α → Except LoadError Unit}
    (h : ∀ a ∈ items, RefersInUnits (f a)) : RefersInUnits (items.forM f) := by
  intro what number herror
  obtain ⟨a, ha, hfound⟩ := exists_of_forM_eq_error herror
  exact h a ha what number hfound

end RefersInUnits

open RefersInUnits (ok missing failed)

/-! ## Steps on networks -/

namespace Network

variable {net : Network}

/-- Resolving a number from a unit refers to that number. -/
theorem refersInUnits_resolve (net : Network) {number : Int} (h : Stream.IsValue number) :
    RefersInUnits (net.resolve number) := by
  rw [resolve]
  split
  · exact ok _
  · exact missing h

/-- Resolving a number from a unit for a role refers to that number. -/
theorem refersInUnits_resolveAs (net : Network) (role : StateRole) {number : Int}
    (h : Stream.IsValue number) : RefersInUnits (net.resolveAs role number) := by
  refine (net.refersInUnits_resolve h).bind fun id _ => ?_
  split
  · exact ok _
  · exact failed (by simp)

/-- Requiring a state whose number fits into a unit refers to that number. -/
theorem refersInUnits_requireState (net : Network) {id : StateId}
    (h : Stream.IsValue (Stream.natValue id)) : RefersInUnits (net.requireState id) := by
  rw [requireState]
  split
  · exact ok _
  · exact missing h

/-- Linking states by numbers from units refers to these numbers. -/
theorem refersInUnits_linkNumbers (net : Network) (f : StateId → StateKind → StateKind)
    {numbers : List (StateId × Int)} (h : ∀ pair ∈ numbers, Stream.IsValue pair.2) :
    RefersInUnits (net.linkNumbers f numbers) :=
  (RefersInUnits.mapM fun pair hpair =>
    (net.refersInUnits_resolve (h pair hpair)).bind fun _ _ => ok _).bind fun _ _ => ok _

/-- The rule of a state is one that was read. -/
theorem refersInUnits_linkRuleStops
    (h : ∀ s ∈ net.states, ∀ rule ∈ s.rule, Stream.IsValue (rule : Nat)) :
    RefersInUnits net.linkRuleStops := by
  refine (RefersInUnits.mapM fun s hs => ?_).bind fun _ _ => ok _
  have hrule := h s (List.mem_of_mem_filter hs)
  refine RefersInUnits.bind ?_ fun _ _ => ok _
  rw [stoppedRule]
  split
  · exact missing (by decide)
  next rule hfound =>
    split
    · exact ok _
    · exact missing (hrule rule hfound)

/-- Calls lead to states that units can refer to. -/
theorem refersInUnits_addReturnEdges
    (h : ∀ s ∈ net.states, ∀ t ∈ s.transitions, Stream.IsValue (Stream.natValue t.target)) :
    RefersInUnits net.addReturnEdges := by
  refine ((RefersInUnits.mapM fun t ht => ?_).bind fun _ _ => ok _).bind fun _ _ => ok _
  obtain ⟨s, hs, ht⟩ := List.mem_flatMap.mp ht
  rw [returnEdge?]
  split
  · refine (net.refersInUnits_requireState (h s hs t ht)).bind fun callee _ => ?_
    split
    · exact failed (by simp)
    · dsimp only
      split
      · exact failed (by simp)
      · exact ok _
  · exact ok _

/-- Blocks end in states that units can refer to. -/
theorem refersInUnits_linkBlocksAndLoops
    (h : ∀ s ∈ net.states, ∀ block stop, s.kind = .blockStart block (some stop) →
      Stream.IsValue (Stream.natValue stop)) : RefersInUnits net.linkBlocksAndLoops := by
  refine RefersInUnits.bind (RefersInUnits.mapM fun s _ => ?_) fun pairs hpairs =>
    (RefersInUnits.foldlM (fun reached pair hpair => ?_) net).bind fun _ _ => ok _
  · rw [blockPair?]
    split
    · exact ok _
    · exact failed (by simp)
    · exact ok _
  · -- a pair is made of a block start and the block end that was read for it
    have hstop : Stream.IsValue (Stream.natValue pair.2) := by
      obtain ⟨found, hfound, rfl⟩ := List.mem_filterMap.mp hpair
      obtain ⟨s, hs, hblock⟩ := exists_of_mem_mapM_ok hpairs hfound
      rw [blockPair?] at hblock
      split at hblock
      next block stop hkind =>
        cases hblock
        exact h s hs block stop hkind
      · cases hblock
      · cases hblock
    refine (reached.refersInUnits_requireState hstop).bind fun stop _ => ?_
    split
    · exact ok _
    · exact failed (by simp)
    · exact failed (by simp)

/-- In a well-referenced network, a structural rule is all that verification can find broken. -/
theorem WellReferenced.refersInUnits_verify (h : net.WellReferenced) :
    RefersInUnits net.verify := by
  refine (RefersInUnits.forM fun s _ => ?_).bind fun _ _ =>
    RefersInUnits.forM fun entry hentry => ?_
  · rw [verifyState]
    split
    · exact failed (by simp)
    · exact ok _
  · -- the first state of a rule exists, so that it is never found missing
    have hstart := List.mem_of_getElem? (List.mem_zipIdx_iff_getElem?.mp hentry)
    obtain ⟨s, hs, -⟩ := any_kind?_iff.mp (h.ruleStarts entry.1 hstart)
    rw [verifyRule, requireState, hs]
    refine (ok s).bind fun _ _ => ?_
    split
    · exact ok _
    · exact failed (by simp)

/-- Verifying a well referenced network refers to nothing in vain, or is left out. -/
theorem WellReferenced.refersInUnits_verifyIf (h : net.WellReferenced) (condition : Bool) :
    RefersInUnits (net.verifyIf condition) := by
  rw [verifyIf]
  split
  · exact h.refersInUnits_verify
  · exact ok _

/-- The rules that are given bypasses are as many as a unit can count. -/
theorem refersInUnits_addBypasses (h : Stream.IsValue (Stream.natValue net.ruleCount)) :
    RefersInUnits net.addBypasses := by
  refine RefersInUnits.foldlM (fun reached rule hrule => ?_) _
  have hvalue : Stream.IsValue (Stream.natValue rule) := by
    have hlt := List.mem_range.mp hrule
    have hcount := h.2
    simp only [Stream.natValue] at hcount ⊢
    exact ⟨by lia, by lia⟩
  rw [addBypass]
  split
  · refine RefersInUnits.bind ?_ fun _ _ => ok _
    rw [bodyEnd]
    split
    · split
      · exact ok _
      · exact failed (by simp)
    · split
      · exact ok _
      · exact missing hvalue
  · exact missing hvalue

end Network

/-! ## Decoders -/

namespace Stream

open Decoder

/-- A sequence refers in vain only where one of its parts does. -/
theorem refersInUnits_runFrom_bind {α β : Type} {d : Decoder α} {f : α → Decoder β}
    {cursor : Cursor} (hd : RefersInUnits (d.runFrom cursor).1)
    (hf : ∀ a next, d.runFrom cursor = (.ok a, next) → RefersInUnits ((f a).runFrom next).1) :
    RefersInUnits ((d >>= f).runFrom cursor).1 := by
  rw [Decoder.runFrom_bind]
  rcases hrun : d.runFrom cursor with ⟨e | a, next⟩
  · rw [hrun] at hd
    exact fun what number herror => hd what number (by cases herror; rfl)
  · exact hf a next hrun

/-- Reading a unit refers to no number. -/
theorem refersInUnits_unit (cursor : Cursor) : RefersInUnits (Decoder.unit.runFrom cursor).1 := by
  obtain ⟨_ | ⟨head, rest⟩, position⟩ := cursor
  · exact failed (by simp)
  · exact ok head

/-- Reading a value refers to no number. -/
theorem refersInUnits_int (cursor : Cursor) : RefersInUnits (Decoder.int.runFrom cursor).1 := by
  obtain ⟨_ | ⟨head, rest⟩, position⟩ := cursor
  · exact failed (by simp)
  · exact ok _

/-- Inside a stream, the decoder refers in vain only to numbers that units can hold. -/
def Refers {α : Type} (d : Decoder α) : Prop :=
  ∀ cursor : Cursor, 0 < cursor.position → RefersInUnits (d.runFrom cursor).1

namespace Refers

variable {α β : Type}

/-- A result alone refers to no number in vain. -/
theorem pure (a : α) : Refers (pure a) := fun _ _ => ok a

/-- An error alone refers in vain to the number that it names. -/
theorem throw {e : LoadError} (h : RefersInUnits (.error e : Except LoadError α)) :
    Refers (throw e : Decoder α) := fun _ _ => h

/-- A computed result refers to what its computation does. -/
theorem ofResult {result : Except LoadError α} (h : RefersInUnits result) :
    Refers (Decoder.ofResult result) := fun _ _ => h

/-- Two decoders refer in vain only to what one of them does; the second may rely on what the first
yields. -/
theorem bind {d : Decoder α} {f : α → Decoder β} {P : α → Prop} (hd : Refers d)
    (hyields : Yields d P) (hf : ∀ a, P a → Refers (f a)) : Refers (d >>= f) :=
  fun cursor hposition => refersInUnits_runFrom_bind (hd cursor hposition) fun a next hrun =>
    have ⟨hnext, ha⟩ := hyields cursor next a hposition hrun
    hf a ha next hnext

/-- A result that was found goes on inside the stream. -/
theorem ofResult_bind {result : Except LoadError α} {f : α → Decoder β}
    (h : RefersInUnits result) (hf : ∀ a, result = .ok a → Refers (f a)) :
    Refers (Decoder.ofResult result >>= f) :=
  (ofResult h).bind (Yields.ofResult fun _ ha => ha) hf

/-- Reading a unit refers to no number. -/
theorem unit : Refers Decoder.unit := fun cursor _ => refersInUnits_unit cursor

/-- Reading a value refers to no number. -/
theorem int : Refers Decoder.int := fun cursor _ => refersInUnits_int cursor

/-- A negative count is the value of a unit. -/
theorem count : Refers Decoder.count := by
  refine int.bind .int fun value hvalue => ?_
  split
  · exact (throw (missing hvalue)).bind (.throw _ fun _ => False) fun _ h => h.elim
  · exact pure _

/-- Decoders for the items of a list refer in vain only to what one of them does. -/
theorem mapM (items : List β) {d : β → Decoder α} (h : ∀ b, Refers (d b))
    (hyields : ∀ b, Yields (d b) fun _ => True) : Refers (items.mapM d) := by
  induction items with
  | nil => exact pure []
  | cons b rest ih =>
    rw [List.mapM_cons]
    exact (h b).bind (hyields b) fun _ _ => ih.bind (.mapM rest hyields) fun _ _ => pure _

/-- A counted list refers in vain only to what its items do. -/
theorem counted {d : Decoder α} (h : Refers d) (hyields : Yields d fun _ => True) :
    Refers (Decoder.counted d) :=
  count.bind .count fun _ _ => mapM _ (fun _ => h) fun _ => hyields

end Refers

/-! ## Sections -/

/-- A reference to a state is made by the value of a unit. -/
theorem refers_stateAs (net : Network) (role : StateRole) : Refers (stateAs net role) :=
  Refers.int.bind .int fun _ hnumber => .ofResult (net.refersInUnits_resolveAs role hnumber)

/-- Behind a reference to a state the decoder is inside the stream. -/
theorem yields_stateAs (net : Network) (role : StateRole) :
    Yields (stateAs net role) fun _ => True :=
  Yields.int.bind fun _ _ => .ofResult fun _ _ => trivial

/-- A list of references to states refers to values of units. -/
theorem refers_stateIds (net : Network) (role : StateRole) :
    Refers (counted (stateAs net role)) :=
  (refers_stateAs net role).counted (yields_stateAs net role)

/-- A slot refers to no number in vain: its link is resolved later. -/
theorem refers_slot (k : Nat) : Refers (slot k) := by
  refine Refers.int.bind .int fun code _ => ?_
  split
  · exact .pure _
  split
  · exact .throw (failed (by simp))
  · refine Refers.int.bind .int fun rule _ => ?_
    dsimp only
    split
    · exact Refers.bind (P := fun _ => True) (Refers.int.bind .int fun _ _ => .pure _)
        (Yields.map some Yields.int.any) fun _ _ => .pure _
    · exact (Refers.pure none).bind (Yields.pure (P := fun _ => True) trivial) fun _ _ => .pure _

/-- The serialized link of a state is a value of a unit. -/
theorem yields_slotLink (k : Nat) :
    Yields (slot k) fun entry => ∀ number ∈ entry.link, IsValue number := by
  refine Yields.int.bind fun code _ => ?_
  split
  · exact .pure (by simp)
  split
  · exact .throw _ _
  · refine Yields.int.bind fun rule _ => ?_
    dsimp only
    split
    · refine (Yields.map (P := fun link : Option Int => ∀ number ∈ link, IsValue number) some
        (Yields.int.mono ?_)).bind fun link hlink => .pure hlink
      rintro value hvalue _ ⟨⟩
      exact hvalue
    · exact (Yields.pure (P := fun link => link = none) rfl).bind fun link hlink =>
        .pure (by simp [hlink])

/-- The links that are to be made lead to numbers that units hold. -/
theorem isValue_of_mem_links {kinds : StateKind → Bool} {entries : List SlotEntry}
    (h : ∀ entry ∈ entries, ∀ number ∈ entry.link, IsValue number) :
    ∀ pair ∈ links kinds entries, IsValue pair.2 := by
  intro pair hpair
  obtain ⟨entry, hentry, hpair⟩ := List.mem_filterMap.mp hpair
  split at hpair
  next s number _ hlink =>
    split at hpair
    · cases hpair
      exact h entry hentry number hlink
    · cases hpair
  · cases hpair

/-- The section of the states refers in vain only to values of units. -/
theorem refers_states (revision : Revision) (net : Network) : Refers (states revision net) := by
  refine Refers.count.bind .count fun n _ => (Refers.mapM _ refers_slot fun k =>
    (yields_slot k).any).bind (.repeated yields_slotLink) fun entries hread => ?_
  have hlinks : ∀ entry ∈ entries, ∀ number ∈ entry.link, IsValue number := by
    intro entry hentry
    obtain ⟨k, hk⟩ := List.getElem?_of_mem hentry
    exact hread.2 k entry hk
  have hlinked (net : Network) (f : StateId → StateKind → StateKind) (kinds : StateKind → Bool) :
      RefersInUnits (net.linkNumbers f (links kinds entries)) :=
    net.refersInUnits_linkNumbers f (isValue_of_mem_links hlinks)
  refine .ofResult_bind (hlinked _ _ _) fun looped _ => ?_
  refine .ofResult_bind (hlinked looped _ _) fun linked _ => ?_
  refine (refers_stateIds linked .decision).bind (yields_stateIds linked .decision) fun _ _ => ?_
  dsimp only
  split
  · exact (refers_stateIds _ .ruleStart).bind (yields_stateIds _ .ruleStart) fun _ _ => .pure _
  · exact .pure _

/-- The section of the rules refers in vain only to values of units and to rules of written states.
-/
theorem refers_rules {net : Network} (h : net.StatesWritable) : Refers (rules net) := by
  have hentry : Refers (ruleEntry net) := by
    refine (refers_stateAs net .ruleStart).bind (yields_stateAs net .ruleStart) fun start _ => ?_
    split
    · exact Refers.int.bind .int fun _ _ => .pure _
    · exact .pure _
  refine (hentry.counted (yields_ruleEntry net).any).bind
    (.counted (yields_ruleEntry net)) fun entries _ =>
      .ofResult (Network.refersInUnits_linkRuleStops fun s hs rule hrule => ?_)
  obtain ⟨k, hk⟩ := Network.mem_states.mp hs
  exact h.rule k s hk rule hrule

/-- The section of the modes refers in vain only to values of units. -/
theorem refers_modes (net : Network) : Refers (modes net) := by
  have hmode : Refers (int >>= fun number => ofResult (net.resolve number)) :=
    Refers.int.bind .int fun _ hnumber => .ofResult (net.refersInUnits_resolve hnumber)
  have hyields : Yields (int >>= fun number => ofResult (net.resolve number)) fun _ => True :=
    Yields.int.bind fun _ _ => .ofResult fun _ _ => trivial
  exact (hmode.counted hyields).bind (.counted hyields) fun _ _ => .pure _

/-- A set refers in vain at most to its count. -/
theorem refers_intervalSet : Refers intervalSet := by
  have hinterval : Refers interval :=
    Refers.int.bind .int fun _ _ => Refers.int.bind .int fun _ _ => .pure _
  exact Refers.count.bind .count fun size _ => Refers.int.bind .int fun eof _ =>
    (Refers.mapM _ (fun _ => hinterval) fun _ => yields_interval.any).bind
      (.mapM _ fun _ => yields_interval.any) fun _ _ => .pure _

/-- A transition refers to states, rules, predicates and sets by the values of its entry. -/
theorem refersInUnits_transition (net : Network) (sets : List IntervalSet) {e : EdgeEntry}
    (htarget : IsValue e.target) (hfirst : IsValue e.first) (hsecond : IsValue e.second) :
    RefersInUnits (transition net sets e) := by
  have hnatural {what : Referent} {number : Int} (h : IsValue number) :
      RefersInUnits (natural what number) := by
    rw [natural]
    split
    · exact missing h
    · exact ok _
  have hset : RefersInUnits (transition.set sets e.first) := by
    rw [transition.set]
    split
    · exact ok _
    · exact missing hfirst
  rw [transition]
  split
  · exact failed (by simp)
  next type _ =>
    refine (net.refersInUnits_resolve htarget).bind fun target _ => ?_
    cases type with
    | rule =>
      exact (net.refersInUnits_resolveAs .ruleStart hfirst).bind fun _ _ =>
        (hnatural hsecond).bind fun _ _ => ok _
    | predicate =>
      exact (hnatural hfirst).bind fun _ _ => (hnatural hsecond).bind fun _ _ => ok _
    | action => exact (hnatural hfirst).bind fun _ _ => ok _
    | set | notSet => exact hset.bind fun _ _ => ok _
    | epsilon | range | atom | wildcard | precedence => exact ok _

/-- A transition refers in vain only to values of units. -/
theorem refers_edge (net : Network) (sets : List IntervalSet) : Refers (edge net sets) := by
  have hentry : Refers edgeEntry :=
    Refers.int.bind .int fun _ _ => Refers.int.bind .int fun _ _ => Refers.int.bind .int fun _ _ =>
      Refers.int.bind .int fun _ _ => Refers.int.bind .int fun _ _ => Refers.int.bind .int
        fun _ _ => .pure _
  have hyields : Yields edgeEntry fun e =>
      IsValue e.source ∧ IsValue e.target ∧ IsValue e.first ∧ IsValue e.second :=
    Yields.int.bind fun _ hsource => Yields.int.bind fun _ htarget => Yields.int.bind fun _ _ =>
      Yields.int.bind fun _ hfirst => Yields.int.bind fun _ hsecond => Yields.int.bind fun _ _ =>
        .pure ⟨hsource, htarget, hfirst, hsecond⟩
  refine hentry.bind hyields fun e ⟨hsource, htarget, hfirst, hsecond⟩ => ?_
  exact .ofResult_bind (refersInUnits_transition net sets htarget hfirst hsecond) fun _ _ =>
    .ofResult_bind (net.refersInUnits_resolve hsource) fun _ _ => .pure _

/-- The section of the decisions refers in vain only to values of units. -/
theorem refers_decisions (net : Network) : Refers (decisions net) :=
  (refers_stateIds net .decision).bind (yields_stateIds net .decision) fun _ _ => .pure _

/-- The section of the lexer actions refers in vain only to values of units. -/
theorem refers_lexerActions (revision : Revision) (net : Network) :
    Refers (lexerActions revision net) := by
  have haction : Refers lexerAction := by
    refine Refers.int.bind .int fun code _ => ?_
    split
    · exact .throw (failed (by simp))
    · exact Refers.int.bind .int fun _ _ => Refers.int.bind .int fun _ _ => .pure _
  rw [lexerActions]
  split
  · exact .pure _
  · split
    · exact (haction.counted yields_lexerAction.any).bind (.counted yields_lexerAction)
        fun _ _ => .pure _
    · exact .pure _

/-- The revision refers to no number. -/
theorem refers_revision : Refers revision := by
  have hpart : Refers identifierPart := Refers.unit.bind .unit fun _ _ => .pure _
  have hyields : Yields identifierPart fun _ => True := Yields.unit.bind fun _ _ => .pure trivial
  have hidentifier : Refers identifier :=
    (Refers.mapM _ (fun _ => hpart) fun _ => hyields).bind (.mapM _ fun _ => hyields)
      fun _ _ => .pure _
  have hfound : Yields identifier fun _ => True :=
    (Yields.mapM _ fun _ => hyields).bind fun _ _ => .pure trivial
  refine hidentifier.bind hfound fun found _ => ?_
  split
  · exact .pure _
  · exact .throw (failed (by simp))

/-- The header refers to no number. -/
theorem refers_header : Refers header := by
  refine Refers.int.bind .int fun code _ => ?_
  split
  · exact .throw (failed (by simp))
  · exact Refers.int.bind .int fun _ _ => .pure _

/-- A stream behind its version refers in vain only to values of units. -/
theorem refers_writtenBehindVersion : Refers writtenBehindVersion :=
  refers_revision.bind yields_revision fun revision _ =>
    refers_header.bind yields_header fun start _ =>
      (refers_states revision start).bind (yields_states revision start) fun made hmade =>
        (refers_rules hmade.1).bind (yields_rules made) fun base _ =>
          (refers_modes base).bind (yields_modes base) fun network _ =>
            (refers_intervalSet.counted yields_intervalSet.any).bind (.counted yields_intervalSet)
              fun sets hsets =>
                ((refers_edge network sets).counted (yields_edge hsets.2).any).bind
                  (.counted (yields_edge hsets.2)) fun _ _ => .pure _

/-! ## Whole loads -/

/-- The version that a stream begins with refers to nothing. -/
theorem refersInUnits_version (units : List UInt16) :
    RefersInUnits (version.runFrom (Cursor.start units)).1 := by
  refine refersInUnits_runFrom_bind (refersInUnits_int _) fun found next _ => ?_
  split
  · exact failed (by simp)
  · exact ok _

/-- Reading a stream up to its transitions refers in vain only to values of units. -/
theorem refersInUnits_written (units : List UInt16) :
    RefersInUnits (written.runFrom (Cursor.start units)).1 :=
  refersInUnits_runFrom_bind (d := version) (refersInUnits_version units) fun _ next hversion =>
    refers_writtenBehindVersion next (position_of_version hversion)

/-- Return transitions and links follow from what can be written. -/
theorem refersInUnits_linked {w : Written} (hw : WellRead w) : RefersInUnits w.linked := by
  have hkeeps := Network.keeps_addTransitions w.network w.edges
  refine RefersInUnits.bind (Network.refersInUnits_addReturnEdges fun s hs t ht => ?_)
    fun returned hreturned =>
      Network.refersInUnits_linkBlocksAndLoops fun s hs block stop hkind => ?_
  · obtain ⟨k, hk⟩ := Network.mem_states.mp hs
    have hnone : w.network.TransitionsAre fun _ => [] := hw.transitions
    rw [hnone.addTransitions w.edges k s hk] at ht
    obtain ⟨edge, hedge, rfl⟩ := List.mem_map.mp ht
    have hwritable := (hw.edges edge (List.mem_of_mem_filter hedge)).2
    exact isValue_of_isSome hw.states.size hwritable.1
  · obtain ⟨returns, -, rfl⟩ := Network.addReturnEdges_eq_ok.mp hreturned
    have hboth := hkeeps.trans (Network.keeps_addTransitions _ returns)
    have hstates := hw.states.of_keeps hboth.size hboth.keeps
    obtain ⟨k, hk⟩ := Network.mem_states.mp hs
    obtain ⟨id, hid, hlive⟩ := hstates.link k s hk (by rw [hkind]; cases block <;> rfl)
    rw [hkind] at hid
    cases hid
    exact isValue_of_isSome hstates.size hlive

/-- Reading a network refers in vain only to values of units. -/
theorem refersInUnits_network (units : List UInt16) :
    RefersInUnits (network.runFrom (Cursor.start units)).1 := by
  refine refersInUnits_runFrom_bind (refersInUnits_written units) fun w next hwritten => ?_
  obtain ⟨hposition, hw⟩ := wellRead_of_runOn hwritten
  have hrest := Refers.ofResult_bind (refersInUnits_linked hw) fun linked _ =>
    (refers_decisions linked).bind (yields_decisions linked) fun decided _ =>
      refers_lexerActions w.revision decided
  exact hrest next hposition

end Stream

namespace Network

/-- What follows decoding refers to rules by their indices, and to states that exist. -/
theorem refersInUnits_complete {decoded : Network}
    (h : decoded.markPrecedenceDecisions.WellReferenced)
    (hrules : Stream.IsValue (Stream.natValue decoded.markPrecedenceDecisions.ruleCount))
    (options : LoadOptions) : RefersInUnits (decoded.complete options) := by
  refine (h.refersInUnits_verifyIf options.verify).bind fun _ _ => ?_
  split
  · refine (refersInUnits_addBypasses hrules).bind fun bypassed hbypassed => ?_
    exact ((h.of_addBypasses hbypassed).refersInUnits_verifyIf options.verify).bind fun _ _ => ok _
  · exact ok _

/-- What a stream holds can be loaded without any options. -/
theorem load_of_network {units : List UInt16} {decoded : Network} {last : Stream.Cursor}
    (h : Stream.Decoder.network.runFrom (Stream.Cursor.start units) = (.ok decoded, last)) :
    load ⟨false, false⟩ units = .ok decoded.markPrecedenceDecisions := by
  have hrun : (loader ⟨false, false⟩).runFrom (Stream.Cursor.start units) =
      (.ok decoded.markPrecedenceDecisions, last) := by
    rw [loader, Stream.Decoder.runFrom_bind, h]
    rfl
  exact congrArg Prod.fst hrun

/-- If a load fails since a number refers to nothing, a unit can hold that number. -/
theorem refersInUnits_load (options : LoadOptions) (units : List UInt16) :
    RefersInUnits (load options units) := by
  refine Stream.refersInUnits_runFrom_bind (Stream.refersInUnits_network units)
    fun decoded next hdecoded => ?_
  obtain ⟨w, cursor, linked, ids, result, -, hloaded, -⟩ :=
    Stream.exists_loaded (load_of_network hdecoded)
  have hrules : decoded.markPrecedenceDecisions.ruleCount = w.network.ruleCount :=
    congrArg List.length hloaded.sameTables.2.1
  refine refersInUnits_complete hloaded.wellReferenced ?_ options
  rw [hrules]
  exact hloaded.wellRead.rules.count

end Network

end TransitionNetwork
