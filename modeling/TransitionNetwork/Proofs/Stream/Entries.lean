import TransitionNetwork.Proofs.IntervalSet.Canonical
import TransitionNetwork.Proofs.Network.WrittenPart
import TransitionNetwork.Proofs.Stream.UnitCodec
import TransitionNetwork.Stream.Sections

/-!
# Reading single entries back

The values of a slot, an interval set, a transition or a lexer action are read back as the entry
that they were written for, provided that its numbers fit into units and its references are to
states and sets that the reader knows. An absent number and the end of the input in a set or a
label have written forms of their own.
-/

namespace TransitionNetwork

/-! ## What can be written -/

/-- The link that is written for a kind of state. -/
def StateKind.writtenLink? : StateKind → Option StateId
  | loopEnd loopBack => loopBack
  | blockStart _ stop => stop
  | _ => none

/-- A state as it is made when its slot is read. -/
def State.fresh (s : State) : State :=
  { State.new (.ofType s.kind.type) s.rule with number := s.number }

/-- A set that can be written: its intervals are canonical and lie between the end of the input
and the greatest value of a unit. -/
structure IntervalSet.Writable (s : IntervalSet) : Prop where
  canonical : Canonical s.intervals
  bounds : ∀ i ∈ s.intervals, -1 ≤ i.start ∧ i.stop ≤ 65533

/-- What a kind of transition has to keep to be written in a network, with the target of the
transition: its numbers fit into units, its set can be written, and a call leads to a rule and
back to a state. -/
def TransitionKind.Writable (net : Network) (target : StateId) : TransitionKind → Prop
  | epsilon outermostReturn => outermostReturn = none
  | range start stop => Stream.IsValue start ∧ Stream.IsValue stop
  | .rule callee level follow =>
    (net.kind? target).any StateRole.ruleStart.admits ∧ Stream.IsValue callee ∧
      Stream.IsValue level ∧ (net.state? follow).isSome
  | .predicate owner index _ => Stream.IsValue owner ∧ Stream.IsValue index
  | .precedence level => Stream.IsValue level
  | atom label => Stream.IsValue label
  | .action owner index _ => Stream.IsValue owner ∧ ∀ i ∈ index, Stream.IsValue i
  | set label => label.Writable
  | notSet excluded => excluded.Writable
  | wildcard => True

/-- A transition that can be written in a network. -/
def Transition.Writable (net : Network) (t : Transition) : Prop :=
  (net.state? t.target).isSome ∧ t.kind.Writable net t.target

/-- A lexer action that can be written. -/
def LexerAction.Writable (a : LexerAction) : Prop :=
  Stream.IsValue (a.operands 0).1 ∧ Stream.IsValue (a.operands 0).2

namespace Stream

open Decoder

/-- A unit can hold zero. -/
theorem isValue_zero : IsValue 0 := by decide

/-! ## Header -/

/-- The identifier of the newest revision marks it. -/
theorem reads_revision : Reads revision (identifierValues .newest) .newest := by
  have htext : Revision.ofIdentifier? (Identifier.text Revision.newest.identifierValue) =
      some .newest := by decide
  apply (reads_identifier Revision.newest.identifierValue).bind_end
  rw [htext]
  exact Reads.pure _

/-- A grammar type and a greatest token type. -/
theorem reads_header (net : Network) (h : IsValue net.maxTokenType) :
    Reads header [net.grammar.code, net.maxTokenType]
      { grammar := net.grammar, maxTokenType := net.maxTokenType, slots := #[], decisions := [],
        ruleStarts := [], ruleStops := [], modeStarts := [], ruleTokenTypes := [],
        lexerActions := [] } := by
  have hcode : IsValue net.grammar.code := by
    cases net.grammar <;> decide
  apply (Reads.int hcode).bind
  rw [GrammarType.ofCode?_code]
  exact (Reads.int h).bind (Reads.pure _)

/-! ## Slots -/

/-- An optional number that fits into a unit, or else `-1`. -/
theorem reads_optional {n : Option Nat} (h : ∀ i ∈ n, IsValue i) :
    Reads int [optionalValue n] ((n.map Int.ofNat).getD (-1)) := by
  cases n with
  | none => exact Reads.int_absent
  | some i => exact Reads.int (h i rfl)

/-- An index that may be missing is read as it was, from -1 if it is missing. -/
theorem optionalIndex_getD (n : Option Nat) : optionalIndex ((n.map Int.ofNat).getD (-1)) = n := by
  cases n <;> rfl

/-- The entry of a slot as it is read. -/
def slotEntry : Option State → SlotEntry
  | none => ⟨none, none⟩
  | some s =>
    ⟨some s.fresh,
      if s.kind.type.hasLink then some ((s.kind.writtenLink?.map Int.ofNat).getD (-1)) else none⟩

/-- A slot that holds a state of its number, or none. -/
theorem reads_slot {slot : Option State} {k : Nat} (hnumber : ∀ s ∈ slot, s.number = k)
    (hrule : ∀ s ∈ slot, ∀ r ∈ s.rule, IsValue r)
    (hlink : ∀ s ∈ slot, ∀ id ∈ s.kind.writtenLink?, IsValue id) :
    Reads (Decoder.slot k) (slotValues slot) (slotEntry slot) := by
  cases slot with
  | none => exact (Reads.int (by decide)).bind (Reads.pure _)
  | some s =>
    obtain rfl : s.number = k := hnumber s rfl
    have hcode : IsValue s.kind.type.code := by
      generalize s.kind.type = type
      cases type <;> decide
    have hhole : s.kind.type.code ≠ StateType.holeCode := by
      generalize s.kind.type = type
      cases type <;> decide
    apply (Reads.int hcode).bind
    rw [if_neg hhole, StateType.ofCode?_code]
    apply (reads_optional (hrule s rfl)).bind
    rw [optionalIndex_getD]
    have hend := reads_optional (hlink s rfl)
    rw [slotEntry, State.fresh]
    generalize hkind : s.kind = kind at hend
    rcases kind with _ | _ | _ | ⟨_ | _ | _, _⟩ | _ | _ | _ | _ | _ | _
    case loopEnd | blockStart.basic | blockStart.star | blockStart.plus =>
      exact (hend.map some).bind_end (Reads.pure _)
    all_goals exact Reads.pure _

/-! ## Interval sets -/

/-- Intervals behind the end of the input are written bound by bound. -/
theorem reads_intervals {intervals : List Interval} (h : IntervalSet.Canonical intervals)
    (hbounds : ∀ i ∈ intervals, 0 ≤ i.start ∧ i.stop ≤ 65533) :
    Reads (repeated intervals.length fun _ => interval) (intervals.flatMap intervalValues)
      intervals := by
  suffices Reads (repeated intervals.length fun _ => interval)
      (intervals.flatMap intervalValues) (intervals.map id) by
    rwa [List.map_id] at this
  apply Reads.repeated
  intro k i hk
  have hi := List.mem_of_getElem? hk
  have hle := h.nonempty i hi
  obtain ⟨hstart, hstop⟩ := hbounds i hi
  have hvalues : intervalValues i = [i.start, i.stop] := if_neg (by rw [Token.eof]; lia)
  rw [hvalues]
  exact (Reads.int ⟨by lia, by lia⟩).bind ((Reads.int ⟨by lia, by lia⟩).bind_end (Reads.pure _))

/-- Intervals behind the end of the input, and the flag of the end of the input. -/
theorem reads_flagged {intervals : List Interval} (h : IntervalSet.Canonical intervals)
    (hbounds : ∀ i ∈ intervals, 0 ≤ i.start ∧ i.stop ≤ 65533) (eof : Bool) :
    Reads intervalSet
      (natValue intervals.length :: (if eof then 1 else 0) :: intervals.flatMap intervalValues)
      (.ofIntervals (if eof then ⟨Token.eof, Token.eof⟩ :: intervals else intervals)) := by
  have hlength := h.length_le hbounds (by lia)
  apply (Reads.count ⟨by lia, by lia⟩).bind
  have hflag : IsValue (if eof then 1 else 0) := by cases eof <;> decide
  refine (Reads.int hflag).bind ((reads_intervals h hbounds).bind_end ?_)
  cases eof <;> exact Reads.pure _

/-- Intervals that begin behind the end of the input do not contain it. -/
theorem contains_eof_eq_false {intervals : List Interval} (h : ∀ i ∈ intervals, 0 ≤ i.start) :
    IntervalSet.contains ⟨intervals⟩ Token.eof = false := by
  apply List.any_eq_false.mpr
  intro i hi
  have hstart := h i hi
  rw [Interval.contains, Token.eof, decide_eq_false (by lia)]
  exact Bool.false_ne_true

/-- A set that does not contain the end of the input. -/
theorem reads_setBehindEof {intervals : List Interval} (h : IntervalSet.Canonical intervals)
    (hbounds : ∀ i ∈ intervals, 0 ≤ i.start ∧ i.stop ≤ 65533) :
    Reads intervalSet (setValues ⟨intervals⟩) ⟨intervals⟩ := by
  have hread := reads_flagged h hbounds false
  rw [if_neg Bool.false_ne_true, if_neg Bool.false_ne_true,
    IntervalSet.ofIntervals_of_canonical h] at hread
  rw [setValues, leavesFirst, contains_eof_eq_false fun i hi => (hbounds i hi).1]
  exact hread

/-- The end of the input joins an interval that begins right behind it. -/
theorem ofIntervals_eof_cons {stop : Int} (hstop : 0 ≤ stop) (rest : List Interval) :
    IntervalSet.ofIntervals (⟨Token.eof, Token.eof⟩ :: ⟨0, stop⟩ :: rest) =
      .ofIntervals (⟨Token.eof, stop⟩ :: rest) := by
  have hle : Token.eof ≤ stop := Int.le_trans (by decide) hstop
  have hjoined : IntervalSet.insertRange ⟨[⟨Token.eof, Token.eof⟩]⟩ 0 stop =
      ⟨[⟨Token.eof, stop⟩]⟩ := by
    rw [IntervalSet.insertRange, if_neg (by lia), IntervalSet.insertInterval,
      if_neg (by rw [Token.eof]; lia), if_pos (by rw [Token.eof]; lia), Int.max_eq_left hle]
    rfl
  have hwhole : IntervalSet.insertRange ∅ Token.eof stop = ⟨[⟨Token.eof, stop⟩]⟩ :=
    if_neg (by lia)
  rw [IntervalSet.ofIntervals, IntervalSet.ofIntervals, List.foldl_cons, List.foldl_cons,
    List.foldl_cons]
  change rest.foldl _ (IntervalSet.insertRange ⟨[⟨Token.eof, Token.eof⟩]⟩ 0 stop) =
    rest.foldl _ (IntervalSet.insertRange ∅ Token.eof stop)
  rw [hjoined, hwhole]

/-- A set whose first interval begins with the end of the input, which is moved to the flag. -/
theorem reads_setFromEof {stop : Int} {rest : List Interval}
    (h : IntervalSet.Canonical (⟨Token.eof, stop⟩ :: rest)) (hstop : stop ≤ 65533)
    (hbounds : ∀ i ∈ rest, 0 ≤ i.start ∧ i.stop ≤ 65533) :
    Reads intervalSet (setValues ⟨⟨Token.eof, stop⟩ :: rest⟩) ⟨⟨Token.eof, stop⟩ :: rest⟩ := by
  have hle : Token.eof ≤ stop := h.head
  have hcontains : IntervalSet.contains ⟨⟨Token.eof, stop⟩ :: rest⟩ Token.eof = true := by
    rw [IntervalSet.contains, List.any_cons, Interval.contains, decide_eq_true hle]
    rfl
  by_cases honly : stop = Token.eof
  · subst honly
    have hread := reads_flagged h.tail hbounds true
    rw [if_pos rfl, if_pos rfl, IntervalSet.ofIntervals_of_canonical h] at hread
    rw [setValues, leavesFirst, hcontains]
    exact hread
  · have hpos : 0 ≤ stop := by
      rw [Token.eof] at hle honly
      lia
    -- The interval is written without the end of the input, which rejoins it when read.
    have hbehind : IntervalSet.Canonical (⟨0, stop⟩ :: rest) := .cons hpos h.gap h.tail
    have hread := reads_flagged hbehind
      (List.forall_mem_cons.mpr ⟨⟨Int.le_refl 0, hstop⟩, hbounds⟩) true
    rw [if_pos rfl, if_pos rfl, ofIntervals_eof_cons hpos,
      IntervalSet.ofIntervals_of_canonical h] at hread
    have hleaves : leavesFirst ⟨⟨Token.eof, stop⟩ :: rest⟩ = false := by
      rw [leavesFirst, hcontains]
      exact decide_eq_false honly
    have hvalues : intervalValues ⟨Token.eof, stop⟩ = intervalValues ⟨0, stop⟩ := by
      rw [intervalValues, if_pos rfl, if_neg honly]
      rfl
    rw [setValues, hleaves, hcontains, List.flatMap_cons, hvalues]
    exact hread

/-- A set that can be written is read back. -/
theorem reads_intervalSet {s : IntervalSet} (h : s.Writable) :
    Reads intervalSet (setValues s) s := by
  obtain ⟨intervals⟩ := s
  obtain ⟨hcanonical, hbounds⟩ := h
  change IntervalSet.Canonical intervals at hcanonical
  change ∀ i ∈ intervals, _ at hbounds
  rcases intervals with _ | ⟨⟨start, stop⟩, rest⟩
  · exact reads_setBehindEof hcanonical fun i hi => by cases hi
  obtain ⟨⟨hstart, hstop⟩, hrest⟩ := List.forall_mem_cons.mp hbounds
  have hbehind : ∀ j ∈ rest, 0 ≤ j.start ∧ j.stop ≤ 65533 := fun j hj => by
    have hle : start ≤ stop := hcanonical.head
    have hgap : stop + 1 < j.start := hcanonical.gap j hj
    exact ⟨by lia, (hrest j hj).2⟩
  by_cases heof : start = Token.eof
  · subst heof
    exact reads_setFromEof hcanonical hstop hbehind
  · refine reads_setBehindEof hcanonical (List.forall_mem_cons.mpr ⟨⟨?_, hstop⟩, hbehind⟩)
    rw [Token.eof] at heof
    lia

/-! ## Transitions -/

/-- Six values that are read one by one are a serialized transition. -/
theorem reads_edgeEntry {source target code first second third : Int} {entry : EdgeEntry}
    (hsource : Reads int [source] entry.source) (htarget : Reads int [target] entry.target)
    (hcode : Reads int [code] entry.code) (hfirst : Reads int [first] entry.first)
    (hsecond : Reads int [second] entry.second) (hthird : Reads int [third] entry.third) :
    Reads edgeEntry [source, target, code, first, second, third] entry :=
  hsource.bind (htarget.bind (hcode.bind (hfirst.bind (hsecond.bind (hthird.bind_end
    (Reads.pure _))))))

/-- A number that was written for a reference is read as it was. -/
theorem natural_natValue (what : Referent) (n : Nat) : natural what (natValue n) = .ok n :=
  if_neg (by rw [natValue]; lia)

/-- The start of a label is read back from its argument and the flag of the end of the input. -/
theorem label_labelValues (label : TokenType) :
    (if (labelValues label).2 ≠ 0 then Token.eof else (labelValues label).1) = label := by
  rw [labelValues]
  split
  next h => exact h.symm
  next => rfl

/-- Units can hold the two values of a label if they can hold the label. -/
theorem isValue_labelValues {label : TokenType} (h : IsValue label) :
    IsValue (labelValues label).1 ∧ IsValue (labelValues label).2 := by
  rw [labelValues]
  split
  · decide
  · exact ⟨h, isValue_zero⟩

/-- A unit can hold a flag. -/
theorem isValue_flagValue (flag : Bool) : IsValue (flagValue flag) := by
  cases flag <;> decide

/-- A flag is read as it was. -/
theorem flagValue_bne_zero (flag : Bool) : (flagValue flag != 0) = flag := by
  cases flag <;> rfl

/-- A set of a list is found by the place at which it is first found. -/
theorem set_idxOf {sets : List IntervalSet} {s : IntervalSet} (h : s ∈ sets) :
    transition.set sets (natValue (sets.idxOf s)) = .ok s := by
  have hindex : optionalIndex (natValue (sets.idxOf s)) = some (sets.idxOf s) := if_neg (by
    rw [natValue]
    lia)
  rw [transition.set, hindex, Option.bind_some, List.getElem?_idxOf h]

/-- A set that is found is one of the list. -/
theorem mem_of_set_eq_ok {sets : List IntervalSet} {number : Int} {s : IntervalSet}
    (h : transition.set sets number = .ok s) : s ∈ sets := by
  rw [transition.set] at h
  split at h
  next found hfound =>
    cases h
    obtain ⟨i, -, hi⟩ := Option.bind_eq_some_iff.mp hfound
    exact List.mem_of_getElem? hi
  · cases h

/-- A unit can hold the place of a set if it can hold how many there are. -/
theorem isValue_idxOf {sets : List IntervalSet} {s : IntervalSet} (hcount : IsValue sets.length)
    (h : s ∈ sets) : IsValue (natValue (sets.idxOf s)) := by
  have hlt := List.idxOf_lt_length_of_mem h
  obtain ⟨-, hcount⟩ := hcount
  rw [natValue]
  exact ⟨by lia, by lia⟩

/-- The number of a state fits into a unit if the number of slots does. -/
theorem isValue_of_isSome {net : Network} (hsize : IsValue net.slots.size) {id : StateId}
    (h : (net.state? id).isSome) : IsValue (natValue id) := by
  obtain ⟨s, hs⟩ := Option.isSome_iff_exists.mp h
  have hlt := Network.lt_size_of_state? hs
  obtain ⟨-, hsize⟩ := hsize
  rw [natValue]
  exact ⟨by lia, by lia⟩

/-- The number that is written for a state leads back to it. -/
theorem resolve_natValue {net : Network} {id : StateId} (h : (net.state? id).isSome) :
    net.resolve (natValue id) = .ok id := Network.resolve_eq_ok.mpr ⟨rfl, h⟩

/-- A unit can hold the code of a type of transition. -/
theorem isValue_code (type : TransitionType) : IsValue type.code := by
  cases type <;> decide

/-- The entry as which a transition is read. An action without an index has -1 for it, whatever
stands for it in the stream. -/
def entryOf (sets : List IntervalSet) (source : StateId) (t : Transition) : EdgeEntry :=
  let entry := EdgeEntry.mk (natValue source) (natValue t.target) t.type.code
  match t.kind with
  | .epsilon _ | .wildcard => entry 0 0 0
  | .range start stop => entry (labelValues start).1 stop (labelValues start).2
  | .rule callee level follow =>
    ⟨natValue source, natValue follow, t.type.code, natValue t.target, natValue callee, level⟩
  | .predicate owner index contextDependent =>
    entry (natValue owner) (natValue index) (flagValue contextDependent)
  | .precedence level => entry level 0 0
  | .atom label => entry (labelValues label).1 0 (labelValues label).2
  | .action owner index contextDependent =>
    entry (natValue owner) ((index.map Int.ofNat).getD (-1)) (flagValue contextDependent)
  | .set label | .notSet label => entry (natValue (sets.idxOf label)) 0 0

/-- Every entry begins with the source of the transition. -/
theorem source_entryOf (sets : List IntervalSet) (source : StateId) (t : Transition) :
    (entryOf sets source t).source = natValue source := by
  obtain ⟨target, kind⟩ := t
  cases kind <;> rfl

section

variable {net : Network} {sets : List IntervalSet} {t : Transition} (ht : t.Writable net)
  (hset : ∀ s ∈ usedSet? t, s ∈ sets)

include ht hset

/-- The values of a transition that can be written are read as its entry. -/
theorem reads_entryOf (hsize : IsValue net.slots.size) (hcount : IsValue sets.length)
    {source : StateId} (hsource : (net.state? source).isSome) :
    Reads edgeEntry (natValue source :: transitionValues sets t) (entryOf sets source t) := by
  obtain ⟨target, kind⟩ := t
  obtain ⟨htarget, hkind⟩ := ht
  have hfrom := Reads.int (isValue_of_isSome hsize hsource)
  have hto := Reads.int (isValue_of_isSome hsize htarget)
  have hcode := Reads.int (isValue_code kind.type)
  have hzero := Reads.int isValue_zero
  cases kind with
  | epsilon | wildcard => exact reads_edgeEntry hfrom hto hcode hzero hzero hzero
  | range start stop =>
    obtain ⟨hfirst, hthird⟩ := isValue_labelValues hkind.1
    exact reads_edgeEntry hfrom hto hcode (Reads.int hfirst) (Reads.int hkind.2) (Reads.int hthird)
  | rule callee level follow =>
    obtain ⟨-, hcallee, hlevel, hfollow⟩ := hkind
    exact reads_edgeEntry hfrom (Reads.int (isValue_of_isSome hsize hfollow)) hcode hto
      (Reads.int hcallee) (Reads.int hlevel)
  | predicate owner index contextDependent =>
    exact reads_edgeEntry hfrom hto hcode (Reads.int hkind.1) (Reads.int hkind.2)
      (Reads.int (isValue_flagValue _))
  | precedence level => exact reads_edgeEntry hfrom hto hcode (Reads.int hkind) hzero hzero
  | atom label =>
    obtain ⟨hfirst, hthird⟩ := isValue_labelValues hkind
    exact reads_edgeEntry hfrom hto hcode (Reads.int hfirst) hzero (Reads.int hthird)
  | action owner index contextDependent =>
    exact reads_edgeEntry hfrom hto hcode (Reads.int hkind.1) (reads_optional hkind.2)
      (Reads.int (isValue_flagValue _))
  | set label =>
    have hfirst := isValue_idxOf hcount (hset label rfl)
    exact reads_edgeEntry hfrom hto hcode (Reads.int hfirst) hzero hzero
  | notSet excluded =>
    have hfirst := isValue_idxOf hcount (hset excluded rfl)
    exact reads_edgeEntry hfrom hto hcode (Reads.int hfirst) hzero hzero

/-- From the entry of a transition that can be written the transition is rebuilt. -/
theorem transition_entryOf (source : StateId) :
    transition net sets (entryOf sets source t) = .ok t := by
  obtain ⟨target, kind⟩ := t
  obtain ⟨htarget, hkind⟩ := ht
  have hresolve := resolve_natValue htarget
  cases kind with
  | epsilon outermostReturn =>
    obtain rfl : outermostReturn = none := hkind
    exact bind_eq_ok.mpr ⟨target, hresolve, rfl⟩
  | range start stop =>
    refine bind_eq_ok.mpr ⟨target, hresolve, ?_⟩
    exact congrArg (fun label => Except.ok (Transition.mk target (.range label stop)))
      (label_labelValues start)
  | rule callee level follow =>
    obtain ⟨hstart, -, -, hfollow⟩ := hkind
    refine bind_eq_ok.mpr ⟨follow, resolve_natValue hfollow, ?_⟩
    have hrule : net.resolveAs .ruleStart (natValue target) = .ok target :=
      Network.resolveAs_eq_ok.mpr ⟨rfl, hstart⟩
    refine bind_eq_ok.mpr ⟨target, hrule, bind_eq_ok.mpr ⟨callee, ?_, rfl⟩⟩
    exact natural_natValue .rule callee
  | predicate owner index contextDependent =>
    refine bind_eq_ok.mpr ⟨target, hresolve, bind_eq_ok.mpr ⟨owner, natural_natValue .rule owner,
      bind_eq_ok.mpr ⟨index, natural_natValue .predicate index, ?_⟩⟩⟩
    exact congrArg (fun flag => Except.ok (Transition.mk target (.predicate owner index flag)))
      (flagValue_bne_zero contextDependent)
  | precedence level => exact bind_eq_ok.mpr ⟨target, hresolve, rfl⟩
  | atom label =>
    refine bind_eq_ok.mpr ⟨target, hresolve, ?_⟩
    exact congrArg (fun label => Except.ok (Transition.mk target (.atom label)))
      (label_labelValues label)
  | action owner index contextDependent =>
    refine bind_eq_ok.mpr ⟨target, hresolve, bind_eq_ok.mpr ⟨owner, natural_natValue .rule owner,
      ?_⟩⟩
    exact congrArg₂ (fun index flag => Except.ok (Transition.mk target (.action owner index flag)))
      (optionalIndex_getD index) (flagValue_bne_zero contextDependent)
  | set label =>
    exact bind_eq_ok.mpr ⟨target, hresolve, bind_eq_ok.mpr ⟨label, set_idxOf (hset label rfl), rfl⟩⟩
  | notSet excluded =>
    exact bind_eq_ok.mpr ⟨target, hresolve,
      bind_eq_ok.mpr ⟨excluded, set_idxOf (hset excluded rfl), rfl⟩⟩
  | wildcard => exact bind_eq_ok.mpr ⟨target, hresolve, rfl⟩

end

/-- A transition behind its source state. -/
theorem reads_edge {net : Network} {sets : List IntervalSet} {t : Transition}
    (hsize : IsValue net.slots.size) (hcount : IsValue sets.length) (ht : t.Writable net)
    (hset : ∀ s ∈ usedSet? t, s ∈ sets) {source : StateId} (hsource : (net.state? source).isSome) :
    Reads (edge net sets) (natValue source :: transitionValues sets t) (source, t) := by
  have hbuilt := transition_entryOf ht hset source
  refine (reads_entryOf ht hset hsize hcount hsource).bind_end ((Reads.ofResult hbuilt).bind_nil ?_)
  have hresolve : net.resolve (entryOf sets source t).source = .ok source := by
    rw [source_entryOf]
    exact resolve_natValue hsource
  exact (Reads.ofResult hresolve).bind_nil (Reads.pure _)

/-! ## Lexer actions -/

/-- A lexer action, whose missing operands are written as zeros. -/
theorem reads_lexerAction {a : LexerAction} (h : a.Writable) :
    Reads lexerAction (lexerActionValues a) a := by
  have hcode : IsValue a.actionType.code := by
    generalize a.actionType = command
    cases command <;> decide
  apply (Reads.int hcode).bind
  rw [LexerActionType.ofCode?_code]
  refine (Reads.int h.1).bind ((Reads.int h.2).bind_end ?_)
  rw [LexerAction.ofOperands_operands]
  exact Reads.pure a

end Stream

end TransitionNetwork
