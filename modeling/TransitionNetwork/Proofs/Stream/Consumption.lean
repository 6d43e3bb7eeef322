import TransitionNetwork.Proofs.Stream.LoadedReferences

/-!
# What a load consumes

A load goes by the units that it reads. What it gives is decided by these alone, whatever follows
them in the stream, and it reads them before it looks at anything else: cut anywhere within them,
the stream ends too early, at the cut. Every decoder of a section has this property, because single
units have it and sequences of decoders keep it.
-/

namespace TransitionNetwork

namespace Stream

open Decoder

variable {α β : Type}

/-- Reading all of the units, the decoder asks for one more. -/
def Exhausts (d : Decoder α) (position : Nat) (units : List UInt16) : Prop :=
  d.runFrom ⟨units, position⟩ =
    (.error (.unexpectedEnd (position + units.length)), ⟨[], position + units.length⟩)

/-- The units decide what the decoder does: it reads just them and gives the result, whatever
follows them, and exhausts every part of them that is cut off. -/
structure Decides (d : Decoder α) (position : Nat) (units : List UInt16)
    (result : Except LoadError α) : Prop where
  reads : ∀ rest, d.runFrom ⟨units ++ rest, position⟩ = (result, ⟨rest, position + units.length⟩)
  exhausts : ∀ front back, units = front ++ back → back ≠ [] → Exhausts d position front

/-- Wherever the decoder stands, the units ahead begin with some that decide what it does, or it
exhausts them. -/
def Sequential (d : Decoder α) : Prop :=
  ∀ units position, (∃ read rest result, units = read ++ rest ∧ Decides d position read result) ∨
    Exhausts d position units

variable {d : Decoder α} {f : α → Decoder β} {position : Nat} {units units' : List UInt16}

/-! ## Two decoders one after the other -/

/-- A sequence goes on behind the units that decide a success of its first part. -/
theorem Decides.runFrom_bind {a : α} (hd : Decides d position units (.ok a))
    (rest : List UInt16) : (d >>= f).runFrom ⟨units ++ rest, position⟩ =
      (f a).runFrom ⟨rest, position + units.length⟩ := by
  rw [Decoder.runFrom_bind, hd.reads]

/-- A sequence exhausts what its first part exhausts. -/
theorem Exhausts.bind (hd : Exhausts d position units) : Exhausts (d >>= f) position units := by
  rw [Exhausts, Decoder.runFrom_bind, hd]

/-- Behind the units of its first part, a sequence exhausts what its second part exhausts. -/
theorem Exhausts.after {a : α} (hd : Decides d position units (.ok a))
    (hf : Exhausts (f a) (position + units.length) units') :
    Exhausts (d >>= f) position (units ++ units') := by
  rw [Exhausts, hd.runFrom_bind, hf, List.length_append, Nat.add_assoc]

/-- The units that decide a failure of the first part decide the sequence. -/
theorem Decides.bind_error {e : LoadError} (hd : Decides d position units (.error e)) :
    Decides (d >>= f) position units (.error e) where
  reads rest := by rw [Decoder.runFrom_bind, hd.reads]
  exhausts front back hunits hback := (hd.exhausts front back hunits hback).bind

/-- The units that decide both parts, one after the other, decide the sequence. -/
theorem Decides.bind {a : α} {result : Except LoadError β}
    (hd : Decides d position units (.ok a))
    (hf : Decides (f a) (position + units.length) units' result) :
    Decides (d >>= f) position (units ++ units') result where
  reads rest := by
    rw [List.append_assoc, hd.runFrom_bind, hf.reads, List.length_append, Nat.add_assoc]
  exhausts front back hunits hback := by
    -- The cut is within the units of the first part, or behind them.
    rcases List.append_eq_append_iff.mp hunits with ⟨behind, rfl, hsecond⟩ | ⟨missing, hfirst, hback'⟩
    · exact .after hd (hf.exhausts behind back hsecond hback)
    · by_cases hmissing : missing = []
      · subst hmissing
        rw [List.append_nil] at hfirst
        rw [List.nil_append] at hback'
        subst hfirst
        have hnone := hf.exhausts [] units' rfl (hback' ▸ hback)
        have hwhole : Exhausts (d >>= f) position (units ++ []) := .after hd hnone
        rwa [List.append_nil] at hwhole
      · exact (hd.exhausts front missing hfirst hmissing).bind

namespace Sequential

/-- Two decoders that are decided by what they consume are so one after the other. -/
theorem bind (hd : Sequential d) (hf : ∀ a, Sequential (f a)) : Sequential (d >>= f) := by
  intro units position
  rcases hd units position with ⟨read, rest, result, rfl, hread⟩ | hexhausts
  · cases result with
    | error e => exact Or.inl ⟨read, rest, .error e, rfl, hread.bind_error⟩
    | ok a =>
      rcases hf a rest (position + read.length) with ⟨read', rest', result', rfl, hread'⟩ | hexhausts
      · exact Or.inl ⟨read ++ read', rest', result', (List.append_assoc _ _ _).symm,
          hread.bind hread'⟩
      · exact Or.inr (.after hread hexhausts)
  · exact Or.inr hexhausts.bind

/-! ## Single steps -/

/-- A result that reads nothing is decided by no units. -/
theorem ofResult (result : Except LoadError α) : Sequential (Decoder.ofResult result) := by
  intro units position
  refine Or.inl ⟨[], units, result, rfl, fun rest => rfl, fun front back hunits hback => ?_⟩
  exact (hback (List.append_eq_nil_iff.mp hunits.symm).2).elim

/-- A result alone consumes nothing. -/
theorem pure (a : α) : Sequential (pure a) := ofResult (.ok a)

/-- An error alone consumes nothing. -/
theorem throw (e : LoadError) : Sequential (throw e : Decoder α) := ofResult (.error e)

/-- A decoder that reads one unit, and finds the end where there is none. -/
theorem of_unit (value : Nat → UInt16 → α)
    (hcons : ∀ unit rest position,
      d.runFrom ⟨unit :: rest, position⟩ = (.ok (value position unit), ⟨rest, position + 1⟩))
    (hnil : ∀ position, Exhausts d position []) : Sequential d := by
  intro units position
  cases units with
  | nil => exact Or.inr (hnil position)
  | cons unit rest =>
    refine Or.inl ⟨[unit], rest, .ok (value position unit), rfl, fun rest => hcons unit rest position,
      fun front back hunits hback => ?_⟩
    rcases List.append_eq_singleton_iff.mp hunits.symm with ⟨rfl, -⟩ | ⟨-, rfl⟩
    · exact hnil position
    · exact (hback rfl).elim

/-- A value is decided by its unit. -/
theorem int : Sequential Decoder.int :=
  of_unit (fun position unit => if position = 0 then (unit.toNat : Int) else decodeUnit unit)
    (fun _ _ _ => rfl) (fun _ => rfl)

/-- A part of an identifier is decided by its unit. -/
theorem identifierPart : Sequential Decoder.identifierPart :=
  of_unit (fun _ unit => (unit - 2).toNat) (fun _ _ _ => rfl) (fun _ => rfl)

/-- A count is decided by its unit, also if it is negative. -/
theorem count : Sequential Decoder.count := by
  refine int.bind fun value => ?_
  split
  · exact (throw _).bind fun _ => pure _
  · exact pure _

/-! ## Repeated decoders -/

/-- Items one after the other are decided by what each consumes. -/
theorem repeated {item : Nat → Decoder α} (h : ∀ k, Sequential (item k)) (n : Nat) :
    Sequential (Decoder.repeated n item) := by
  rw [Decoder.repeated]
  induction List.range n with
  | nil => exact pure []
  | cons k rest ih =>
    rw [List.mapM_cons]
    exact (h k).bind fun a => ih.bind fun items => pure (a :: items)

/-- A counted list is decided by its count and its items. -/
theorem counted {item : Decoder α} (h : Sequential item) : Sequential (Decoder.counted item) :=
  count.bind fun n => repeated (fun _ => h) n

/-- Changing the result changes nothing of what is consumed. -/
theorem map (g : α → β) (h : Sequential d) : Sequential (g <$> d) := by
  rw [map_eq_pure_bind]
  exact h.bind fun a => pure (g a)

/-! ## Sections -/

/-- An identifier is decided by its eight units. -/
theorem identifier : Sequential Decoder.identifier :=
  (repeated (fun _ => identifierPart) 8).bind fun _ => pure _

/-- The version is decided by its unit, also if it is refused. -/
theorem version : Sequential Decoder.version := by
  refine int.bind fun found => ?_
  split
  · exact throw _
  · exact pure _

/-- The revision is decided by the version and the identifier, also if they are refused. -/
theorem revision : Sequential Decoder.revision := by
  refine identifier.bind fun found => ?_
  split
  · exact pure _
  · exact throw _

/-- The header is decided by the units that it consumes. -/
theorem header : Sequential Decoder.header := by
  refine int.bind fun code => ?_
  split
  · exact throw _
  · exact int.bind fun _ => pure _

/-- A slot is decided by the units that it consumes; how many depends on the type of its state. -/
theorem slot (index : Nat) : Sequential (Decoder.slot index) := by
  refine int.bind fun code => ?_
  split
  · exact pure _
  · split
    · exact throw _
    · refine int.bind fun rule => ?_
      dsimp only
      split
      · exact (int.map some).bind fun _ => pure _
      · exact (pure none).bind fun _ => pure _

/-- A reference to a state is decided by its unit, also if there is no such state. -/
theorem stateAs (net : Network) (role : StateRole) : Sequential (Decoder.stateAs net role) :=
  int.bind fun _ => ofResult _

/-- The section of the states is decided by the units that it consumes. -/
theorem states (revision : Revision) (net : Network) :
    Sequential (Decoder.states revision net) := by
  refine count.bind fun n => (repeated slot n).bind fun entries => ?_
  refine (ofResult _).bind fun looped => (ofResult _).bind fun linked => ?_
  refine (counted (stateAs _ _)).bind fun nonGreedy => ?_
  dsimp only
  split
  · exact (counted (stateAs _ _)).bind fun _ => pure _
  · exact pure _

/-- A rule is decided by the units that it consumes; how many depends on the grammar. -/
theorem ruleEntry (net : Network) : Sequential (Decoder.ruleEntry net) := by
  refine (stateAs _ _).bind fun start => ?_
  split
  · exact int.bind fun _ => pure _
  · exact pure _

/-- The section of the rules is decided by the units that it consumes. -/
theorem rules (net : Network) : Sequential (Decoder.rules net) :=
  (counted (ruleEntry net)).bind fun _ => ofResult _

/-- The section of the modes is decided by the units that it consumes. -/
theorem modes (net : Network) : Sequential (Decoder.modes net) :=
  (counted (int.bind fun _ => ofResult _)).bind fun _ => pure _

/-- An interval is decided by its two units. -/
theorem interval : Sequential Decoder.interval := int.bind fun _ => int.bind fun _ => pure _

/-- A set is decided by the units that it consumes. -/
theorem intervalSet : Sequential Decoder.intervalSet :=
  count.bind fun size => int.bind fun _ => (repeated (fun _ => interval) size).bind fun _ => pure _

/-- The entry of a transition is decided by its six units. -/
theorem edgeEntry : Sequential Decoder.edgeEntry :=
  int.bind fun _ => int.bind fun _ => int.bind fun _ => int.bind fun _ => int.bind fun _ =>
    int.bind fun _ => pure _

/-- A transition is decided by its six units, also if it cannot be built. -/
theorem edge (net : Network) (sets : List IntervalSet) : Sequential (Decoder.edge net sets) :=
  edgeEntry.bind fun _ => (ofResult _).bind fun _ => (ofResult _).bind fun _ => pure _

/-- The section of the decisions is decided by the units that it consumes. -/
theorem decisions (net : Network) : Sequential (Decoder.decisions net) :=
  (counted (stateAs _ _)).bind fun _ => pure _

/-- A lexer action is decided by the units that it consumes, also if its type is unknown. -/
theorem lexerAction : Sequential Decoder.lexerAction := by
  refine int.bind fun code => ?_
  split
  · exact throw _
  · exact int.bind fun _ => int.bind fun _ => pure _

/-- The section of the lexer actions is decided by the units that it consumes. -/
theorem lexerActions (revision : Revision) (net : Network) :
    Sequential (Decoder.lexerActions revision net) := by
  rw [Decoder.lexerActions]
  split
  · exact pure _
  · split
    · exact (counted lexerAction).bind fun _ => pure _
    · exact pure _

/-- A stream up to its transitions is decided by the units that it consumes. -/
theorem written : Sequential Decoder.written :=
  version.bind fun _ => revision.bind fun revision => header.bind fun start =>
    (states revision start).bind fun stated => (rules stated).bind fun ruled =>
      (modes ruled).bind fun network => (counted intervalSet).bind fun sets =>
        (counted (edge network sets)).bind fun _ => pure _

/-- The network of a stream is decided by the units that it consumes. -/
theorem network : Sequential Decoder.network :=
  written.bind fun w => (ofResult _).bind fun linked => (decisions linked).bind fun decided =>
    lexerActions w.revision decided

/-- What is loaded is decided by the units that are consumed, whatever the options. -/
theorem loader (options : LoadOptions) : Sequential (Network.loader options) :=
  network.bind fun _ => ofResult _

end Sequential

/-- The units that decide a load are those that it has read when it ends, so they are all that is
of account if it does not exhaust the stream. -/
theorem Sequential.decides_runOn (hd : Sequential d)
    (hends : ∀ position, (d.runOn units).1 ≠ .error (.unexpectedEnd position)) :
    ∃ read, units = read ++ (d.runOn units).2.rest ∧ (d.runOn units).2.position = read.length ∧
      Decides d 0 read (d.runOn units).1 := by
  rcases hd units 0 with ⟨read, rest, result, rfl, hread⟩ | hexhausts
  · have hrun : d.runOn (read ++ rest) = (result, ⟨rest, 0 + read.length⟩) := hread.reads rest
    rw [hrun]
    exact ⟨read, rfl, Nat.zero_add _, hread⟩
  · have hrun : (d.runOn units).1 = .error (.unexpectedEnd (0 + units.length)) :=
      congrArg Prod.fst hexhausts
    exact (hends _ hrun).elim

end Stream

namespace Network

/-- What a load gives, unless it exhausts its stream, is decided by the units that it has consumed:
every stream that agrees with it there is loaded with the same result by the same units, and every
stream that is cut off before has its end found where it was cut. -/
theorem load_decided_by_consumed {options : LoadOptions} {units : List UInt16}
    (hends : ∀ position, load options units ≠ .error (.unexpectedEnd position)) :
    let consumed := ((loader options).runOn units).2.position
    consumed ≤ units.length ∧ ((loader options).runOn units).2.rest = units.drop consumed ∧
      (∀ other, other.take consumed = units.take consumed →
        load options other = load options units ∧
          ((loader options).runOn other).2.position = consumed) ∧
      ∀ k < consumed, load options (units.take k) = .error (.unexpectedEnd k) := by
  obtain ⟨read, hunits, hposition, hdecides⟩ :=
    (Stream.Sequential.loader options).decides_runOn hends
  have htake : units.take read.length = read := by
    rw [hunits, List.take_left' rfl]
  have hlength : read.length ≤ units.length := by
    rw [hunits, List.length_append]
    exact Nat.le_add_right _ _
  rw [hposition]
  refine ⟨hlength, ?_, fun other hother => ?_, fun k hk => ?_⟩
  · conv_rhs => rw [hunits, List.drop_left' rfl]
  · have hsplit := List.take_append_drop read.length other
    rw [hother.trans htake] at hsplit
    have hrun : (loader options).runOn other = _ := hsplit ▸ hdecides.reads _
    rw [load, load, hrun]
    exact ⟨rfl, Nat.zero_add _⟩
  · have hfront : units.take k = read.take k := by
      rw [← htake, List.take_take, Nat.min_eq_left (Nat.le_of_lt hk)]
    have hexhausts := hdecides.exhausts (read.take k) (read.drop k)
      (List.take_append_drop k read).symm (by simpa using hk)
    have hlengthCut : (read.take k).length = k := List.length_take_of_le (Nat.le_of_lt hk)
    rw [Stream.Exhausts, hlengthCut, Nat.zero_add] at hexhausts
    rw [hfront]
    exact congrArg Prod.fst hexhausts

/-- Any units may follow the parser with a loop, and none of its own can be spared. -/
theorem load_decided_by_consumed_loopParser :
    (∀ position, load ⟨true, true⟩ loopParserUnits ≠ .error (.unexpectedEnd position)) ∧
      (∀ behind, load ⟨true, true⟩ (loopParserUnits ++ behind) = load ⟨true, true⟩ loopParserUnits) ∧
      ∀ k < 124, load ⟨true, true⟩ (loopParserUnits.take k) = .error (.unexpectedEnd k) := by
  have hrun : (load ⟨true, true⟩ loopParserUnits).toOption.isSome = true ∧
      ((loader ⟨true, true⟩).runOn loopParserUnits).2.position = 124 ∧
      loopParserUnits.length = 124 := by decide +kernel
  obtain ⟨hloaded, hposition, hlength⟩ := hrun
  have hends (position : Nat) :
      load ⟨true, true⟩ loopParserUnits ≠ .error (.unexpectedEnd position) := fun h => by
    rw [h] at hloaded
    cases hloaded
  obtain ⟨-, -, hagree, hcut⟩ := load_decided_by_consumed hends
  rw [hposition] at hagree hcut
  refine ⟨hends, fun behind => (hagree _ ?_).1, hcut⟩
  rw [← hlength, List.take_left' rfl, List.take_length]

end Network

end TransitionNetwork
