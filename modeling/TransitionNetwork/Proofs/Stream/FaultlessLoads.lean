import TransitionNetwork.Proofs.Network.Faultless
import TransitionNetwork.Proofs.Stream.LoadErrors
import TransitionNetwork.Proofs.Stream.LoadedLabels
import TransitionNetwork.Stream.Words

/-!
# Loads without faults

Whatever a stream holds, its load ends in a network or in an error, without an overflow, an index
out of range or a state number that saturates, and what was loaded is written without an underflow.
A count that is read is at most the greatest value of a unit, which bounds slots and rules, and the
greatest token type is such a value, so that bypasses stay far below the greatest word.
-/

namespace TransitionNetwork

namespace Stream

open Decoder

/-- No unit overflows when it is decoded. -/
theorem decodeUnitInWords_eq (unit : UInt16) : decodeUnitInWords unit = some (decodeUnit unit) := by
  rw [decodeUnitInWords, decodeUnit]
  split
  · rfl
  · have hlt := unit.toNat_lt
    have hleast : Word.least = -2147483648 := rfl
    have hgreatest : Word.greatest = 2147483647 := rfl
    exact Word.check_eq_some ⟨by lia, by lia⟩

/-- What a unit can hold a word can hold. -/
theorem IsValue.holds {value : Int} (h : IsValue value) : Word.Holds value := by
  have hleast : Word.least = -2147483648 := rfl
  have hgreatest : Word.greatest = 2147483647 := rfl
  obtain ⟨hlow, hhigh⟩ := h
  exact ⟨by lia, by lia⟩

namespace WordDecoder

variable {α β : Type}

/-! ## Decoders in words -/

/-- A decoder runs in words as it runs. -/
theorem runFrom_ofDecoder (d : Decoder α) (cursor : Cursor) :
    (ofDecoder d).runFrom cursor = some (d.runFrom cursor) :=
  if_pos (List.all_eq_true.mpr fun unit _ => by rw [decodeUnitInWords_eq]; rfl)

/-- A sequence has no fault if its parts have none. -/
theorem runFrom_bind {d' : WordDecoder α} {d : Decoder α} {f' : α → WordDecoder β}
    {f : α → Decoder β} {cursor : Cursor} (hd : d'.runFrom cursor = some (d.runFrom cursor))
    (hf : ∀ a next, d.runFrom cursor = (.ok a, next) →
      (f' a).runFrom next = some ((f a).runFrom next)) :
    (d' >>= f').runFrom cursor = some ((d >>= f).runFrom cursor) := by
  rw [runFrom] at hd
  rw [runFrom, ExceptT.run_bind, StateT.run_bind, hd, Option.bind_eq_bind, Option.bind_some,
    Decoder.runFrom_bind]
  rcases hrun : d.runFrom cursor with ⟨_ | a, next⟩
  · rfl
  · exact hf a next hrun

/-- A computation without a fault gives its result wherever the decoder stands. -/
theorem runFrom_ofChecked {c : Checked α} {result : Except LoadError α} (h : c.run = some result)
    (cursor : Cursor) :
    (ofChecked c).runFrom cursor = some ((ofResult result).runFrom cursor) := by
  change c.run.map (·, cursor) = _
  rw [h]
  rfl

/-- Inside a stream, the decoder in words does what the decoder does, without a fault. -/
def RunsAs (d' : WordDecoder α) (d : Decoder α) : Prop :=
  ∀ cursor : Cursor, 0 < cursor.position → d'.runFrom cursor = some (d.runFrom cursor)

namespace RunsAs

/-- A decoder that is run as it is has no fault. -/
theorem ofDecoder (d : Decoder α) : RunsAs (ofDecoder d) d := fun cursor _ =>
  runFrom_ofDecoder d cursor

/-- A result alone has no fault. -/
theorem pure (a : α) : RunsAs (pure a) (pure a) := fun _ _ => rfl

/-- An error alone is no fault. -/
theorem throw (e : LoadError) : RunsAs (throw e : WordDecoder α) (throw e) := fun _ _ => rfl

/-- A computation without a fault runs as one that is not checked. -/
theorem ofChecked {c : Checked α} {result : Except LoadError α} (h : c.run = some result) :
    RunsAs (ofChecked c) (ofResult result) := fun cursor _ => runFrom_ofChecked h cursor

/-- Two parts without a fault have none one after the other; the second may rely on what the first
yields. -/
theorem bind {d' : WordDecoder α} {d : Decoder α} {P : α → Prop} {f' : α → WordDecoder β}
    {f : α → Decoder β} (hd : RunsAs d' d) (hyields : Yields d P)
    (hf : ∀ a, P a → RunsAs (f' a) (f a)) : RunsAs (d' >>= f') (d >>= f) :=
  fun cursor hposition => runFrom_bind (hd cursor hposition) fun a next hrun =>
    have ⟨hnext, ha⟩ := hyields cursor next a hposition hrun
    hf a ha next hnext

/-- A value that is found without a fault leaves the rest. -/
theorem lift_bind {x : Option α} {a : α} (hx : x = some a) {f' : α → WordDecoder β}
    {d : Decoder β} (hf : RunsAs (f' a) d) :
    RunsAs (WordDecoder.ofChecked (ExceptT.lift x) >>= f') d := fun cursor hposition => by
  rw [← hf cursor hposition, hx]
  rfl

/-- Repeated items have no fault if none of them has one. -/
theorem mapM {items : List β} {d' : β → WordDecoder α} {d : β → Decoder α}
    (h : ∀ b ∈ items, RunsAs (d' b) (d b)) (hyields : ∀ b, Yields (d b) fun _ => True) :
    RunsAs (items.mapM d') (items.mapM d) := by
  induction items with
  | nil => exact pure []
  | cons b rest ih =>
    obtain ⟨hb, hrest⟩ := List.forall_mem_cons.mp h
    rw [List.mapM_cons, List.mapM_cons]
    exact hb.bind (hyields b) fun a _ => (ih hrest).bind (.mapM rest hyields) fun _ _ => pure _

end RunsAs

/-! ## Sections in words -/

/-- The number of a slot is given to its state without saturation. -/
theorem runsAs_slotInWords {index : Nat} (h : (index : Int) ≤ Word.greatest) :
    RunsAs (slotInWords index) (slot index) := by
  refine (RunsAs.ofDecoder int).bind .int fun code _ => ?_
  split
  · exact .pure _
  · cases StateType.ofCode? code with
    | none => exact .throw _
    | some type =>
      refine (RunsAs.ofDecoder int).bind .int fun rule _ => ?_
      refine .lift_bind (Word.checkIndex_eq_some h) ?_
      dsimp only
      split
      · exact (RunsAs.ofDecoder (some <$> int)).bind
          (Yields.map (P := fun _ => True) some Yields.int.any) fun _ _ => .pure _
      · exact (RunsAs.pure none).bind (Yields.pure (P := fun _ => True) trivial) fun _ _ => .pure _

/-- A stream has no more states than a word can number. -/
theorem runsAs_statesInWords (revision : Revision) (net : Network) :
    RunsAs (statesInWords revision net) (states revision net) := by
  rw [states_eq]
  refine (RunsAs.ofDecoder count).bind .count fun n hn => ?_
  have hyields (index : Nat) : Yields (slot index) fun _ => True := (yields_slot index).any
  refine (RunsAs.mapM (fun index hindex => runsAs_slotInWords ?_) hyields).bind
    (.mapM _ hyields) fun entries _ => .ofDecoder _
  have hlt := List.mem_range.mp hindex
  have hgreatest := hn.holds.2
  lia

/-- Reading the rules in words has no fault. -/
theorem runsAs_rulesInWords (net : Network) : RunsAs (rulesInWords net) (rules net) :=
  (RunsAs.ofDecoder _).bind (.counted (yields_ruleEntry net)) fun _ _ =>
    .ofChecked (Network.run_linkRuleStopsInWords _)

/-- Every interval that is read is put at a place within the set. -/
theorem runsAs_intervalSetInWords : RunsAs intervalSetInWords intervalSet := by
  refine (RunsAs.ofDecoder count).bind .count fun size _ => ?_
  refine (RunsAs.ofDecoder int).bind .int fun eof _ => ?_
  refine (RunsAs.ofDecoder _).bind (.repeated fun _ => yields_interval) fun intervals hread => ?_
  have hbounds : ∀ i ∈ intervals, Word.Holds i.start ∧ Word.Holds i.stop := by
    intro i hi
    obtain ⟨k, hk⟩ := List.getElem?_of_mem hi
    obtain ⟨hstart, hstop⟩ := hread.2 k i hk
    exact ⟨hstart.holds, hstop.holds⟩
  -- the interval of the flag stands in front of those that were read
  have hwords : ∀ i ∈ if eof ≠ 0 then ⟨Token.eof, Token.eof⟩ :: intervals else intervals,
      Word.Holds i.start ∧ Word.Holds i.stop := by
    have heof : Word.Holds Token.eof := ⟨by decide, by decide⟩
    split
    · exact List.forall_mem_cons.mpr ⟨⟨heof, heof⟩, hbounds⟩
    · exact hbounds
  refine .ofChecked ?_
  rw [IntervalSet.ofIntervalsInBounds_eq hwords]
  rfl

/-- Reading the sets in words has no fault, since the bounds that a unit holds are words. -/
theorem runsAs_setsInWords : RunsAs setsInWords (counted intervalSet) :=
  (RunsAs.ofDecoder count).bind .count fun _ _ => .mapM (fun _ _ => runsAs_intervalSetInWords)
    fun _ => yields_intervalSet.any

/-- The stream up to its transitions has no fault. -/
theorem runsAs_writtenBehindVersionInWords :
    RunsAs writtenBehindVersionInWords writtenBehindVersion :=
  (RunsAs.ofDecoder revision).bind yields_revision fun revision _ =>
    (RunsAs.ofDecoder header).bind yields_header fun start _ =>
      (runsAs_statesInWords revision start).bind (yields_states revision start) fun made _ =>
        (runsAs_rulesInWords made).bind (yields_rules made) fun base _ =>
          (RunsAs.ofDecoder (modes base)).bind (yields_modes base) fun network _ =>
            runsAs_setsInWords.bind (.counted yields_intervalSet) fun sets hsets =>
              (RunsAs.ofDecoder (counted (edge network sets))).bind
                (.counted (yields_edge hsets.2)) fun _ _ => .pure _

/-- Reading a network has no fault. -/
theorem runFrom_networkInWords (units : List UInt16) :
    networkInWords.runFrom (Cursor.start units) = some (network.runFrom (Cursor.start units)) := by
  refine runFrom_bind ?_ fun w next _ => ?_
  · exact runFrom_bind (d := version) (runFrom_ofDecoder version _) fun _ next hversion =>
      runsAs_writtenBehindVersionInWords next (position_of_version hversion)
  · exact runFrom_bind (runFrom_ofChecked rfl next) fun linked _ _ =>
      runFrom_bind (runFrom_ofDecoder _ _) fun decided _ _ => runFrom_ofDecoder _ _

end WordDecoder

/-! ## Writing in words -/

/-- An interval is left to the flag only if there is one. -/
theorem toNat_leavesFirst_le (s : IntervalSet) : (leavesFirst s).toNat ≤ s.intervals.length := by
  rw [leavesFirst]
  cases s.intervals with
  | nil => simp
  | cons i rest => exact Nat.le_trans (Bool.toNat_le _) (Nat.le_add_left 1 rest.length)

/-- A set with canonical intervals is written without an underflow. -/
theorem setValuesInWords_eq {s : IntervalSet} (h : IntervalSet.Canonical s.intervals) :
    setValuesInWords s = some (setValues s) := by
  have hcount : Word.subtract s.intervals.length (leavesFirst s).toNat =
      some (s.intervals.length - (leavesFirst s).toNat) := if_pos (toNat_leavesFirst_le s)
  rw [leavesFirst] at hcount
  rw [setValuesInWords, IntervalSet.search_eq_contains h, hcount]
  rfl

/-- The values of a network whose sets are canonical are computed in words without a fault. -/
theorem valuesInWords_eq {net : Network}
    (h : ∀ used ∈ usedSets net, IntervalSet.Canonical used.intervals) (revision : Revision) :
    valuesInWords revision net = some (values revision net) := by
  have hsets : (usedSets net).mapM setValuesInWords = some ((usedSets net).map setValues) :=
    mapM_eq_pure fun used hused => setValuesInWords_eq (h used hused)
  rw [valuesInWords, setSectionInWords, hsets]
  rfl

end Stream

namespace Network

/-! ## Whole loads -/

/-- A network whose sets are canonical is written in words without a fault. -/
theorem serializeInWords_eq {net : Network}
    (h : ∀ used ∈ Stream.usedSets net, IntervalSet.Canonical used.intervals) :
    net.serializeInWords = some net.serialize := by
  rw [serializeInWords, Stream.valuesInWords_eq h]
  rfl

/-- What bypasses need: few slots and rules, and a small vocabulary. -/
structure Roomy (net : Network) : Prop where
  slots : net.slots.size ≤ 65533
  rules : net.ruleCount ≤ 65533
  maxTokenType : Stream.IsValue net.maxTokenType

/-- A load without bypass transitions leaves room for them. -/
theorem roomy_of_loaded {options : LoadOptions} {w : Stream.Decoder.Written}
    {linked result net : Network} {ids : List StateId}
    (h : Stream.Loaded options w linked ids result net) : net.Roomy := by
  obtain ⟨-, hrules, hslots⟩ := h.sameTables
  have hsize := h.wellRead.states.size.2
  have hcount := h.wellRead.rules.count.2
  have hrules : net.ruleCount = w.network.ruleStarts.length := congrArg List.length hrules
  exact ⟨by lia, by lia, h.maxTokenType⟩

/-- In a network with room for bypasses, they are added without a fault. -/
theorem Roomy.run_addBypassesInWords {net : Network} (h : net.Roomy) :
    net.addBypassesInWords.run = some net.addBypasses := by
  obtain ⟨hslots, hrules, hlow, hhigh⟩ := h
  have hleast : Word.least = -2147483648 := rfl
  have hgreatest : Word.greatest = 2147483647 := rfl
  exact Network.run_addBypassesInWords (by lia) (by lia) (by lia)

/-- A network with room for bypasses is completed in words without a fault. -/
theorem run_completeInWords {decoded : Network} (h : decoded.markPrecedenceDecisions.Roomy)
    (options : LoadOptions) :
    (decoded.completeInWords options).run = some (decoded.complete options) := by
  rw [completeInWords, complete]
  refine Checked.run_bind rfl fun _ _ => ?_
  split
  · exact Checked.run_bind h.run_addBypassesInWords fun net _ => Checked.run_bind rfl fun _ _ => rfl
  · rfl

/-- What a stream holds has room for bypasses. -/
theorem roomy_of_network {units : List UInt16} {decoded : Network} {last : Stream.Cursor}
    (h : Stream.Decoder.network.runFrom (Stream.Cursor.start units) = (.ok decoded, last)) :
    decoded.markPrecedenceDecisions.Roomy := by
  obtain ⟨w, cursor, linked, ids, result, -, hloaded, -⟩ := Stream.exists_loaded (load_of_network h)
  exact roomy_of_loaded hloaded

/-- A number that a unit can hold is reported as it is. -/
theorem reportInWords_eq {result : Except LoadError Network} (h : RefersInUnits result) :
    reportInWords result = some result := by
  cases result with
  | ok net => rfl
  | error e =>
    cases e with
    | missing what number =>
      rw [reportInWords, Word.check_eq_some (h what number rfl).holds]
      rfl
    | _ => rfl

/-- A load does in words what it does. -/
theorem loadInWords_eq (options : LoadOptions) (units : List UInt16) :
    loadInWords options units = some (load options units) := by
  have hrun : (loaderInWords options).runFrom (Stream.Cursor.start units) =
      some ((loader options).runFrom (Stream.Cursor.start units)) :=
    Stream.WordDecoder.runFrom_bind (Stream.WordDecoder.runFrom_networkInWords units)
      fun _ next hnetwork => Stream.WordDecoder.runFrom_ofChecked
        (run_completeInWords (roomy_of_network hnetwork) options) next
  rw [loadInWords, hrun]
  exact reportInWords_eq (refersInUnits_load options units)

/-- The states of a loaded network are at most four times as many as a unit can count. -/
theorem size_le_of_load {options : LoadOptions} {units : List UInt16} {net : Network}
    (h : load options units = .ok net) : net.slots.size ≤ 4 * 65533 := by
  refine load_induct (P := fun net => net.slots.size ≤ 4 * 65533) h (fun hloaded => ?_)
    fun hloaded hbypasses => ?_
  · have hslots := (roomy_of_loaded hloaded).slots
    lia
  · obtain ⟨hslots, hrules, -⟩ := roomy_of_loaded hloaded
    have hsize := size_addBypasses hbypasses
    lia

/-- Every load ends in a network or in a load error: no index is out of range, nothing overflows and
no state number saturates, on the way to any of them. What was loaded is written without an
underflow, and numbers its states far below the greatest word. -/
theorem load_faultless (options : LoadOptions) (units : List UInt16) :
    loadInWords options units = some (load options units) ∧
      ∀ net, load options units = .ok net →
        (∀ s ∈ net.states, s.number < 4 * 65533) ∧
          net.serializeInWords = some net.serialize := by
  refine ⟨loadInWords_eq options units, fun net hload => ⟨fun s hs => ?_, ?_⟩⟩
  · obtain ⟨k, hk⟩ := mem_states.mp hs
    have hnumber := (wellReferenced_of_load hload).numbered k s hk
    have hlt := lt_size_of_state? hk
    have hsize := size_le_of_load hload
    lia
  · exact serializeInWords_eq (canonical_of_load hload)

/-- The parser of two rules loads with its bypasses, and is written. -/
theorem load_faultless_loopParser :
    loadInWords ⟨true, true⟩ loopParserUnits = some (load ⟨true, true⟩ loopParserUnits) ∧
      ∃ net, load ⟨true, true⟩ loopParserUnits = .ok net ∧ net.slots.size = 19 ∧
        net.serializeInWords = some net.serialize := by
  have hload : ((load ⟨true, true⟩ loopParserUnits).toOption.map (·.slots.size)) = some 19 := by
    decide +kernel
  obtain ⟨net, hnet, hsize⟩ := Option.map_eq_some_iff.mp hload
  have hok := eq_ok_of_toOption hnet
  obtain ⟨hsame, hloaded⟩ := load_faultless ⟨true, true⟩ loopParserUnits
  exact ⟨hsame, net, hok, hsize, (hloaded net hok).2⟩

end Network

end TransitionNetwork
