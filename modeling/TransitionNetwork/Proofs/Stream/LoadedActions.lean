import TransitionNetwork.Proofs.Network.TabulatedActions
import TransitionNetwork.Proofs.Stream.LoadedReferences

/-!
# Actions of loaded networks

A lexer whose identifier is older than the table of lexer actions gets its table from its action
transitions, after the decisions are read. The other streams leave every state as it is then, and
hold the table themselves or have none.
-/

namespace TransitionNetwork

namespace Stream

namespace Decoder

/-- The revision that a stream is tagged with, whatever follows its identifier. -/
def tag : Decoder Revision := do
  version
  revision

/-- The network of a stream up to its decisions, before any lexer action is read. -/
def decided : Decoder Network := do
  let w ← written
  let net ← ofResult w.linked
  decisions net

end Decoder

open Decoder

/-- The revision that units are tagged with. -/
def taggedRevision (units : List UInt16) : Except LoadError Revision := (tag.runOn units).1

/-- The network that units hold up to its decisions. -/
def decidedNetwork (units : List UInt16) : Except LoadError Network := (decided.runOn units).1

/-- What a stream is read as has the revision that the stream is tagged with. -/
theorem taggedRevision_of_runOn {units : List UInt16} {w : Written} {cursor : Cursor}
    (h : written.runOn units = (.ok w, cursor)) : taggedRevision units = .ok w.revision := by
  obtain ⟨_, tagged, hversion, h⟩ := runFrom_bind_eq_ok
    (d := version) (f := fun _ => writtenBehindVersion) h
  obtain ⟨revision, behind, hrevision, h⟩ := runFrom_bind_eq_ok h
  have htag : tag.runFrom (Cursor.start units) = (.ok revision, behind) := by
    rw [tag, runFrom_bind, hversion]
    exact hrevision
  obtain ⟨net, _, -, h⟩ := runFrom_bind_eq_ok h
  obtain ⟨made, _, -, h⟩ := runFrom_bind_eq_ok h
  obtain ⟨base, _, -, h⟩ := runFrom_bind_eq_ok h
  obtain ⟨network, _, -, h⟩ := runFrom_bind_eq_ok h
  obtain ⟨sets, _, -, h⟩ := runFrom_bind_eq_ok h
  obtain ⟨edges, _, -, h⟩ := runFrom_bind_eq_ok h
  cases h
  exact congrArg Prod.fst htag

/-- What reading the lexer actions makes of a network: in a lexer from before their table, the
actions of its transitions are moved into one; otherwise only the table is filled. -/
def ActionsFrom (revision : Revision) (before result : Network) : Prop :=
  if before.grammar = .lexer ∧ revision.supports .lexerActions = false then
    result = before.tabulateActions
  else ∃ actions, result = { before with lexerActions := actions }

/-- The section of the lexer actions makes of a network what is said of it. -/
theorem yields_actionsFrom (revision : Revision) (before : Network) :
    Yields (lexerActions revision before) (ActionsFrom revision before) := by
  rw [lexerActions]
  split
  next hparser =>
    refine Yields.pure ?_
    rw [ActionsFrom, if_neg fun h => by simp [hparser] at h]
    exact ⟨before.lexerActions, rfl⟩
  next hlexer =>
    split
    next hsupports =>
      refine (Yields.counted yields_lexerAction).bind fun actions _ => Yields.pure ?_
      rw [ActionsFrom, if_neg fun h => by simp [hsupports] at h]
      exact ⟨actions, rfl⟩
    next hsupports =>
      refine Yields.pure ?_
      rw [ActionsFrom, if_pos ⟨hlexer, Bool.eq_false_iff.mpr hsupports⟩]

/-- Reading lexer actions changes no state but by renumbering its actions, and none in a stream that
is new enough. -/
theorem ActionsFrom.states {revision : Revision} {before result : Network}
    (h : ActionsFrom revision before result) (k : StateId) :
    Option.Rel (State.Renumbered result.lexerActions.length) (before.state? k)
      (result.state? k) ∧
    (¬ (before.grammar = .lexer ∧ revision.supports .lexerActions = false) →
      result.state? k = before.state? k) := by
  rw [ActionsFrom] at h
  split at h
  next hold =>
    subst h
    exact ⟨before.state?_tabulateActions k, fun hnew => absurd hold hnew⟩
  next hnew =>
    obtain ⟨actions, rfl⟩ := h
    refine ⟨?_, fun _ => rfl⟩
    change Option.Rel _ (before.state? k) (before.state? k)
    cases before.state? k with
    | none => exact Option.Rel.none
    | some s => exact Option.Rel.some (State.Renumbered.refl _ s)

/-- The lexer actions leave the type of the grammar. -/
theorem ActionsFrom.grammar_eq {revision : Revision} {before result : Network}
    (h : ActionsFrom revision before result) : result.grammar = before.grammar := by
  rw [ActionsFrom] at h
  split at h
  · rw [h]
    rfl
  · obtain ⟨actions, rfl⟩ := h
    rfl

/-- A load without bypass transitions reads the network up to its decisions, then its lexer actions,
and marks precedence decisions at last. -/
theorem exists_decided {verify : Bool} {units : List UInt16} {net : Network}
    (h : Network.load ⟨verify, false⟩ units = .ok net) :
    ∃ revision before result, taggedRevision units = .ok revision ∧
      decidedNetwork units = .ok before ∧ ActionsFrom revision before result ∧
        net = result.markPrecedenceDecisions := by
  obtain ⟨last, hlast⟩ : ∃ last, (Network.loader ⟨verify, false⟩).runFrom (Cursor.start units) =
      (.ok net, last) := ⟨_, Prod.ext h rfl⟩
  obtain ⟨result, final, hnetwork, hcomplete⟩ := runFrom_bind_eq_ok hlast
  obtain ⟨w, cursor, hwritten, hnetwork⟩ := runFrom_bind_eq_ok hnetwork
  obtain ⟨linked, behind, hlinked, hnetwork⟩ := runFrom_bind_eq_ok hnetwork
  obtain ⟨before, next, hdecisions, hactions⟩ := runFrom_bind_eq_ok hnetwork
  have hdecided : decided.runFrom (Cursor.start units) = (.ok before, next) := by
    rw [decided, runFrom_bind, hwritten]
    change (ofResult w.linked >>= decisions).runFrom cursor = _
    rw [runFrom_bind, hlinked]
    exact hdecisions
  rw [runFrom_ofResult, Prod.mk.injEq] at hlinked hcomplete
  obtain ⟨-, rfl⟩ := hlinked
  obtain ⟨hposition, -⟩ := wellRead_of_runOn hwritten
  obtain ⟨hnext, -⟩ := yields_decisions linked _ next before hposition hdecisions
  exact ⟨w.revision, before, result, taggedRevision_of_runOn hwritten, congrArg Prod.fst hdecided,
    (yields_actionsFrom _ _ next final result hnext hactions).2, eq_of_complete hcomplete.1⟩

end Stream

namespace Network

/-- In a lexer whose identifier is older than the table of lexer actions, under all options, the
actions of the transitions that the stream was read with are moved into a table, entry by entry in
order of the states and of their transitions, and nothing else changes. After that only precedence
decisions are marked. -/
theorem actionsTabulated_of_load {options : LoadOptions} {units : List UInt16} {net : Network}
    {revision : Revision} (h : load options units = .ok net) (hlexer : net.grammar = .lexer)
    (htag : Stream.taggedRevision units = .ok revision)
    (hold : revision.supports .lexerActions = false) :
    ∃ before result, Stream.decidedNetwork units = .ok before ∧ ActionsTabulated before result ∧
      net = result.markPrecedenceDecisions ∧ net.lexerActions = result.lexerActions ∧
      net.actionTransitions = result.actionTransitions := by
  obtain ⟨tagged, before, result, htagged, hdecided, hactions, rfl⟩ :=
    Stream.exists_decided (load_of_lexer h hlexer)
  cases htag.symm.trans htagged
  have hgrammar : before.grammar = .lexer := hactions.grammar_eq.symm.trans hlexer
  rw [Stream.ActionsFrom, if_pos ⟨hgrammar, hold⟩] at hactions
  subst hactions
  obtain ⟨-, hmarks⟩ := before.tabulateActions.revises_markPrecedenceDecisions
  have htransitions := (hmarks.keeps.comp State.transitions).map_states hmarks.size
  refine ⟨before, _, hdecided, before.actionsTabulated, rfl, rfl, ?_⟩
  rw [actionTransitions, actionTransitions, List.flatMap_def, List.flatMap_def]
  exact congrArg (fun ts => actionsOf ts.flatten) htransitions

end Network

/-- A lexer in the earliest revision, whose rule is a choice between two actions, one of them
without an index and followed by a third. -/
def threeActionUnits : List UInt16 :=
  Stream.encode ([3] ++ Stream.identifierValues .base ++ [0, 1] ++
    [6, 6, 65535, 2, 0, 7, 0, 3, 0, 4, 8, 0, 1, 0] ++ [0] ++ [1, 1, 1] ++ [1, 0] ++ [0] ++
    [6, 0, 1, 1, 0, 0, 0, 1, 3, 1, 0, 0, 0, 3, 4, 6, 0, 5, 1, 3, 5, 6, 0, 65535, 0, 5, 4, 6, 0, 2, 1,
      4, 2, 1, 0, 0, 0] ++ [2, 0, 3])

/-- Its actions are given the entries 0, 1 and 2. -/
theorem Network.actionsTabulated_of_load_threeActions :
    ∃ net before result, Network.load ⟨true, false⟩ threeActionUnits = .ok net ∧
      Stream.decidedNetwork threeActionUnits = .ok before ∧
      ActionsTabulated before result ∧ net = result.markPrecedenceDecisions ∧
      net.actionTransitions = [⟨4, .action 0 (some 0) false⟩, ⟨5, .action 0 (some 1) false⟩,
        ⟨4, .action 0 (some 2) false⟩] ∧
      net.lexerActions = [.custom 0 5, .custom 0 (-1), .custom 0 2] := by
  have hload : ((Network.load ⟨true, false⟩ threeActionUnits).toOption.map fun net =>
      (net.grammar, net.actionTransitions, net.lexerActions)) =
        some (.lexer, [⟨4, .action 0 (some 0) false⟩, ⟨5, .action 0 (some 1) false⟩,
          ⟨4, .action 0 (some 2) false⟩], [.custom 0 5, .custom 0 (-1), .custom 0 2]) := by
    decide +kernel
  have htag : (Stream.taggedRevision threeActionUnits).toOption = some .base := by decide +kernel
  obtain ⟨net, hnet, hfacts⟩ := Option.map_eq_some_iff.mp hload
  obtain ⟨hlexer, hfacts⟩ := Prod.mk.inj hfacts
  obtain ⟨hactions, hentries⟩ := Prod.mk.inj hfacts
  obtain ⟨before, result, hbefore, htabulated, hmarked, -⟩ := Network.actionsTabulated_of_load
    (eq_ok_of_toOption hnet) hlexer (eq_ok_of_toOption htag) (by decide)
  exact ⟨net, before, result, eq_ok_of_toOption hnet, hbefore, htabulated, hmarked, hactions,
    hentries⟩

end TransitionNetwork
