import TransitionNetwork.Stream.Identifier

/-!
# Revisions of the serialized format

The format has one version number and three revisions, each with an identifier of its own. A
revision has every feature of the earlier ones, so a feature is named by the revision that
introduced it.
-/

namespace TransitionNetwork

/-- The format version that is read and written. -/
def formatVersion : Int := 3

/-- A revision of the format, named for the feature that it introduced. -/
inductive Revision where
  /-- The earliest revision. -/
  | base
  /-- Precedence transitions and the list of rules with precedence levels. -/
  | precedence
  /-- The table of lexer actions. -/
  | lexerActions
  deriving DecidableEq

namespace Revision

/-- The identifier that marks a stream of this revision. -/
def identifier : Revision → String
  | base => "33761B2D-78BB-4A43-8B0B-4F5BEE8AACF3"
  | precedence => "1DA0C57D-6C06-438A-9B27-10BCB3CE0F61"
  | lexerActions => "AADB8D7E-AEEF-4415-AD2B-8204D6CF042E"

/-- Every revision, the oldest first. -/
def all : List Revision := [base, precedence, lexerActions]

/-- The revision that is written. -/
def newest : Revision := lexerActions

/-- The place of a revision in their order of age. -/
def rank : Revision → Nat
  | base => 0
  | precedence => 1
  | lexerActions => 2

/-- The revision that an identifier marks; the text has to agree letter for letter. -/
def ofIdentifier? (s : String) : Option Revision := all.find? fun r => r.identifier = s

/-- Whether a revision has the feature that another one introduced. -/
def supports (r feature : Revision) : Bool := decide (feature.rank ≤ r.rank)

/-- The number behind the identifier of a revision. -/
def identifierValue (r : Revision) : Nat := (Identifier.parse? r.identifier).getD 0

end Revision

/-- Whether streams marked `actual` have the feature introduced by the revision marked `feature`;
no unknown identifier has or introduces one. -/
def isFeatureSupported (feature actual : String) : Bool :=
  match Revision.ofIdentifier? feature, Revision.ofIdentifier? actual with
  | some feature, some actual => actual.supports feature
  | _, _ => false

end TransitionNetwork
