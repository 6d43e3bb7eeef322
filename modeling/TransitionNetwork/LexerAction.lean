/-!
# Lexer actions

A lexer action is a command that runs when a token has been matched. In a serialized network
each action is a code and two operands, of which most actions use one or none.
-/

namespace TransitionNetwork

/-- The command that a lexer action gives, without its operands. -/
inductive LexerActionType where
  | channel
  | custom
  | mode
  | more
  | popMode
  | pushMode
  | skip
  | type
  deriving DecidableEq

namespace LexerActionType

/-- The serialized code. -/
def code : LexerActionType → Int
  | channel => 0
  | custom => 1
  | mode => 2
  | more => 3
  | popMode => 4
  | pushMode => 5
  | skip => 6
  | type => 7

/-- Every action type, in the order of the codes. -/
def all : List LexerActionType := [channel, custom, mode, more, popMode, pushMode, skip, type]

/-- The action type with a given code. -/
def ofCode? (code : Int) : Option LexerActionType := all.find? fun t => t.code = code

/-- The code of a lexer action type gives the type back. -/
theorem ofCode?_code (t : LexerActionType) : ofCode? t.code = some t := by
  cases t <;> rfl

end LexerActionType

/-- A command that runs when a token has been matched. -/
inductive LexerAction where
  /-- Put the token on a channel. -/
  | channel (number : Int)
  /-- Run an action embedded in the grammar. -/
  | custom (rule action : Int)
  /-- Change to a mode. -/
  | mode (number : Int)
  /-- Extend the token by the next match. -/
  | more
  /-- Return to the mode last left. -/
  | popMode
  /-- Change to a mode and keep the present one to return to. -/
  | pushMode (number : Int)
  /-- Drop the token. -/
  | skip
  /-- Give the token another type. -/
  | type (number : Int)
  deriving DecidableEq

namespace LexerAction

/-- The action of a command with two serialized operands; operands that the command has no use
for are dropped. -/
def ofOperands (command : LexerActionType) (first second : Int) : LexerAction :=
  match command with
  | .channel => .channel first
  | .custom => .custom first second
  | .mode => .mode first
  | .more => .more
  | .popMode => .popMode
  | .pushMode => .pushMode first
  | .skip => .skip
  | .type => .type first

/-- The command without its operands. -/
def actionType : LexerAction → LexerActionType
  | channel _ => .channel
  | custom _ _ => .custom
  | mode _ => .mode
  | more => .more
  | popMode => .popMode
  | pushMode _ => .pushMode
  | skip => .skip
  | type _ => .type

/-- The two operands, with a filler for those that the action does not have. -/
def operands (filler : Int) : LexerAction → Int × Int
  | channel n | mode n | pushMode n | type n => (n, filler)
  | custom rule action => (rule, action)
  | more | popMode | skip => (filler, filler)

/-- Whether the action depends on the input position at which it runs. -/
def isPositionDependent : LexerAction → Bool
  | custom _ _ => true
  | _ => false

/-- The command as a grammar writes it. -/
def text : LexerAction → String
  | channel n => "channel(" ++ toString n ++ ")"
  | custom rule action => "custom(" ++ toString rule ++ ", " ++ toString action ++ ")"
  | mode n => "mode(" ++ toString n ++ ")"
  | more => "more"
  | popMode => "popMode"
  | pushMode n => "pushMode(" ++ toString n ++ ")"
  | skip => "skip"
  | type n => "type(" ++ toString n ++ ")"

/-- An action is rebuilt from its type and its operands, whatever the filler. -/
theorem ofOperands_operands (a : LexerAction) (filler : Int) :
    ofOperands a.actionType (a.operands filler).1 (a.operands filler).2 = a := by
  cases a <;> rfl

end LexerAction

end TransitionNetwork
