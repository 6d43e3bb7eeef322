/-!
# Token types

Token types number the symbols of a grammar's vocabulary. Vocabulary symbols start at
`Token.firstUser`; the values below it are reserved as markers in labels and lookahead sets.
-/

namespace TransitionNetwork

/-- The number of a token type; values below `Token.firstUser` are reserved. -/
abbrev TokenType := Int

namespace Token

/-- The end of the input. -/
def eof : TokenType := -1

/-- The end of a rule, reached without consuming input; it occurs in lookahead sets only. -/
def epsilon : TokenType := -2

/-- No token type; in a lookahead set it says that a predicate stopped the walk. -/
def invalid : TokenType := 0

/-- The least token type that a grammar may define. -/
def firstUser : TokenType := 1

end Token

end TransitionNetwork
