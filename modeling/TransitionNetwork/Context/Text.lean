import TransitionNetwork.Context.Basic

/-!
# Text of contexts

The return states of a stack are written one behind the other, the innermost first, and `$`
stands for the empty stack. Several entries stand in brackets, separated by commas. An unknown
rest is left out behind a single entry and written `null` among several.
-/

namespace TransitionNetwork

namespace Context

mutual

/-- The stacks of a context in writing. -/
def text : Context → String
  | empty => "$"
  | node _ _ ⟨none, r⟩ [] => toString r
  | node _ _ ⟨some p, r⟩ [] => toString r ++ " " ++ text p
  | node _ _ first rest => "[" ++ entryText first ++ restText rest ++ "]"

/-- One of several entries in writing. -/
def entryText : Entry Context → String
  | ⟨none, r⟩ => if r = emptyReturn then "$" else toString r ++ " null"
  | ⟨some p, r⟩ => if r = emptyReturn then "$" else toString r ++ " " ++ text p

/-- The entries behind the first one in writing. -/
def restText : List (Entry Context) → String
  | [] => ""
  | e :: rest => ", " ++ entryText e ++ restText rest

end

end Context

end TransitionNetwork
