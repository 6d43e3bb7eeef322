import Mathlib.Data.Set.Defs
import TransitionNetwork.Network.Basic

/-!
# The languages of rules

A network accepts words of tokens from the first state of a rule on. A transition that calls a rule
leads to the first state of that rule and leaves the state in which to continue pending; at the end
of a rule the last pending state is entered, and no transition is followed. A word belongs to the
language of the rule if it leads to the end of a rule with nothing pending.
-/

namespace TransitionNetwork

/-- A state and the states in which pending calls continue, the latest call first. -/
structure Place where
  state : StateId
  pending : List StateId

/-- Where a transition leads from a place with pending calls, and the token that it consumes, if it
consumes one. `greatest` is the greatest token type of the vocabulary. -/
inductive Transition.Leads (greatest : TokenType) (t : Transition) (pending : List StateId) :
    Option TokenType → Place → Prop
  | call {follow : StateId} (hfollow : t.follow? = some follow) :
      Leads greatest t pending none ⟨t.target, follow :: pending⟩
  | pass (hepsilon : t.isEpsilon) (hnone : t.follow? = none) :
      Leads greatest t pending none ⟨t.target, pending⟩
  | consume {token : TokenType} (haccepts : t.accepts token Token.firstUser greatest) :
      Leads greatest t pending (some token) ⟨t.target, pending⟩

/-- Only calls have a state in which to continue. -/
theorem Transition.exists_kind_of_follow? {t : Transition} {follow : StateId}
    (h : t.follow? = some follow) : ∃ rule level, t.kind = .rule rule level follow := by
  obtain ⟨target, kind⟩ := t
  cases kind with
  | rule rule level next =>
    cases h
    exact ⟨rule, level, rfl⟩
  | _ => cases h

/-- A transition that consumes nothing leads to its target with the same calls pending. -/
theorem Transition.leads_epsilon (greatest : TokenType) (id : StateId) (pending : List StateId) :
    (Transition.epsilon id).Leads greatest pending none ⟨id, pending⟩ := .pass rfl rfl

/-- A transition that consumes nothing leads nowhere else. -/
theorem Transition.eq_of_leads_epsilon {greatest : TokenType} {id : StateId}
    {pending : List StateId} {label : Option TokenType} {place : Place}
    (h : (Transition.epsilon id).Leads greatest pending label place) :
    label = none ∧ place = ⟨id, pending⟩ := by
  cases h with
  | call hfollow => cases hfollow
  | pass => exact ⟨rfl, rfl⟩
  | consume haccepts => cases haccepts

/-- A transition with a single token consumes that token. -/
theorem Transition.eq_of_leads_atom {greatest : TokenType} {id : StateId} {token : TokenType}
    {pending : List StateId} {label : Option TokenType} {place : Place}
    (h : (Transition.atom id token).Leads greatest pending label place) : label = some token := by
  cases h with
  | call hfollow => cases hfollow
  | pass hepsilon => cases hepsilon
  | consume haccepts => rw [of_decide_eq_true haccepts]

namespace Network

/-- A move from a place to another one: back from the end of a rule, or along a transition of any
other state. -/
inductive Move (net : Network) : Place → Option TokenType → Place → Prop
  | back {id follow : StateId} {pending : List StateId} {s : State}
      (hstate : net.state? id = some s) (hstop : s.kind.isRuleStop) :
      Move net ⟨id, follow :: pending⟩ none ⟨follow, pending⟩
  | along {id : StateId} {pending : List StateId} {s : State} {t : Transition}
      {label : Option TokenType} {place : Place} (hstate : net.state? id = some s)
      (hgoes : s.kind.isRuleStop = false) (ht : t ∈ s.transitions)
      (hleads : t.Leads net.maxTokenType pending label place) :
      Move net ⟨id, pending⟩ label place

/-- Moves one after the other, with the word of the tokens that they consume. -/
inductive Path (net : Network) : Place → List TokenType → Place → Prop
  | here (place : Place) : Path net place [] place
  | move {first next last : Place} {label : Option TokenType} {word : List TokenType}
      (hmove : net.Move first label next) (hrest : Path net next word last) :
      Path net first (label.toList ++ word) last

/-- The words that lead from the first state of a rule to the end of a rule, with nothing pending
there. -/
def language (net : Network) (rule : RuleIndex) : Set (List TokenType) :=
  { word | ∃ start stop, net.ruleStart? rule = some start ∧
    (net.kind? stop).any StateKind.isRuleStop ∧ net.Path ⟨start, []⟩ word ⟨stop, []⟩ }

variable {net : Network} {first next last : Place}

/-- Paths that meet form a path with the words one after the other. -/
theorem Path.trans {word word' : List TokenType} (h : net.Path first word next)
    (h' : net.Path next word' last) : net.Path first (word ++ word') last := by
  induction h with
  | here => exact h'
  | move hmove _ ih =>
    rw [List.append_assoc]
    exact .move hmove (ih h')

/-- Paths depend on the states and on the greatest token type alone. -/
theorem Path.of_state? (net' : Network) (hstate : ∀ k, net'.state? k = net.state? k)
    (hmax : net'.maxTokenType = net.maxTokenType) {word : List TokenType}
    (h : net.Path first word last) : net'.Path first word last := by
  induction h with
  | here => exact .here _
  | move hmove _ ih =>
    refine .move ?_ ih
    cases hmove with
    | back hs hstop => exact .back ((hstate _).trans hs) hstop
    | along hs hgoes ht hleads => exact .along ((hstate _).trans hs) hgoes ht (hmax ▸ hleads)

/-- A move is a path. -/
theorem Move.path {label : Option TokenType} (h : net.Move first label next) :
    net.Path first label.toList next := by
  have hpath := Path.move h (.here next)
  rwa [List.append_nil] at hpath

end Network

end TransitionNetwork
