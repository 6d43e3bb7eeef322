import TransitionNetwork.Network.Words
import TransitionNetwork.Proofs.IntervalSet.Words
import TransitionNetwork.Proofs.Network.Bypassed

/-!
# Network steps without faults

The rule tables are as long as there are rules, so that a rule that was checked indexes both. Each
bypass adds three states, so that state numbers and bypass tokens are words as long as the slots,
the rules and the vocabulary together leave room for them. Then the steps in words give what the
steps on unbounded numbers give.
-/

namespace TransitionNetwork

/-- An index up to the greatest word passes the check. -/
theorem Word.checkIndex_eq_some {index : Nat} (h : (index : Int) ≤ Word.greatest) :
    Word.checkIndex index = some index := if_pos h

/-! ## Checked computations -/

namespace Checked

variable {α β : Type}

/-- A sequence has no fault if its parts have none. -/
theorem run_bind {x : Checked α} {r : Except LoadError α} (hx : x.run = some r)
    {f : α → Checked β} {g : α → Except LoadError β}
    (hf : ∀ a, r = .ok a → (f a).run = some (g a)) : (x >>= f).run = some (r >>= g) := by
  rw [ExceptT.run_bind, hx]
  cases r with
  | error e => rfl
  | ok a => exact hf a rfl

/-- A first part that only has no fault leaves the rest. -/
theorem run_lift_bind {x : Option α} {a : α} (hx : x = some a) (f : α → Checked β) :
    (ExceptT.lift x >>= f : Checked β).run = (f a).run := by
  rw [hx]
  rfl

/-- A loop has no fault if none of its steps has one, as long as an invariant holds that may speak
of the items to come. -/
theorem run_foldlM {σ : Type} {f : σ → α → Checked σ} {g : σ → α → Except LoadError σ}
    {P : List α → σ → Prop}
    (hstep : ∀ a rest s, P (a :: rest) s →
      (f s a).run = some (g s a) ∧ ∀ s', g s a = .ok s' → P rest s')
    {items : List α} {s : σ} (hs : P items s) :
    (items.foldlM f s).run = some (items.foldlM g s) := by
  induction items generalizing s with
  | nil => rfl
  | cons a rest ih =>
    obtain ⟨hrun, hnext⟩ := hstep a rest s hs
    rw [List.foldlM_cons, List.foldlM_cons]
    exact run_bind hrun fun s' hs' => ih (hnext s' hs')

end Checked

namespace Network

/-! ## Rule stop states -/

/-- Rules are linked to their last states one after the other. -/
theorem linkRuleStops_eq_foldlM (net : Network) :
    net.linkRuleStops = (net.states.filter (·.kind.isRuleStop)).foldlM
      (fun reached s => do return reached.setRuleStop (← net.stoppedRule s) s.number)
      { net with ruleStops := List.replicate net.ruleCount none } := by
  rw [linkRuleStops]
  refine (mapM_foldl_eq_foldlM _ _ _ _).trans ?_
  congr
  funext reached s
  cases net.stoppedRule s <;> rfl

/-- A rule of both tables is linked without a fault. -/
theorem setRuleStopInWords_eq {net : Network} {rule : RuleIndex} (hrule : rule < net.ruleCount)
    (hstops : net.ruleStops.length = net.ruleCount) (stop : StateId) :
    net.setRuleStopInWords rule stop = some (net.setRuleStop rule stop) := by
  obtain ⟨start, hstart⟩ : ∃ start, net.ruleStarts[rule]? = some start :=
    ⟨_, List.getElem?_eq_getElem hrule⟩
  rw [setRuleStopInWords, if_pos (hstops ▸ hrule), hstart, setRuleStop, ruleStart?, hstart]
  rfl

/-- The rule that a state ends is one of the grammar. -/
theorem lt_ruleCount_of_stoppedRule {net : Network} {s : State} {rule : RuleIndex}
    (h : net.stoppedRule s = .ok rule) : rule < net.ruleCount := by
  rw [stoppedRule] at h
  split at h
  · cases h
  · split at h
    next hlt =>
      cases h
      exact hlt
    · cases h

/-- The rules of a network are linked to their last states without an index out of range. -/
theorem run_linkRuleStopsInWords (net : Network) :
    net.linkRuleStopsInWords.run = some net.linkRuleStops := by
  rw [linkRuleStops_eq_foldlM]
  refine Checked.run_foldlM (P := fun _ reached =>
    reached.ruleStarts = net.ruleStarts ∧ reached.ruleStops.length = net.ruleCount) ?_
    ⟨rfl, List.length_replicate⟩
  rintro s rest reached ⟨hstarts, hstops⟩
  have hcount : reached.ruleCount = net.ruleCount := congrArg List.length hstarts
  have hstopped : reached.stoppedRule s = net.stoppedRule s := by
    rw [stoppedRule, stoppedRule, hcount]
  constructor
  · rw [linkRuleStopInWords, hstopped]
    refine Checked.run_bind rfl fun rule hrule => ?_
    have hlt := lt_ruleCount_of_stoppedRule hrule
    rw [setRuleStopInWords_eq (hcount ▸ hlt) (hstops.trans hcount.symm)]
    rfl
  · intro next hnext
    obtain ⟨rule, -, hnext⟩ := bind_eq_ok.mp hnext
    cases hnext
    have htables := reached.tables_setRuleStop rule s.number
    have hset := congrArg (List.length ∘ Network.ruleStops) htables
    exact ⟨(congrArg Network.ruleStarts htables).trans hstarts,
      hset.trans (List.length_set.trans hstops)⟩

/-! ## Bypass transitions -/

/-- A state is added under a number that is a word. -/
theorem addStateInWords_eq {net : Network} (h : (net.slots.size : Int) ≤ Word.greatest)
    (s : State) : net.addStateInWords s = some (net.addState s) := by
  rw [addStateInWords, Word.checkIndex_eq_some h]
  rfl

/-- Adding a block in words has no fault while its numbers are words. -/
theorem addBlockInWords_eq {net : Network} (h : (net.slots.size : Int) + 1 ≤ Word.greatest)
    (rule : RuleIndex) : net.addBlockInWords rule = some (net.addBlock rule) := by
  have hsize := net.size_addState (.new (.blockStart .basic (some (net.nextId + 1))) (some rule))
  rw [addBlockInWords, addStateInWords_eq (by lia), Option.bind_eq_bind, Option.bind_some,
    addStateInWords_eq (by lia)]
  rfl

/-- Adding a bypass in words has no fault while its three numbers are words. -/
theorem run_addBypassInWords {net : Network} (h : (net.slots.size : Int) + 2 ≤ Word.greatest)
    (rule : RuleIndex) : (net.addBypassInWords rule).run = some (net.addBypass rule) := by
  rw [addBypassInWords, addBypass]
  cases net.ruleStart? rule with
  | none => rfl
  | some start =>
    cases net.ruleTokenType? rule with
    | none => rfl
    | some token =>
      refine (Checked.run_lift_bind (addBlockInWords_eq (by lia) rule) _).trans ?_
      apply Checked.run_bind rfl
      rintro ⟨stop, excluded⟩ -
      have hsize : ((((net.moveBody rule start stop excluded).addTransition start
          (.epsilon net.nextId)).addTransition (net.nextId + 1) (.epsilon stop)).slots.size : Int) ≤
            Word.greatest := by
        rw [addTransition, size_modifyState, addTransition, size_modifyState, size_moveBody, nextId]
        lia
      exact (Checked.run_lift_bind (addStateInWords_eq hsize _) _).trans rfl

/-- A bypass adds three states. -/
theorem size_addBypass {net net' : Network} {rule : RuleIndex} (h : net.addBypass rule = .ok net') :
    net'.slots.size = net.slots.size + 3 := by
  rw [addBypass] at h
  split at h
  next start token _ _ =>
    obtain ⟨⟨stop, excluded⟩, -, h⟩ := bind_eq_ok.mp h
    obtain rfl : (net.moveBody rule start stop excluded).connectBlock rule start net.nextId stop
      token = net' := Except.ok.inj h
    exact size_connectBlock (net.size_moveBody rule start stop excluded) rule stop token
  · cases h

/-- Each bypass of a list of rules takes three slots. -/
theorem size_foldlM_addBypass {rules : List RuleIndex} {net net' : Network}
    (h : rules.foldlM addBypass net = .ok net') :
    net'.slots.size = net.slots.size + 3 * rules.length := by
  induction rules generalizing net with
  | nil =>
    cases h
    rfl
  | cons rule rest ih =>
    rw [List.foldlM_cons] at h
    obtain ⟨next, hnext, hrest⟩ := bind_eq_ok.mp h
    have hsize := size_addBypass hnext
    have hrest := ih hrest
    rw [List.length_cons]
    lia

/-- The bypasses of all rules take three slots each. -/
theorem size_addBypasses {net net' : Network} (h : net.addBypasses = .ok net') :
    net'.slots.size = net.slots.size + 3 * net.ruleCount :=
  (size_foldlM_addBypass h).trans (by rw [List.length_range])

/-- The token type that stands for a rule is a word, and so is its place in front of it. -/
theorem bypassTokenTypeInWords_eq {net : Network} {rule : RuleIndex}
    (hleast : Word.least ≤ net.maxTokenType) (hrule : (rule : Int) ≤ Word.greatest)
    (hsum : net.maxTokenType + rule + 1 ≤ Word.greatest) :
    net.bypassTokenTypeInWords rule = some (net.maxTokenType + rule + 1) := by
  have hnegative : Word.least ≤ 0 := by decide
  have hsaturate : Word.saturate rule = rule := by
    rw [Word.saturate]
    lia
  rw [bypassTokenTypeInWords, hsaturate, Word.check_eq_some ⟨by lia, by lia⟩]
  exact Word.check_eq_some ⟨by lia, hsum⟩

/-- As long as the slots, the rules and the vocabulary leave room, all rules are given their second
ways through without an overflow or a state number that saturates. -/
theorem run_addBypassesInWords {net : Network}
    (hslots : (net.slots.size : Int) + 3 * net.ruleCount ≤ Word.greatest)
    (hleast : Word.least ≤ net.maxTokenType)
    (htokens : net.maxTokenType + net.ruleCount ≤ Word.greatest) :
    net.addBypassesInWords.run = some net.addBypasses := by
  have htypes : (List.range net.ruleCount).mapM net.bypassTokenTypeInWords =
      some net.bypassTokenTypes := by
    apply mapM_eq_pure
    intro rule hrule
    have hlt := List.mem_range.mp hrule
    exact bypassTokenTypeInWords_eq hleast (by lia) (by lia)
  refine (Checked.run_lift_bind htypes _).trans (Checked.run_foldlM
    (P := fun rules reached => (reached.slots.size : Int) + 3 * rules.length ≤ Word.greatest) ?_ ?_)
  · intro rule rest reached hroom
    rw [List.length_cons] at hroom
    refine ⟨run_addBypassInWords (by lia) rule, fun next hnext => ?_⟩
    have hsize := size_addBypass hnext
    lia
  · rw [List.length_range]
    exact hslots

end Network

end TransitionNetwork
