import JsonRules.Proofs.Account

/-!
Evaluation does what the account of a rule says. `Realizes` relates the two for every state with an
open node; it is kept by each way in which evaluations are put together, and so holds of every rule
(`keeps_rule`). The first operator of an evaluation opens the root instead of a node below one, which
`evaluate_object` takes care of.
-/
namespace JsonRules.Eval
open Trace

variable {α β : Type}

theorem run_bind (m : Eval α) (k : α → Eval β) (s : Progress) :
    (m >>= k).run s =
      match m.run s with
      | (.ok a, s') => (k a).run s'
      | (.error e, s') => (.error e, s') := by
  unfold ExceptT.run
  simp only [bind, ExceptT.bind, ExceptT.mk, StateT.bind, ExceptT.bindCont]
  obtain ⟨outcome, s'⟩ := m s
  cases outcome <;> rfl

theorem run_bind_ok {m : Eval α} {s s' : Progress} {a : α} (h : m.run s = (.ok a, s'))
    (k : α → Eval β) : (m >>= k).run s = (k a).run s' := by
  rw [run_bind, h]

theorem run_bind_error {m : Eval α} {s s' : Progress} {e : EvalError}
    (h : m.run s = (.error e, s')) (k : α → Eval β) : (m >>= k).run s = (.error e, s') := by
  rw [run_bind, h]

/-- A successful evaluation leaves the value, the entries and the lines of the account, and then does
`finish` to the trace. A failed one leaves the lines; its trace is of no interest. -/
structure Realizes (finish : α → Builder → Builder) (m : Eval α) (x : Account α) : Prop where
  ok : ∀ {s : Progress} {a : α} {forest : Forest}, s.trace.IsOpen →
    x.outcome = .ok (a, forest) →
      m.run s = (.ok a, ⟨finish a (s.trace.grow forest), s.log ++ x.log⟩)
  error : ∀ {s : Progress} {e : EvalError}, s.trace.IsOpen → x.outcome = .error e →
    ∃ trace, m.run s = (.error e, ⟨trace, s.log ++ x.log⟩)

abbrev Keeps (m : Eval α) (x : Account α) : Prop := Realizes (fun _ b => b) m x

theorem append_log (log : Array String) (xs ys : List String) :
    log ++ (xs ++ ys) = log ++ xs ++ ys := by
  apply Array.ext'
  simp

theorem keeps_pure (a : α) : Keeps (pure a) (pure a) where
  ok := by
    intro s _ _ hs h
    obtain ⟨rfl, rfl⟩ := Prod.mk.inj (Except.ok.inj h)
    rw [Builder.grow_nil hs]
    exact congrArg (fun log => (Except.ok a, Progress.mk s.trace log)) Array.appendList_nil.symm
  error := by
    intro _ _ _ h
    contradiction

theorem realizes_fail (finish : α → Builder → Builder) (e : EvalError) :
    Realizes finish (throw e) (Account.fail e) where
  ok := by
    intro _ _ _ _ h
    contradiction
  error := by
    intro s _ _ h
    cases h
    exact ⟨s.trace, congrArg (fun log => (Except.error e, Progress.mk s.trace log))
      Array.appendList_nil.symm⟩

theorem realizes_bind {finish : β → Builder → Builder} {m : Eval α} {x : Account α}
    {k : α → Eval β} {f : α → Account β} (hm : Keeps m x) (hk : ∀ a, Realizes finish (k a) (f a)) :
    Realizes finish (m >>= k) (x >>= f) := by
  cases hx : x.outcome with
  | error e =>
    rw [Account.bind_of_error hx]
    refine ⟨fun _ h => by contradiction, ?_⟩
    intro s e' hs h
    obtain ⟨trace, hrun⟩ := hm.error hs hx
    cases h
    exact ⟨trace, run_bind_error hrun k⟩
  | ok r =>
    obtain ⟨a, below⟩ := r
    rw [Account.bind_of_ok hx]
    constructor
    · intro s b forest hs h
      obtain ⟨⟨_, more⟩, hf, heq⟩ := Except.map_eq_ok.mp h
      obtain ⟨rfl, rfl⟩ := Prod.mk.inj heq
      have hopen := Builder.isOpen_grow hs below
      rw [run_bind_ok (hm.ok hs hx), ← Builder.grow_append hs, append_log]
      exact (hk a).ok hopen hf
    · intro s e hs h
      have hopen := Builder.isOpen_grow hs below
      rw [run_bind_ok (hm.ok hs hx), append_log]
      exact (hk a).error hopen (Except.map_eq_error.mp h)

theorem keeps_mapM {γ : Type} {k : γ → Eval α} {f : γ → Account α} (cs : List γ)
    (h : ∀ c ∈ cs, Keeps (k c) (f c)) : Keeps (cs.mapM k) (cs.mapM f) := by
  induction cs with
  | nil => exact keeps_pure []
  | cons c rest ih =>
    have hrest := ih fun c' hc => h c' (List.mem_cons_of_mem c hc)
    rw [List.mapM_cons, List.mapM_cons]
    exact realizes_bind (h c List.mem_cons_self) fun a =>
      realizes_bind hrest fun as => keeps_pure (a :: as)

theorem keeps_overItems {k : Value → Eval Value} {f : Value → Account Value}
    (h : ∀ item, Keeps (k item) (f item)) (items : Value) :
    Keeps (overItems items k) (Account.overItems items f) := by
  cases items with
  | array items =>
    exact realizes_bind (keeps_mapM items fun item _ => h item) fun values =>
      keeps_pure (Value.array values)
  | _ => exact keeps_pure (Value.array [])

def closing (op : Operator) (result : Value) (b : Builder) : Builder :=
  if op.isComposite then b.close result else b

theorem isComposite_of_result?_eq_none {op : Operator} {values : List Value}
    (h : op.result? values = none) : op.isComposite = false := by
  cases op <;> first | rfl | contradiction

theorem realizes_settle (op : Operator) (operand data : Value) (values : List Value) :
    Realizes (closing op) (settle op operand data values)
      (Account.settle op operand data values) := by
  cases hv : op.result? values with
  | none =>
    have hop := isComposite_of_result?_eq_none hv
    have hclosing : closing op = fun _ b => b := by
      funext result b
      simp [closing, hop]
    rw [hclosing]
    simp only [settle, Account.settle, hv]
    exact keeps_pure _
  | some result =>
    constructor
    · intro s v forest hs h
      simp only [Account.settle, hv] at h ⊢
      obtain ⟨rfl, rfl⟩ := Prod.mk.inj (Except.ok.inj h)
      have hrun : (settle op operand data values).run s =
          (.ok result, ⟨if op.isComposite then s.trace.close result
            else s.trace.record (dataPoint op operand data result),
            s.log ++ op.logged values⟩) := by
        simp only [settle, hv]
        rfl
      rw [hrun]
      cases hop : op.isComposite with
      | false => simp [closing, hop, Builder.record_eq_grow hs]
      | true => simp [closing, hop, Builder.grow_nil hs]
    · intro s e _ h
      simp only [Account.settle, hv] at h
      contradiction

theorem rules_eq_mapM (rs : List Value) (data : Value) :
    rules rs data = rs.mapM fun r => rule r data := by
  induction rs with
  | nil => rfl
  | cons r rest ih => simp [rules, ih]

def afterEnter (op : Operator) (operand data : Value) : Eval Value :=
  if op = .map then do
    overItems (← rule (Operator.operand operand.operands 0) data)
      (rule (Operator.operand operand.operands 1))
  else do
    settle op operand data (← operand.operands.mapM fun r => rule r data)

theorem rule_object {name : String} {op : Operator} (h : Operator.named? name = some op)
    (operand : Value) (others : List (String × Value)) (data : Value) :
    rule (.object ((name, operand) :: others)) data = (do
      enter op
      afterEnter op operand data) := by
  have hnull : rule .null = fun _ => pure .null := rfl
  by_cases hop : op = .map
  · subst hop
    cases operand with
    | array operands =>
      match operands with
      | [] => simp [rule, mapped, h, afterEnter, Value.operands, Operator.operand, overItems]
      | [source] => simp [rule, mapped, h, afterEnter, Value.operands, Operator.operand, hnull]
      | source :: body :: _ =>
        simp [rule, mapped, h, afterEnter, Value.operands, Operator.operand]
    | _ => simp [rule, h, afterEnter, Value.operands, Operator.operand, hnull]
  · cases operand <;>
      simp [rule, h, afterEnter, hop, Value.operands, ← rules_eq_mapM]

theorem rule_unrecognized {name : String} (h : Operator.named? name = none) (operand : Value)
    (others : List (String × Value)) (data : Value) :
    rule (.object ((name, operand) :: others)) data = throw (.unrecognized name) := by
  simp [rule, h]

theorem rule_literal {r : Value} (h : r.firstField? = none) (data : Value) :
    rule r data = pure r := by
  unfold rule
  split
  · contradiction
  · rfl

theorem realizes_afterEnter (op : Operator) {operand : Value} (data : Value)
    (h : ∀ r ∈ operand.operands, ∀ d, Keeps (rule r d) (Account.rule r d)) :
    Realizes (closing op) (afterEnter op operand data)
      (Account.applied op operand (operand.operands.map Account.rule) data) := by
  have hoperand (i : Nat) (d : Value) : Keeps (rule (Operator.operand operand.operands i) d)
      ((operand.operands.map Account.rule).getD i Account.absent d) := by
    rw [Account.getD_map_rule]
    exact Value.operand_of_forall (fun r hr => h r hr d) (keeps_pure Value.null) i
  unfold afterEnter
  by_cases hop : op = .map
  · subst hop
    rw [Account.applied, if_pos rfl, if_pos rfl]
    exact realizes_bind (hoperand 0 data) fun items => keeps_overItems (hoperand 1) items
  · rw [Account.applied_rules hop, if_neg hop]
    exact realizes_bind (keeps_mapM _ fun r hr => h r hr data) fun values =>
      realizes_settle op operand data values

theorem run_enter (op : Operator) (m : Eval α) (s : Progress) :
    (do enter op; m : Eval α).run s = m.run ⟨s.trace.enter op, s.log⟩ :=
  run_bind_ok rfl fun _ => m

/-- Below the root, what an operator closes is what it has opened. -/
theorem keeps_enter {op : Operator} {m : Eval Value} {x : Account Value}
    (h : Realizes (closing op) m x) : Keeps (do enter op; m) (Account.enclose op x) := by
  cases hop : op.isComposite with
  | false =>
    have henter {b : Builder} (hb : b.IsOpen) : b.enter op = b := by
      obtain ⟨c, hc, _⟩ := hb
      simp [Builder.enter, hc, hop]
    rw [Account.enclose_of_not_composite hop]
    constructor
    · intro s v forest hs hv
      rw [run_enter, henter hs, h.ok hs hv]
      simp [closing, hop]
    · intro s e hs he
      rw [run_enter, henter hs]
      exact h.error hs he
  | true =>
    rw [Account.enclose_of_composite hop]
    constructor
    · intro s v forest hs hv
      obtain ⟨⟨_, entries⟩, hx', heq⟩ := Except.map_eq_ok.mp hv
      obtain ⟨rfl, rfl⟩ := Prod.mk.inj heq
      obtain ⟨c, hc, hlt⟩ := hs
      have henter : s.trace.enter op = s.trace.openChild op c := by
        simp [Builder.enter, hc, hop]
      have hopen : (Progress.mk (s.trace.openChild op c) s.log).trace.IsOpen :=
        Builder.isOpen_openChild op c
      rw [run_enter, henter, h.ok hopen hx']
      simp [closing, hop, Builder.close_grow_openChild hc hlt]
    · intro s e hs he
      obtain ⟨c, hc, hlt⟩ := hs
      have henter : s.trace.enter op = s.trace.openChild op c := by
        simp [Builder.enter, hc, hop]
      rw [run_enter, henter]
      exact h.error (Builder.isOpen_openChild op c) (Except.map_eq_error.mp he)

theorem keeps_rule (r data : Value) : Keeps (rule r data) (Account.rule r data) := by
  induction r using Value.rule_induction generalizing data with
  | literal r h =>
    rw [rule_literal h, Account.rule_literal h]
    exact keeps_pure r
  | object name operand others ih =>
    cases h : Operator.named? name with
    | none =>
      rw [rule_unrecognized h, Account.rule_unrecognized h]
      exact realizes_fail _ _
    | some op =>
      rw [rule_object h, Account.rule_object h]
      exact keeps_enter (realizes_afterEnter op data ih)

end JsonRules.Eval

namespace JsonRules
open Trace

theorem evaluate_object {name : String} {op : Operator} (h : Operator.named? name = some op)
    (operand : Value) (others : List (String × Value)) (data : Value) :
    let x := Account.applied op operand (operand.operands.map Account.rule) data
    evaluate (.object ((name, operand) :: others)) data =
      (x.outcome.map fun (v, forest) =>
        ⟨v, (Eval.closing op v ((Builder.empty.openRoot op).grow forest)).finish⟩, x.log) := by
  intro x
  have hx : Eval.Realizes (Eval.closing op) (Eval.afterEnter op operand data) x :=
    Eval.realizes_afterEnter op data fun r _ d => Eval.keeps_rule r d
  have hopen : (Progress.mk (Builder.empty.openRoot op) #[]).trace.IsOpen :=
    Builder.isOpen_openRoot op
  have hrun : (Eval.rule (.object ((name, operand) :: others)) data).run ⟨.empty, #[]⟩ =
      (Eval.afterEnter op operand data).run ⟨Builder.empty.openRoot op, #[]⟩ := by
    rw [Eval.rule_object h, Eval.run_enter]
    rfl
  simp only [evaluate, hrun]
  cases hv : x.outcome with
  | error e =>
    obtain ⟨trace, hfail⟩ := hx.error hopen hv
    rw [hfail]
    simp [Except.map]
  | ok r =>
    rw [hx.ok hopen hv]
    simp [Except.map]

end JsonRules
