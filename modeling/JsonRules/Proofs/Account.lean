import JsonRules.Evaluation
import JsonRules.Proofs.Trace.Layout
import Mathlib.Data.List.GetD

/-!
Meaning of rules without a trace under construction. An account holds what an evaluation amounts to;
accounts compose like evaluations, their entries and log lines being those of the parts in order. The
meaning of a rule is a function from data to accounts that is put together from the meanings of its
operands (`rule_object`).
-/
namespace JsonRules

namespace Value

/-- The first field of an object: the name of an operator with its operands. -/
def firstField? : Value → Option (String × Value)
  | .object (field :: _) => some field
  | _ => none

theorem eq_object_of_firstField? {v operand : Value} {name : String}
    (h : v.firstField? = some (name, operand)) :
    ∃ others, v = .object ((name, operand) :: others) := by
  unfold firstField? at h
  split at h
  · exact ⟨_, by rw [Option.some.inj h]⟩
  · contradiction

theorem operand_of_forall {P : Value → Prop} {rs : List Value} (h : ∀ r ∈ rs, P r)
    (hnull : P .null) (i : Nat) : P (Operator.operand rs i) := by
  rw [Operator.operand, List.getD_eq_getElem?_getD]
  cases hi : rs[i]? with
  | none => exact hnull
  | some r => exact h r (List.mem_of_getElem? hi)

theorem sizeOf_le_of_mem_operands {v r : Value} (h : r ∈ v.operands) : sizeOf r ≤ sizeOf v := by
  cases v with
  | array items =>
    have := List.sizeOf_lt_of_mem (show r ∈ items from h)
    simp only [array.sizeOf_spec]
    omega
  | _ => exact Nat.le_of_eq (congrArg sizeOf (List.mem_singleton.mp h))

theorem sizeOf_lt_of_firstField? {v operand r : Value} {name : String}
    (h : v.firstField? = some (name, operand)) (hr : r ∈ operand.operands) :
    sizeOf r < sizeOf v := by
  obtain ⟨others, rfl⟩ := eq_object_of_firstField? h
  have := sizeOf_le_of_mem_operands hr
  simp only [object.sizeOf_spec, List.cons.sizeOf_spec, Prod.mk.sizeOf_spec]
  omega

/-- Induction along evaluation: from the operands of the first field to the rule. -/
theorem rule_induction {P : Value → Prop} (literal : ∀ v : Value, v.firstField? = none → P v)
    (object : ∀ name operand others, (∀ r ∈ operand.operands, P r) →
      P (.object ((name, operand) :: others)))
    (v : Value) : P v := by
  cases h : v.firstField? with
  | none => exact literal v h
  | some field =>
    obtain ⟨others, heq⟩ := eq_object_of_firstField? h
    rw [heq]
    exact object _ _ others fun r hr => rule_induction literal object r
termination_by sizeOf v
decreasing_by exact sizeOf_lt_of_firstField? h hr

end Value

theorem Except.map_eq_ok {ε α β : Type} {f : α → β} {x : Except ε α} {b : β} :
    x.map f = .ok b ↔ ∃ a, x = .ok a ∧ f a = b := by
  cases x <;> simp [Except.map]

theorem Except.map_eq_error {ε α β : Type} {f : α → β} {x : Except ε α} {e : ε} :
    x.map f = .error e ↔ x = .error e := by
  cases x <;> simp [Except.map]

theorem mapM_congr {m : Type → Type} [Monad m] [LawfulMonad m] {α β : Type} {f g : α → m β}
    {xs : List α} (h : ∀ x ∈ xs, f x = g x) : xs.mapM f = xs.mapM g := by
  induction xs with
  | nil => rfl
  | cons x rest ih =>
    have hrest := ih fun y hy => h y (List.mem_cons_of_mem x hy)
    rw [List.mapM_cons, List.mapM_cons, h x List.mem_cons_self, hrest]

theorem mapM_eq_pure {m : Type → Type} [Monad m] [LawfulMonad m] {α : Type} {f : α → m α}
    {xs : List α} (h : ∀ x ∈ xs, f x = pure x) : xs.mapM f = pure xs := by
  rw [mapM_congr h, List.mapM_pure, List.map_id']

theorem mapM_comp_map {m : Type → Type} [Monad m] [LawfulMonad m] {α β γ : Type} (f : α → m β)
    (g : β → γ) (xs : List α) : (xs.mapM fun x => g <$> f x) = List.map g <$> xs.mapM f := by
  induction xs with
  | nil => simp
  | cons x rest ih => simp [ih]

theorem mapM_bind_congr {m : Type → Type} [Monad m] [LawfulMonad m] {α β γ : Type} {f : α → m β}
    {xs : List α} {g h : List β → m γ} (heq : ∀ ys, ys.length = xs.length → g ys = h ys) :
    xs.mapM f >>= g = xs.mapM f >>= h := by
  induction xs generalizing g h with
  | nil => simpa using heq [] rfl
  | cons x rest ih =>
    simp only [List.mapM_cons, bind_assoc, pure_bind]
    refine bind_congr fun y => ih fun ys hlength => heq (y :: ys) ?_
    rw [List.length_cons, List.length_cons, hlength]

theorem mapM_hom {m n : Type → Type} [Monad m] [Monad n] [LawfulMonad m] [LawfulMonad n]
    (φ : ∀ {α : Type}, m α → n α) (hpure : ∀ {α : Type} (a : α), φ (pure a) = pure a)
    (hbind : ∀ {α β : Type} (x : m α) (f : α → m β), φ (x >>= f) = φ x >>= fun a => φ (f a))
    {α β : Type} (f : α → m β) (xs : List α) : φ (xs.mapM f) = xs.mapM fun x => φ (f x) := by
  induction xs with
  | nil => exact hpure []
  | cons x rest ih => simp only [List.mapM_cons, hbind, hpure, ih]

/-- The value of an evaluation with the entries that explain it, unless it fails, and in either case
the lines it logs. -/
@[ext]
structure Account (α : Type) where
  outcome : Except EvalError (α × Forest)
  log : List String

namespace Account

variable {α β : Type}

instance : Monad Account where
  pure a := ⟨.ok (a, []), []⟩
  bind x f :=
    match x.outcome with
    | .error e => ⟨.error e, x.log⟩
    | .ok (a, forest) =>
      let y := f a
      ⟨y.outcome.map fun (b, more) => (b, forest ++ more), x.log ++ y.log⟩

theorem bind_of_error {x : Account α} {e : EvalError} (h : x.outcome = .error e)
    (f : α → Account β) : x >>= f = ⟨.error e, x.log⟩ := by
  simp only [bind, h]

theorem bind_of_ok {x : Account α} {a : α} {forest : Forest} (h : x.outcome = .ok (a, forest))
    (f : α → Account β) :
    x >>= f =
      ⟨(f a).outcome.map fun (b, more) => (b, forest ++ more), x.log ++ (f a).log⟩ := by
  simp only [bind, h]

theorem map_id (x : Account α) : id <$> x = x := by
  obtain ⟨outcome, log⟩ := x
  cases outcome with
  | error e => rfl
  | ok r => simp [Functor.map, Except.map]

theorem bind_of_pure (a : α) (f : α → Account β) : pure a >>= f = f a := by
  rw [bind_of_ok rfl]
  ext1
  · cases (f a).outcome <;> rfl
  · rfl

theorem bind_bind {γ : Type} (x : Account α) (f : α → Account β) (g : β → Account γ) :
    x >>= f >>= g = x >>= fun a => f a >>= g := by
  cases hx : x.outcome with
  | error e => simp only [bind, hx]
  | ok r =>
    cases hf : (f r.1).outcome with
    | error e => simp only [bind, hx, hf, Except.map]
    | ok r' =>
      cases hg : (g r'.1).outcome <;>
        simp only [bind, hx, hf, hg, Except.map, List.append_assoc]

instance : LawfulMonad Account := LawfulMonad.mk' Account map_id bind_of_pure bind_bind

def value (x : Account α) : Except EvalError α := x.outcome.map Prod.fst

def fail (e : EvalError) : Account α := ⟨.error e, []⟩

/-- The operator on the values of its operands. Unless it is composite or reads the data, it leaves
a data point. -/
def settle (op : Operator) (operand data : Value) (values : List Value) : Account Value :=
  match op.result? values with
  | some result =>
    let entries :=
      if op.isComposite then [] else [.point (Eval.dataPoint op operand data result)]
    ⟨.ok (result, entries), op.logged values⟩
  | none => pure (Eval.readData op data values)

/-- A composite operator has a node of its own, with its result and the entries of its operands. -/
def enclose (op : Operator) (x : Account Value) : Account Value :=
  if op.isComposite then
    ⟨x.outcome.map fun (result, entries) => (result, [.node op result entries]), x.log⟩
  else
    x

theorem enclose_of_composite {op : Operator} (h : op.isComposite = true) (x : Account Value) :
    enclose op x =
      ⟨x.outcome.map fun (result, entries) => (result, [.node op result entries]), x.log⟩ :=
  if_pos h

theorem enclose_of_not_composite {op : Operator} (h : op.isComposite = false)
    (x : Account Value) : enclose op x = x :=
  if_neg (by simp [h])

theorem value_enclose (op : Operator) (x : Account Value) : (enclose op x).value = x.value := by
  cases h : op.isComposite with
  | false => rw [enclose_of_not_composite h]
  | true =>
    rw [enclose_of_composite h]
    cases hx : x.outcome <;> simp [value, hx, Except.map]

theorem log_enclose (op : Operator) (x : Account Value) : (enclose op x).log = x.log := by
  unfold enclose
  split <;> rfl

abbrev Meaning := Value → Account Value

def absent : Meaning := fun _ => pure .null

def overItems (items : Value) (body : Meaning) : Account Value :=
  match items with
  | .array items => return .array (← items.mapM body)
  | _ => return .array []

/-- An operator on the meanings of its operands. All of them get the same data, except that the
second operand of `map` gets the items of the first one's value. -/
def applied (op : Operator) (operand : Value) (operands : List Meaning) : Meaning := fun data =>
  if op = .map then do
    overItems (← operands.getD 0 absent data) (operands.getD 1 absent)
  else do
    settle op operand data (← operands.mapM fun meaning => meaning data)

mutual

def rule : Value → Meaning
  | .object ((name, operand) :: _) =>
    match Operator.named? name with
    | none => fun _ => fail (.unrecognized name)
    | some op => fun data =>
      enclose op <| applied op operand
        (match operand with
          | .array operands => rules operands
          | lone => [rule lone]) data
  | literal => fun _ => pure literal

def rules : List Value → List Meaning
  | [] => []
  | r :: rest => rule r :: rules rest

end

theorem rules_eq (rs : List Value) : rules rs = rs.map rule := by
  induction rs with
  | nil => rfl
  | cons r rest ih => simp [rules, ih]

theorem getD_map_rule (rs : List Value) (i : Nat) :
    (rs.map rule).getD i absent = rule (Operator.operand rs i) :=
  List.getD_map rs .null rule

theorem applied_rules {op : Operator} (h : op ≠ .map) (operand data : Value) (rs : List Value) :
    applied op operand (rs.map rule) data = (do
      settle op operand data (← rs.mapM fun r => rule r data)) := by
  rw [applied, if_neg h, List.mapM_map]
  rfl

theorem rule_object {name : String} {op : Operator} (h : Operator.named? name = some op)
    (operand : Value) (others : List (String × Value)) (data : Value) :
    rule (.object ((name, operand) :: others)) data =
      enclose op (applied op operand (operand.operands.map rule) data) := by
  cases operand <;> simp [rule, h, Value.operands, rules_eq]

theorem rule_literal {r : Value} (h : r.firstField? = none) (data : Value) :
    rule r data = pure r := by
  unfold rule
  split
  · contradiction
  · rfl

theorem rule_unrecognized {name : String} (h : Operator.named? name = none)
    (operand : Value) (others : List (String × Value)) (data : Value) :
    rule (.object ((name, operand) :: others)) data = fail (.unrecognized name) := by
  cases operand <;> simp [rule, h]

/-- What holds of the accounts of all rules because it is kept by the ways they are put together. -/
structure Invariant (P : ∀ {α : Type}, Account α → Prop) : Prop where
  pure : ∀ {α : Type} (a : α), P (pure a)
  fail : ∀ e : EvalError, P (fail e : Account Value)
  bind : ∀ {α β : Type} {x : Account α} {f : α → Account β}, P x → (∀ a, P (f a)) → P (x >>= f)
  settle : ∀ op operand data values, P (settle op operand data values)
  enclose : ∀ op {x : Account Value}, P x → P (enclose op x)

namespace Invariant

variable {P : ∀ {α : Type}, Account α → Prop}

theorem mapM (hP : Invariant P) {f : α → Account β} {xs : List α} (h : ∀ x ∈ xs, P (f x)) :
    P (xs.mapM f) := by
  induction xs with
  | nil => exact hP.pure []
  | cons x rest ih =>
    have hrest := ih fun y hy => h y (List.mem_cons_of_mem x hy)
    rw [List.mapM_cons]
    exact hP.bind (h x List.mem_cons_self) fun b => hP.bind hrest fun bs => hP.pure (b :: bs)

theorem overItems (hP : Invariant P) {body : Meaning} (h : ∀ item, P (body item))
    (items : Value) : P (overItems items body) := by
  cases items with
  | array items => exact hP.bind (hP.mapM fun item _ => h item) fun values => hP.pure _
  | _ => exact hP.pure _

theorem rule (hP : Invariant P) (r data : Value) : P (rule r data) := by
  induction r using Value.rule_induction generalizing data with
  | literal r h =>
    rw [rule_literal h]
    exact hP.pure r
  | object name operand others ih =>
    cases h : Operator.named? name with
    | none =>
      rw [rule_unrecognized h]
      exact hP.fail _
    | some op =>
      have hoperand (i : Nat) (d : Value) :
          P ((operand.operands.map Account.rule).getD i absent d) := by
        rw [getD_map_rule]
        exact Value.operand_of_forall (fun r hr => ih r hr d) (hP.pure Value.null) i
      rw [rule_object h]
      refine hP.enclose op ?_
      by_cases hop : op = .map
      · rw [applied, if_pos hop]
        exact hP.bind (hoperand 0 data) fun items => hP.overItems (hoperand 1) items
      · rw [applied_rules hop]
        exact hP.bind (hP.mapM fun r hr => ih r hr data) fun values =>
          hP.settle op operand data values

end Invariant

end Account
end JsonRules
