import JsonRules.Proofs.Trace.Layout

/-!
The shape of an explanation: which entries it has where, and which of them are nodes. It can be told from
a list of the entries in preorder, if each says on which level it stands and whether it is a node
(`marksBelow_injective`).
-/
namespace JsonRules

inductive Shape where
  | point
  | node (entries : List Shape)

mutual

def Tree.shape : Tree → Shape
  | .point _ => .point
  | .node _ _ entries => .node (Forest.shapes entries)

def Forest.shapes : Forest → List Shape
  | [] => []
  | tree :: rest => tree.shape :: Forest.shapes rest

end

namespace Shape

def isNode : Shape → Bool
  | .point => false
  | .node _ => true

mutual

/-- Level and kind of each entry below an entry on this level, in preorder. -/
def marks (level : Nat) : Shape → List (Nat × Bool)
  | .point => []
  | .node entries => marksBelow level entries

def marksBelow (level : Nat) : List Shape → List (Nat × Bool)
  | [] => []
  | entry :: rest =>
    (level + 1, entry.isNode) :: (entry.marks (level + 1) ++ marksBelow level rest)

end

/-- What follows on the entries below this level stands on no lower one. -/
def Returns (level : Nat) (ms : List (Nat × Bool)) : Prop := ∀ m ∈ ms.head?, m.1 ≤ level

section Returns

variable {level : Nat} {ms : List (Nat × Bool)}

theorem Returns.marksBelow_append (h : Returns level ms) (entries : List Shape) :
    Returns (level + 1) (marksBelow level entries ++ ms) := by
  intro m hm
  cases entries with
  | nil => exact Nat.le_succ_of_le (h m hm)
  | cons entry rest =>
    obtain rfl := Option.some.inj hm
    exact Nat.le_refl _

theorem not_returns_cons (level : Nat) (kind : Bool) (ms : List (Nat × Bool)) :
    ¬ Returns level ((level + 1, kind) :: ms) :=
  fun h => Nat.not_succ_le_self level (h _ rfl)

end Returns

mutual

theorem eq_of_marks {level : Nat} {ms ms' : List (Nat × Bool)} (s : Shape) {s' : Shape}
    (hkind : s.isNode = s'.isNode) (h : s.marks level ++ ms = s'.marks level ++ ms')
    (hms : Returns level ms) (hms' : Returns level ms') : s = s' ∧ ms = ms' := by
  cases s with
  | point =>
    cases s' with
    | point => exact ⟨rfl, h⟩
    | node entries => contradiction
  | node entries =>
    cases s' with
    | point => contradiction
    | node entries' =>
      obtain ⟨hentries, hrest⟩ := eq_of_marksBelow entries h hms hms'
      exact ⟨congrArg node hentries, hrest⟩

theorem eq_of_marksBelow {level : Nat} {ms ms' : List (Nat × Bool)} (entries : List Shape)
    {entries' : List Shape} (h : marksBelow level entries ++ ms = marksBelow level entries' ++ ms')
    (hms : Returns level ms) (hms' : Returns level ms') : entries = entries' ∧ ms = ms' := by
  cases entries with
  | nil =>
    cases entries' with
    | nil => exact ⟨rfl, h⟩
    | cons entry' rest' =>
      rw [show ms = _ from h] at hms
      exact absurd hms (not_returns_cons _ _ _)
  | cons entry rest =>
    cases entries' with
    | nil =>
      rw [← show _ = ms' from h] at hms'
      exact absurd hms' (not_returns_cons _ _ _)
    | cons entry' rest' =>
      simp only [marksBelow, List.cons_append, List.append_assoc, List.cons.injEq,
        Prod.mk.injEq] at h
      obtain ⟨⟨-, hkind⟩, hbelow⟩ := h
      obtain ⟨rfl, hrest⟩ := eq_of_marks entry hkind hbelow (hms.marksBelow_append rest)
        (hms'.marksBelow_append rest')
      obtain ⟨rfl, hms⟩ := eq_of_marksBelow rest hrest hms hms'
      exact ⟨rfl, hms⟩

end

theorem marksBelow_injective (level : Nat) : Function.Injective (marksBelow level) := by
  intro entries entries' h
  have hreturns : Returns level [] := by
    intro m hm
    contradiction
  exact (eq_of_marksBelow entries (congrArg (· ++ []) h) hreturns hreturns).1

end Shape
end JsonRules
