import Mathlib.Data.List.Basic

/-! How the number of members of a list with a property changes with the list. -/
namespace Counting

variable {α : Type*} {p : α → Bool} {l : List α} {i : Nat} {a : α}

def weight (p : α → Bool) (a : α) : Nat := if p a then 1 else 0

theorem weight_pos (h : p a = true) : weight p a = 1 := if_pos h

theorem weight_neg (h : p a = false) : weight p a = 0 := if_neg (by rw [h]; exact Bool.false_ne_true)

theorem weight_and (p : α → Bool) (Q : α → Prop) [DecidablePred Q] (a : α) :
    weight (fun a => p a && decide (Q a)) a = if Q a then weight p a else 0 := by
  by_cases hQ : Q a
  · simp [weight, hQ]
  · simp [weight, hQ]

theorem weight_le {b : α} (h : p a = true → p b = true) : weight p a ≤ weight p b := by
  unfold weight
  split
  next ha =>
    exact Nat.le_of_eq (if_pos (h ha)).symm
  next => exact Nat.zero_le _

/-- One member is replaced by another one. Induction on the list. -/
theorem countP_set (h : l[i]? = some a) (b : α) :
    (l.set i b).countP p + weight p a = l.countP p + weight p b := by
  induction l generalizing i with
  | nil => cases h
  | cons c l ih =>
    cases i with
    | zero =>
      cases h
      rw [List.set_cons_zero, List.countP_cons, List.countP_cons]
      unfold weight
      omega
    | succ i =>
      have hrest := ih h
      rw [List.set_cons_succ, List.countP_cons, List.countP_cons]
      omega

/-- One member is taken away. Induction on the list. -/
theorem countP_eraseIdx (h : l[i]? = some a) :
    (l.eraseIdx i).countP p + weight p a = l.countP p := by
  induction l generalizing i with
  | nil => cases h
  | cons c l ih =>
    cases i with
    | zero =>
      cases h
      rw [List.eraseIdx_cons_zero, List.countP_cons]
      rfl
    | succ i =>
      have hrest := @ih i h
      rw [List.eraseIdx_cons_succ, List.countP_cons, List.countP_cons]
      omega

theorem countP_concat (l : List α) (a : α) :
    (l ++ [a]).countP p = l.countP p + weight p a := by
  rw [List.countP_append, List.countP_singleton]
  rfl

theorem weight_le_countP (h : l[i]? = some a) : weight p a ≤ l.countP p := by
  rw [← @countP_eraseIdx _ p _ _ _ h]
  exact Nat.le_add_left _ _

end Counting
