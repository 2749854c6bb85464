import Mathlib.Data.List.Basic

/-! A stream in which a sum of the data comes after every so many elements, and after the last. -/
namespace CheckedStream

variable {α : Type*} (sum : List α → List α) (dist : Nat)

def encode (acc : List α) : List α → List α
  | [] => if acc.isEmpty then [] else sum acc
  | a :: rest =>
    if acc.length + 1 = dist then a :: (sum (acc ++ [a]) ++ encode [] rest)
    else a :: encode (acc ++ [a]) rest

variable {sum dist} {acc part rest : List α}

@[simp] theorem encode_nil : encode sum dist ([] : List α) [] = [] := rfl

theorem encode_append_of_lt (h : acc.length + part.length < dist) :
    encode sum dist acc (part ++ rest) = part ++ encode sum dist (acc ++ part) rest := by
  induction part generalizing acc with
  | nil => rw [List.append_nil, List.nil_append, List.nil_append]
  | cons a part ih =>
    rw [List.length_cons] at h
    have hdue : ¬ acc.length + 1 = dist := by omega
    have htail : (acc ++ [a]).length + part.length < dist := by
      rw [List.length_append, List.length_singleton]
      omega
    rw [List.cons_append, encode, if_neg hdue, ih htail, List.append_assoc,
      List.singleton_append, List.cons_append]

theorem encode_append_of_eq (hpart : part ≠ []) (h : acc.length + part.length = dist) :
    encode sum dist acc (part ++ rest) =
      part ++ (sum (acc ++ part) ++ encode sum dist [] rest) := by
  induction part generalizing acc with
  | nil => exact absurd rfl hpart
  | cons a part ih =>
    rw [List.length_cons] at h
    by_cases hlast : part = []
    · subst hlast
      rw [List.singleton_append, encode, if_pos (by simpa using h), List.singleton_append]
    · have hdue : ¬ acc.length + 1 = dist := by
        have hpos := List.length_pos_iff.mpr hlast
        omega
      have htail : (acc ++ [a]).length + part.length = dist := by
        rw [List.length_append, List.length_singleton]
        omega
      rw [List.cons_append, encode, if_neg hdue, ih hlast htail, List.append_assoc,
        List.singleton_append, List.cons_append]

theorem encode_of_le (hpart : part ≠ []) (h : acc.length + part.length ≤ dist) :
    encode sum dist acc part = part ++ sum (acc ++ part) := by
  cases Nat.lt_or_eq_of_le h with
  | inl hlt =>
    have hencode := @encode_append_of_lt _ sum _ _ _ [] hlt
    have hne : (acc ++ part).isEmpty = false := by simp [hpart]
    rw [List.append_nil, encode, hne, if_neg Bool.false_ne_true] at hencode
    exact hencode
  | inr heq =>
    have hencode := @encode_append_of_eq _ sum _ _ _ [] hpart heq
    rw [List.append_nil, encode_nil, List.append_nil] at hencode
    exact hencode

theorem encode_append_of_due (hpart : part ≠ []) (h : acc.length + part.length ≤ dist)
    (hdue : acc.length + part.length = dist ∨ rest = []) :
    encode sum dist acc (part ++ rest) =
      part ++ (sum (acc ++ part) ++ encode sum dist [] rest) := by
  cases hdue with
  | inl heq => exact encode_append_of_eq hpart heq
  | inr hrest =>
    subst hrest
    rw [List.append_nil, encode_nil, List.append_nil]
    exact encode_of_le hpart h

end CheckedStream
