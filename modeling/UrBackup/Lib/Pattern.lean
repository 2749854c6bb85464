import Mathlib.Data.List.Infix

/-! Searching a list for a pattern: where it stands first, and why it does not stand across the
border of two lists. -/
namespace Pattern

variable {α : Type*} [DecidableEq α]

def find (pat : List α) : List α → Option Nat
  | [] => if pat = [] then some 0 else none
  | c :: rest => if pat.isPrefixOf (c :: rest) then some 0 else (find pat rest).map (· + 1)

/-- A pattern that does not stand across a border in front of a list. -/
def NoBorder (pat rest : List α) : Prop := ∀ c, rest.head? = some c → c ∉ pat.tail

omit [DecidableEq α] in
theorem isPrefix_append {pat first rest : List α} (h : pat <+: first ++ rest)
    (hborder : NoBorder pat rest) (hfirst : first ≠ []) : pat <+: first := by
  obtain hshort | ⟨tail, rfl⟩ := List.prefix_or_prefix_of_prefix h (List.prefix_append first rest)
  · exact hshort
  · rw [List.prefix_append_right_inj] at h
    cases tail with
    | nil => rw [List.append_nil]
    | cons c tail =>
      obtain ⟨back, rfl⟩ := h
      cases first with
      | nil => exact absurd rfl hfirst
      | cons a first => exact absurd (by simp) (hborder c rfl)

/-- A pattern that is not in a list stands behind it. Induction on the list. -/
theorem find_append {pat first rest : List α} (hfirst : ¬ pat <:+: first)
    (hborder : NoBorder pat rest) :
    find pat (first ++ rest) = (find pat rest).map (first.length + ·) := by
  induction first with
  | nil => simp
  | cons a first ih =>
    rw [List.infix_cons_iff, not_or] at hfirst
    have hfront : ¬ pat.isPrefixOf (a :: (first ++ rest)) = true := by
      rw [List.isPrefixOf_iff_prefix]
      exact fun hprefix' => hfirst.1 (isPrefix_append hprefix' hborder (List.cons_ne_nil a first))
    rw [List.cons_append, find, if_neg hfront, ih hfirst.2, Option.map_map, List.length_cons]
    congr 1
    funext i
    simp only [Function.comp_apply]
    omega

theorem find_front {pat rest : List α} (h : pat <+: rest) : find pat rest = some 0 := by
  cases rest with
  | nil =>
    rw [List.prefix_nil] at h
    simp [find, h]
  | cons c rest => rw [find, if_pos (List.isPrefixOf_iff_prefix.mpr h)]

theorem find_eq_none_iff {pat l : List α} : find pat l = none ↔ ¬ pat <:+: l := by
  induction l with
  | nil => simp [find, List.infix_nil]
  | cons c l ih =>
    rw [find, List.infix_cons_iff, not_or, ← List.isPrefixOf_iff_prefix, ← ih]
    by_cases hfront : pat.isPrefixOf (c :: l) = true
    · simp [hfront]
    · simp [hfront]

theorem not_infix_append {pat first rest : List α} (hfirst : ¬ pat <:+: first)
    (hrest : ¬ pat <:+: rest) (hborder : NoBorder pat rest) : ¬ pat <:+: first ++ rest := by
  rw [← find_eq_none_iff] at hrest ⊢
  rw [find_append hfirst hborder, hrest]
  rfl

omit [DecidableEq α] in
/-- Behind a list without the first element of a pattern. Induction on the list. -/
theorem not_infix_append_of_head {c : α} {pat first rest : List α} (hpat : pat.head? = some c)
    (hfirst : c ∉ first) (hrest : ¬ pat <:+: rest) : ¬ pat <:+: first ++ rest := by
  induction first with
  | nil => exact hrest
  | cons a first ih =>
    rw [List.mem_cons, not_or] at hfirst
    rw [List.cons_append, List.infix_cons_iff, not_or]
    refine ⟨fun hfront => ?_, ih hfirst.2⟩
    obtain ⟨tail, htail⟩ := hfront
    cases pat with
    | nil => cases hpat
    | cons b pat =>
      cases hpat
      exact hfirst.1 (List.cons.inj htail).1

omit [DecidableEq α] in
theorem noBorder_nil (pat : List α) : NoBorder pat [] := fun c h => by cases h

theorem prefix_of_find {pat l : List α} {i : Nat} (h : find pat l = some i) : pat <+: l.drop i := by
  induction l generalizing i with
  | nil =>
    simp only [find, Option.ite_none_right_eq_some] at h
    rw [h.1]
    exact List.nil_prefix
  | cons c l ih =>
    rw [find] at h
    split at h
    next hfront =>
      cases h
      exact List.isPrefixOf_iff_prefix.mp hfront
    next =>
      obtain ⟨j, hj, rfl⟩ := Option.map_eq_some_iff.mp h
      exact ih hj

omit [DecidableEq α] in
/-- Where a pattern ends that is closed by an element which comes only at one place behind it. -/
theorem infix_append_cons {c : α} {pat first rest : List α}
    (h : pat ++ [c] <:+: first ++ c :: rest) :
    pat ++ [c] <:+: first ∨ pat <:+ first ∨ c ∈ rest := by
  obtain ⟨before, after, heq⟩ := h
  rw [List.append_assoc, List.append_assoc, List.singleton_append, ← List.append_assoc] at heq
  rcases List.append_eq_append_iff.mp heq with ⟨mid, hfirst, hmid⟩ | ⟨mid, hbefore, hmid⟩
  · cases mid with
    | nil => exact .inr (.inl ⟨before, by rw [hfirst, List.append_nil]⟩)
    | cons d mid =>
      cases hmid
      exact .inl ⟨before, mid, by rw [hfirst]; simp⟩
  · cases mid with
    | nil => exact .inr (.inl ⟨before, hbefore.trans (List.append_nil first)⟩)
    | cons d mid =>
      rw [List.cons_append] at hmid
      cases hmid
      exact .inr (.inr (List.mem_append_right _ List.mem_cons_self))

omit [DecidableEq α] in
theorem suffix_of_append_cons {c : α} {pat first rest : List α} (hc : c ∉ pat)
    (h : pat <:+ first ++ c :: rest) : pat <:+ rest := by
  have hrest : c :: rest <:+ first ++ c :: rest := List.suffix_append _ _
  rcases List.suffix_or_suffix_of_suffix h hrest with hin | hout
  · rcases List.suffix_cons_iff.mp hin with heq | hsuffix
    · exact absurd (heq ▸ List.mem_cons_self) hc
    · exact hsuffix
  · exact absurd (hout.mem List.mem_cons_self) hc

end Pattern
