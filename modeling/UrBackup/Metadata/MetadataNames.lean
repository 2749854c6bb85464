import UrBackup.Backup.FileNames
import UrBackup.FileList.Scan

/-! The names of metadata files, and how they are taken back. -/
namespace UrBackup

namespace FileNames

def unescapeMetadataFn (fn : List UInt8) : List UInt8 :=
  if metadataDirFn.isPrefixOf fn then
    let num := fn.drop metadataDirFn.length
    if num = [] then fn
    else if num.all Decimal.isDigit then
      let c := FileList.osAtoi64 num - 1
      if c = 0 then metadataDirFn else metadataDirFn ++ FileList.convert c
    else fn
  else fn

/-- Behind the reserved name are digits only, or nothing. -/
def Numbered (fn : List UInt8) : Prop :=
  ∃ num, fn = metadataDirFn ++ num ∧ num.all Decimal.isDigit = true

variable {fn num : List UInt8}

theorem escapeMetadataFn_append (num : List UInt8) : escapeMetadataFn (metadataDirFn ++ num) =
    if num = [] then metadataDirFn ++ [48]
    else if num.all Decimal.isDigit then
      metadataDirFn ++ FileList.convert (FileList.osAtoi64 num + 1)
    else metadataDirFn ++ num := by
  have hprefix : metadataDirFn.isPrefixOf (metadataDirFn ++ num) = true :=
    List.isPrefixOf_iff_prefix.mpr (List.prefix_append _ _)
  unfold escapeMetadataFn
  rw [if_pos hprefix]
  dsimp only
  rw [List.drop_left]
  split
  next hnil => rw [hnil, List.append_nil]
  next => rfl

theorem metadataFn_of_not_numbered (h : ¬ Numbered fn) :
    escapeMetadataFn fn = fn ∧ unescapeMetadataFn fn = fn := by
  unfold escapeMetadataFn unescapeMetadataFn
  split
  next hprefix =>
    obtain ⟨num, rfl⟩ := List.isPrefixOf_iff_prefix.mp hprefix
    have hdigits : ¬ num.all Decimal.isDigit = true := fun hall => h ⟨num, rfl, hall⟩
    have hne : num ≠ [] := fun hnil => hdigits (by rw [hnil]; rfl)
    dsimp only
    rw [List.drop_left, if_neg hne, if_neg hne, if_neg hdigits, if_neg hdigits]
    exact ⟨rfl, rfl⟩
  next => exact ⟨rfl, rfl⟩

theorem osAtoi64_digits (h : num.all Decimal.isDigit = true) :
    FileList.osAtoi64 num = FileList.clamp false (Decimal.ofDigits num) := by
  cases num with
  | nil => rfl
  | cons ch rest =>
    have htake := List.takeWhile_eq_self_iff.mpr (List.all_eq_true.mp h)
    have hdigit := List.all_eq_true.mp h ch List.mem_cons_self
    have hspace := FileList.not_isSpace_of_isDigit hdigit
    have hne := FileList.isDigit_ne hdigit
    simp [FileList.osAtoi64, List.dropWhile_cons_of_neg, hspace, hne.2.2.2.1, hne.2.2.2.2, htake]

theorem escapeMetadataFn_zero (hne : num ≠ []) (h : num.all Decimal.isDigit = true) :
    escapeMetadataFn (metadataDirFn ++ 48 :: num) = escapeMetadataFn (metadataDirFn ++ num) := by
  have hzero : (48 :: num).all Decimal.isDigit = true := by
    rw [List.all_cons, h]
    rfl
  rw [escapeMetadataFn_append, escapeMetadataFn_append, if_neg hne, if_pos h, if_pos hzero,
    if_neg (List.cons_ne_nil _ _), osAtoi64_digits h, osAtoi64_digits hzero]
  rfl

/-- A number is never negative, but the one above the largest is. -/
theorem convert_next (h : num.all Decimal.isDigit = true) :
    (FileList.convert (FileList.osAtoi64 num + 1)).all Decimal.isDigit = true ∨
      FileList.osAtoi64 num + 1 = Int64.minValue := by
  rw [osAtoi64_digits h]
  unfold FileList.convert
  split
  next hneg =>
    right
    have hclamp : (FileList.clamp false (Decimal.ofDigits num)).toInt =
        min (Decimal.ofDigits num) (2 ^ 63 - 1) := by
      simp only [FileList.clamp, Bool.false_eq_true, if_false]
      rw [Int64.toInt_ofInt_of_le (by omega) (by omega)]
    apply Int64.toInt_inj.mp
    rw [Int64.toInt_add, hclamp] at hneg ⊢
    simp only [Int64.toInt_one, Int64.toInt_minValue, Int.bmod_def] at hneg ⊢
    omega
  next => exact Or.inl (List.all_eq_true.mpr fun b hb => Decimal.isDigit_of_mem_digits hb)

/-- A name is taken back, and no other name has its place, if and only if it is no numbered one and
not the one that the largest number is counted up to. -/
theorem metadataFn_reversible_iff (fn : List UInt8) :
    (unescapeMetadataFn (escapeMetadataFn fn) = fn ∧
      (∀ fn', escapeMetadataFn fn' = escapeMetadataFn fn → fn' = fn) ∧
      escapeMetadataFn fn ≠ metadataDirFn) ↔
    ¬ Numbered fn ∧ fn ≠ metadataDirFn ++ FileList.convert Int64.minValue := by
  constructor
  · rintro ⟨hback, halone, -⟩
    refine ⟨?_, ?_⟩
    · rintro ⟨num, rfl, hdigits⟩
      by_cases hne : num = []
      · subst hne
        exact absurd hback (by decide +kernel)
      · have hlength := congrArg List.length (halone _ (escapeMetadataFn_zero hne hdigits))
        rw [List.length_append, List.length_append, List.length_cons] at hlength
        omega
    · rintro rfl
      have hlargest := halone (metadataDirFn ++ FileList.convert Int64.maxValue) (by decide +kernel)
      exact absurd hlargest (by decide +kernel)
  · rintro ⟨hplain, hlargest⟩
    obtain ⟨hescape, hunescape⟩ := metadataFn_of_not_numbered hplain
    rw [hescape, hunescape]
    refine ⟨rfl, fun fn' heq => ?_, fun heq => hplain ⟨[], heq, rfl⟩⟩
    by_cases hnumbered : Numbered fn'
    · obtain ⟨num, rfl, hdigits⟩ := hnumbered
      rw [escapeMetadataFn_append, if_pos hdigits] at heq
      split at heq
      next => exact absurd ⟨[48], heq.symm, rfl⟩ hplain
      next =>
        cases convert_next hdigits with
        | inl hall => exact absurd ⟨_, heq.symm, hall⟩ hplain
        | inr hmin => exact absurd heq.symm (by rw [hmin]; exact hlargest)
    · rwa [(metadataFn_of_not_numbered hnumbered).1] at heq

/-- The reserved name itself is not taken back. -/
theorem metadataDirFn_not_taken_back :
    unescapeMetadataFn (escapeMetadataFn metadataDirFn) = metadataDirFn ++ [45, 49] ∧
    ¬ ((∀ fn, unescapeMetadataFn (escapeMetadataFn fn) = fn) ∧
      Function.Injective escapeMetadataFn ∧ ∀ fn, escapeMetadataFn fn ≠ metadataDirFn) :=
  ⟨by decide +kernel, fun h => absurd (h.1 metadataDirFn) (by decide +kernel)⟩

end FileNames

end UrBackup
