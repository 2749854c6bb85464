import Mathlib.Algebra.Order.BigOperators.Group.Finset

/-! Things whose size is shared by their holders, and how the usage of a holder changes when one
holder joins or leaves. -/
namespace Shares

open Finset

variable {φ κ : Type*} [DecidableEq κ]

/-- What a holder uses of a thing: the size divided by the number of holders. -/
def share (size : Nat) (holders : Finset κ) (c : κ) : Int :=
  if c ∈ holders then (size / holders.card : Nat) else 0

def usage (things : Finset φ) (size : φ → Nat) (holders : φ → Finset κ) (c : κ) : Int :=
  ∑ f ∈ things, share (size f) (holders f) c

@[simp] theorem share_empty (size : Nat) (c : κ) : share size ∅ c = 0 := if_neg (notMem_empty c)

variable {things : Finset φ} {size : φ → Nat} {holders holders' : φ → Finset κ}

theorem usage_congr (h : ∀ f ∈ things, holders' f = holders f) (c : κ) :
    usage things size holders' c = usage things size holders c := by
  apply sum_congr rfl
  intro f hf
  rw [h f hf]

theorem usage_change [DecidableEq φ] {f : φ} (hf : f ∈ things)
    (hsame : ∀ g ∈ things, g ≠ f → holders' g = holders g) (c : κ) :
    usage things size holders' c =
      usage things size holders c + (share (size f) (holders' f) c -
        share (size f) (holders f) c) := by
  unfold usage
  rw [← add_sum_erase things _ hf, ← add_sum_erase things (fun g => share (size g) (holders g) c) hf]
  have hrest : ∑ g ∈ things.erase f, share (size g) (holders' g) c =
      ∑ g ∈ things.erase f, share (size g) (holders g) c := by
    apply sum_congr rfl
    intro g hg
    rw [hsame g (mem_of_mem_erase hg) (ne_of_mem_erase hg)]
  rw [hrest]
  omega

section Lists

variable {L : List κ} {c : κ}

theorem share_toFinset (hnodup : L.Nodup) (size : Nat) (x : κ) :
    share size L.toFinset x = (size / L.length : Nat) * (L.count x : Int) := by
  unfold share
  rw [List.toFinset_card_of_nodup hnodup]
  by_cases hx : x ∈ L
  · rw [if_pos (List.mem_toFinset.mpr hx), List.count_eq_one_of_mem hnodup hx]
    exact (Int.mul_one _).symm
  · rw [if_neg fun h => hx (List.mem_toFinset.mp h), List.count_eq_zero_of_not_mem hx]
    exact (Int.mul_zero _).symm

theorem share_join (hnodup : L.Nodup) (hc : c ∉ L) (size : Nat) (x : κ) :
    share size (insert c L.toFinset) x =
      (size / (L ++ [c]).length : Nat) * ((L ++ [c]).count x : Int) := by
  have happend : (L ++ [c]).Nodup :=
    List.nodup_append'.mpr ⟨hnodup, List.nodup_singleton c, List.disjoint_singleton.mpr hc⟩
  rw [← share_toFinset happend]
  congr 1
  ext y
  rw [mem_insert, List.mem_toFinset, List.mem_toFinset, List.mem_append, List.mem_singleton, or_comm]

theorem share_leave (hnodup : L.Nodup) (size : Nat) (x : κ) :
    share size (L.toFinset.erase c) x =
      (size / (L.erase c).length : Nat) * ((L.erase c).count x : Int) := by
  rw [← share_toFinset (hnodup.erase c)]
  congr 1
  ext y
  rw [mem_erase, List.mem_toFinset, List.mem_toFinset, hnodup.mem_erase_iff]

end Lists

end Shares
