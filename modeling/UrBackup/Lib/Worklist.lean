import Mathlib

/-! A list that is worked off from the front while what an element leads to is put at its end. Elements
are not remembered, so it is worked off only if nothing leads back to itself. -/
namespace Worklist

variable {α : Type*} (next : α → List α)

/-- The elements in the order in which their turn comes, if that many turns are enough. -/
def visited : Nat → List α → Option (List α)
  | _, [] => some []
  | 0, _ :: _ => none
  | turns + 1, a :: rest => (visited turns (rest ++ next a)).map (a :: ·)

/-- `b` comes from `a`. -/
abbrev From : α → α → Prop := Relation.ReflTransGen fun a b => b ∈ next a

variable {next}

theorem from_iff {a b : α} : From next a b ↔ b = a ∨ ∃ c ∈ next a, From next c b := by
  rw [From, Relation.ReflTransGen.cases_head_iff]
  exact or_congr eq_comm Iff.rfl

theorem mem_visited {turns : Nat} {todo all : List α} (h : visited next turns todo = some all)
    (b : α) : b ∈ all ↔ ∃ a ∈ todo, From next a b := by
  induction turns generalizing todo all with
  | zero =>
    cases todo with
    | nil =>
      cases h
      exact ⟨fun hb => absurd hb List.not_mem_nil, fun ⟨_, ha, _⟩ => absurd ha List.not_mem_nil⟩
    | cons a rest => cases h
  | succ turns ih =>
    cases todo with
    | nil =>
      cases h
      exact ⟨fun hb => absurd hb List.not_mem_nil, fun ⟨_, ha, _⟩ => absurd ha List.not_mem_nil⟩
    | cons a rest =>
      obtain ⟨later, hlater, rfl⟩ := Option.map_eq_some_iff.mp h
      rw [List.mem_cons, ih hlater]
      constructor
      · rintro (rfl | ⟨c, hc, hfrom⟩)
        · exact ⟨b, List.mem_cons_self, .refl⟩
        · rcases List.mem_append.mp hc with hc | hc
          · exact ⟨c, List.mem_cons_of_mem _ hc, hfrom⟩
          · exact ⟨a, List.mem_cons_self, .head hc hfrom⟩
      · rintro ⟨c, hc, hfrom⟩
        rcases List.mem_cons.mp hc with rfl | hc
        · rcases Relation.ReflTransGen.cases_head hfrom with rfl | ⟨d, hd, hfrom⟩
          · exact .inl rfl
          · exact .inr ⟨d, List.mem_append_right _ hd, hfrom⟩
        · exact .inr ⟨c, List.mem_append_left _ hc, hfrom⟩

theorem visited_of_weight {weight : α → Nat}
    (hweight : ∀ a, ((next a).map weight).sum < weight a) {turns : Nat} {todo : List α}
    (h : (todo.map weight).sum ≤ turns) : ∃ all, visited next turns todo = some all := by
  induction turns generalizing todo with
  | zero =>
    cases todo with
    | nil => exact ⟨[], rfl⟩
    | cons a rest =>
      have hpos := hweight a
      rw [List.map_cons, List.sum_cons] at h
      omega
  | succ turns ih =>
    cases todo with
    | nil => exact ⟨[], rfl⟩
    | cons a rest =>
      have hpos := hweight a
      rw [List.map_cons, List.sum_cons] at h
      obtain ⟨later, hlater⟩ := @ih (rest ++ next a) (by
        rw [List.map_append, List.sum_append]
        omega)
      refine ⟨a :: later, ?_⟩
      rw [visited, hlater]
      rfl

/-- How many turns an element and what comes from it take, looked at down to a depth. -/
def weightTo (next : α → List α) : Nat → α → Nat
  | 0, _ => 0
  | depth + 1, a => ((next a).map (weightTo next depth)).sum + 1

theorem weightTo_eq {rank : α → Nat} (hrank : ∀ a, ∀ b ∈ next a, rank b < rank a)
    {depth depth' : Nat} {a : α} (h : rank a < depth) (h' : rank a < depth') :
    weightTo next depth a = weightTo next depth' a := by
  induction depth generalizing a depth' with
  | zero => exact absurd h (Nat.not_lt_zero _)
  | succ depth ih =>
    cases depth' with
    | zero => exact absurd h' (Nat.not_lt_zero _)
    | succ depth' =>
      have hsame : (next a).map (weightTo next depth) = (next a).map (weightTo next depth') := by
        apply List.map_congr_left
        intro b hb
        have hless := hrank a b hb
        exact ih (by omega) (by omega)
      rw [weightTo, weightTo, hsame]

theorem visited_ends {rank : α → Nat} (hrank : ∀ a, ∀ b ∈ next a, rank b < rank a)
    (todo : List α) :
    ∃ bound, ∀ turns, bound ≤ turns → ∃ all, visited next turns todo = some all := by
  have hweight (a : α) : ((next a).map fun b => weightTo next (rank b + 1) b).sum <
      weightTo next (rank a + 1) a := by
    have hsame : (next a).map (fun b => weightTo next (rank b + 1) b) =
        (next a).map (weightTo next (rank a)) := by
      apply List.map_congr_left
      intro b hb
      exact weightTo_eq hrank (Nat.lt_succ_self _) (hrank a b hb)
    rw [hsame, weightTo]
    exact Nat.lt_succ_self _
  exact ⟨_, fun turns h => visited_of_weight hweight h⟩

end Worklist
