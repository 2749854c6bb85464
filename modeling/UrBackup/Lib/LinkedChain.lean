import Mathlib.Data.Finset.Card
import Mathlib.Data.Finset.Filter
import Mathlib.Logic.Relation

/-! Nodes that are linked both ways: `next` and `prev` lead along a chain and end at its ends. -/
namespace LinkedChain

variable {α : Type*} {f next prev : α → Option α} {a b c : α} {l newer older : List α}

/-- The nodes behind `a` in the direction of `f`, up to the end. -/
inductive Walk (f : α → Option α) : α → List α → Prop
  | last {a : α} (h : f a = none) : Walk f a []
  | step {a b : α} {l : List α} (h : f a = some b) (rest : Walk f b l) : Walk f a (b :: l)

/-- `b` is `a` or comes behind it in the direction of `f`. -/
abbrev Follows (f : α → Option α) : α → α → Prop := Relation.ReflTransGen fun a b => f a = some b

/-- `b` can be reached from `a` along links in both directions. -/
abbrev InChain (next : α → Option α) : α → α → Prop := Relation.EqvGen fun a b => next a = some b

/-- The links go both ways. -/
def Mutual (next prev : α → Option α) : Prop := ∀ a b, next a = some b ↔ prev b = some a

theorem Mutual.symm (h : Mutual next prev) : Mutual prev next := fun a b => (h b a).symm

/-- Every walk ends where a rank rises with each link and the nodes are finitely many.
Induction on the number of nodes of a higher rank. -/
theorem exists_walk {β : Type*} [Preorder β] {rank : α → β} {nodes : Finset α}
    (hnodes : ∀ a b, f a = some b → b ∈ nodes) (hrank : ∀ a b, f a = some b → rank a < rank b)
    (a : α) : ∃ l, Walk f a l := by
  classical
  induction hcount : (nodes.filter fun b => rank a < rank b).card using Nat.strong_induction_on
    generalizing a with
  | _ count ih =>
    cases hf : f a with
    | none => exact ⟨[], .last hf⟩
    | some b =>
      have hlt : (nodes.filter fun c => rank b < rank c).card < count := by
        rw [← hcount]
        apply Finset.card_lt_card
        refine Finset.ssubset_iff_subset_ne.mpr ⟨?_, ?_⟩
        · intro c hc
          obtain ⟨hmem, hbc⟩ := Finset.mem_filter.mp hc
          exact Finset.mem_filter.mpr ⟨hmem, (hrank a b hf).trans hbc⟩
        · intro heq
          have hb : b ∈ nodes.filter fun c => rank a < rank c :=
            Finset.mem_filter.mpr ⟨hnodes a b hf, hrank a b hf⟩
          rw [← heq] at hb
          exact lt_irrefl _ (Finset.mem_filter.mp hb).2
      obtain ⟨l, hl⟩ := ih _ hlt b rfl
      exact ⟨b :: l, .step hf hl⟩

/-- A walk passes all that follows its start. Induction on the walk. -/
theorem Walk.mem_iff (h : Walk f a l) : b ∈ a :: l ↔ Follows f a b := by
  induction h with
  | last hf =>
    rw [List.mem_singleton, Follows, Relation.ReflTransGen.cases_head_iff]
    constructor
    · exact fun hb => .inl hb.symm
    · rintro (hb | ⟨c, hc, -⟩)
      · exact hb.symm
      · rw [hf] at hc
        cases hc
  | step hf _ ih =>
    rw [List.mem_cons]
    constructor
    · rintro (rfl | hb)
      · exact .refl
      · exact .head hf (ih.mp hb)
    · intro hfollow
      rcases Relation.ReflTransGen.cases_head hfollow with heq | ⟨c, hc, hfollow⟩
      · exact .inl heq.symm
      · rw [hf, Option.some.injEq] at hc
        exact .inr (ih.mpr (hc ▸ hfollow))

theorem Follows.rank_le {β : Type*} [Preorder β] {rank : α → β}
    (hrank : ∀ a b, f a = some b → rank a < rank b) (h : Follows f a b) : rank a ≤ rank b := by
  induction h with
  | refl => exact le_refl _
  | tail _ hf ih => exact ih.trans (hrank _ _ hf).le

theorem Follows.inChain (h : Follows next a b) : InChain next a b := by
  induction h with
  | refl => exact .refl _
  | tail _ hf ih => exact ih.trans _ _ _ (.rel _ _ hf)

theorem Follows.inChain_prev (hm : Mutual next prev) (h : Follows prev a b) : InChain next a b := by
  induction h with
  | refl => exact .refl _
  | tail _ hf ih => exact ih.trans _ _ _ (.symm _ _ (.rel _ _ ((hm _ _).mpr hf)))

theorem Follows.back (hm : Mutual next prev) (h : Follows next a b) (hb : prev b = some c) :
    Follows next a c ∨ Follows prev a c := by
  rcases Relation.ReflTransGen.cases_tail h with heq | ⟨d, hd, hlink⟩
  · exact .inr (.single (heq ▸ hb))
  · have hback := (hm d b).mp hlink
    rw [hb, Option.some.injEq] at hback
    exact .inl (hback ▸ hd)

theorem Follows.turn (hm : Mutual next prev) (h : Follows next a b) (hback : Follows prev b c) :
    Follows next a c ∨ Follows prev a c := by
  induction hback with
  | refl => exact .inl h
  | tail _ hlink ih =>
    rcases ih with h | h
    · exact h.back hm hlink
    · exact .inr (h.tail hlink)

theorem Follows.reverse (hm : Mutual next prev) (h : Follows next a b) : Follows prev b a := by
  induction h with
  | refl => exact .refl
  | tail _ hlink ih => exact .head ((hm _ _).mp hlink) ih

theorem inChain_iff (hm : Mutual next prev) :
    InChain next a b ↔ Follows next a b ∨ Follows prev a b := by
  constructor
  · intro h
    induction h with
    | rel a b hlink => exact .inl (.single hlink)
    | refl a => exact .inl .refl
    | symm a b _ ih =>
      rcases ih with h | h
      · exact .inr (h.reverse hm)
      · exact .inl (h.reverse hm.symm)
    | trans a b c _ _ ihab ihbc =>
      rcases ihab with hab | hab <;> rcases ihbc with hbc | hbc
      · exact .inl (hab.trans hbc)
      · exact hab.turn hm hbc
      · exact (hab.turn hm.symm hbc).symm
      · exact .inr (hab.trans hbc)
  · rintro (h | h)
    · exact h.inChain
    · exact h.inChain_prev hm

theorem InChain.follows_of_first (hm : Mutual next prev) (h : InChain next a b)
    (hfirst : prev a = none) : Follows next a b := by
  rcases (inChain_iff hm).mp h with h | h
  · exact h
  · rcases Relation.ReflTransGen.cases_head h with heq | ⟨c, hc, -⟩
    · exact heq ▸ .refl
    · rw [hfirst] at hc
      cases hc

/-- What leads to a node does not follow it. -/
theorem not_follows_of_link {β : Type*} [Preorder β] {rank : α → β}
    (hrank : ∀ a b, f a = some b → rank a < rank b) (h : f b = some a) : ¬ Follows f a b :=
  fun hfollow => lt_irrefl _ ((hrank b a h).trans_le (hfollow.rank_le hrank))

theorem InChain.keeps {β : Type*} {g : α → β} (hg : ∀ a b, next a = some b → g b = g a)
    (h : InChain next a b) : g b = g a := by
  induction h with
  | rel a b hlink => exact hg a b hlink
  | refl a => rfl
  | symm a b _ ih => exact ih.symm
  | trans a b c _ _ ihab ihbc => exact ihbc.trans ihab

end LinkedChain
