import Mathlib.Order.WellFounded

/-! A `while` loop as its body: a turn ends the loop with a result or leads to another
turn. Whether a loop ends is a statement about the number of its turns. -/
namespace Loop

variable {α β : Type*} (body : α → β ⊕ α)

def turns : Nat → α → Option β
  | 0, _ => none
  | n + 1, a =>
    match body a with
    | .inl b => some b
    | .inr a' => turns n a'

/-- The loop ends with a result. -/
def Ends (a : α) (b : β) : Prop := ∃ n, turns body n a = some b

/-- A loop comes to a turn. -/
inductive Reaches : α → α → Prop where
  | here (a) : Reaches a a
  | turn {a a' a''} (h : body a = .inr a') (hrest : Reaches a' a'') : Reaches a a''

variable {body}

theorem Reaches.next {a a' a'' : α} (h : Reaches body a a') (hbody : body a' = .inr a'') :
    Reaches body a a'' := by
  induction h with
  | here a => exact .turn hbody (.here a'')
  | turn h _ ih => exact .turn h (ih hbody)

theorem forall_reaches_turn {P : α → Prop} {a a' : α} (h : body a = .inr a') :
    (∀ x, Reaches body a x → P x) ↔ P a ∧ ∀ x, Reaches body a' x → P x := by
  constructor
  · intro hall
    exact ⟨hall a (.here a), fun x hx => hall x (.turn h hx)⟩
  · rintro ⟨ha, hrest⟩ x hx
    cases hx with
    | here => exact ha
    | turn hbody hx =>
      cases hbody.symm.trans h
      exact hrest x hx

theorem forall_reaches_done {P : α → Prop} {a : α} {b : β} (h : body a = .inl b) :
    (∀ x, Reaches body a x → P x) ↔ P a := by
  constructor
  · intro hall
    exact hall a (.here a)
  · intro ha x hx
    cases hx with
    | here => exact ha
    | turn hbody => cases hbody.symm.trans h

theorem Ends.done {a : α} {b : β} (h : body a = .inl b) : Ends body a b :=
  ⟨1, by simp only [turns, h]⟩

theorem Ends.turn {a a' : α} {b : β} (h : body a = .inr a') (hrest : Ends body a' b) :
    Ends body a b := by
  obtain ⟨n, hn⟩ := hrest
  exact ⟨n + 1, by simp only [turns, h, hn]⟩

theorem Ends.unique {a : α} {b b' : β} (h : Ends body a b) (h' : Ends body a b') : b = b' := by
  obtain ⟨n, hn⟩ := h
  obtain ⟨m, hm⟩ := h'
  induction n generalizing a m with
  | zero => cases hn
  | succ n ih =>
    cases m with
    | zero => cases hm
    | succ m =>
      simp only [turns] at hn hm
      cases hbody : body a with
      | inl c =>
        simp only [hbody, Option.some.injEq] at hn hm
        exact hn.symm.trans hm
      | inr a' =>
        simp only [hbody] at hn hm
        exact ih hn m hm

theorem Ends.rule {P : α → β → Prop} (hdone : ∀ a b, body a = .inl b → P a b)
    (hturn : ∀ a a' b, body a = .inr a' → P a' b → P a b) {a : α} {b : β}
    (h : Ends body a b) : P a b := by
  obtain ⟨n, hn⟩ := h
  induction n generalizing a with
  | zero => cases hn
  | succ n ih =>
    simp only [turns] at hn
    cases hbody : body a with
    | inl c =>
      simp only [hbody, Option.some.injEq] at hn
      exact hn ▸ hdone a c hbody
    | inr a' =>
      simp only [hbody] at hn
      exact hturn a a' b hbody (ih hn)

/-- The rule for the results of a loop whose turns keep an invariant. -/
theorem Ends.keeps {I : α → Prop} {P : β → Prop} (hdone : ∀ a b, body a = .inl b → I a → P b)
    (hturn : ∀ a a', body a = .inr a' → I a → I a') {a : α} {b : β}
    (h : Ends body a b) (ha : I a) : P b :=
  h.rule (P := fun a b => I a → P b) hdone (fun a a' _ hbody ih ha => ih (hturn a a' hbody ha)) ha

variable {ι : Type*} [LT ι] [WellFoundedLT ι]

/-- The rule for a loop whose turns keep an invariant and make a measure smaller. -/
theorem Ends.of_wellFounded {I : α → Prop} {P : β → Prop} (measure : α → ι)
    (hturn : ∀ a, I a → match body a with
      | .inl b => P b
      | .inr a' => I a' ∧ measure a' < measure a)
    {a : α} (ha : I a) : ∃ b, Ends body a b ∧ P b := by
  induction hm : measure a using WellFoundedLT.induction generalizing a with
  | ind m ih =>
    have h := hturn a ha
    cases hbody : body a with
    | inl b =>
      rw [hbody] at h
      exact ⟨b, .done hbody, h⟩
    | inr a' =>
      rw [hbody] at h
      obtain ⟨b, hends, hb⟩ := ih (measure a') (hm ▸ h.2) h.1 rfl
      exact ⟨b, .turn hbody hends, hb⟩

theorem Ends.all_of_wellFounded {I : α → Prop} {P : β → Prop} (measure : α → ι)
    (hturn : ∀ a, I a → match body a with
      | .inl b => P b
      | .inr a' => I a' ∧ measure a' < measure a)
    {a : α} (ha : I a) : (∃ b, Ends body a b) ∧ ∀ b, Ends body a b → P b := by
  obtain ⟨b, hends, hb⟩ := Ends.of_wellFounded measure hturn ha
  exact ⟨⟨b, hends⟩, fun b' hends' => hends.unique hends' ▸ hb⟩

theorem Ends.of_invariant {I : α → Prop} {P : β → Prop} (measure : α → Nat)
    (hturn : ∀ a, I a → match body a with
      | .inl b => P b
      | .inr a' => I a' ∧ measure a' < measure a)
    {a : α} (ha : I a) : ∃ b, Ends body a b ∧ P b :=
  Ends.of_wellFounded measure hturn ha

/-- A loop that ends does so from every turn it comes to. -/
theorem Reaches.ends {a a' : α} {b : β} (h : Reaches body a a') (hends : Ends body a b) :
    Ends body a' b := by
  induction h with
  | here a => exact hends
  | turn hbody _ ih =>
    obtain ⟨n, hn⟩ := hends
    cases n with
    | zero => cases hn
    | succ n =>
      simp only [turns, hbody] at hn
      exact ih ⟨n, hn⟩

/-- A loop that always takes another turn does not end. Induction on the turns it is to end in. -/
theorem not_ends_of_invariant {I : α → Prop} (hturn : ∀ a, I a → ∃ a', body a = .inr a' ∧ I a')
    {a : α} (ha : I a) (b : β) : ¬ Ends body a b := by
  rintro ⟨n, hn⟩
  induction n generalizing a with
  | zero => cases hn
  | succ n ih =>
    obtain ⟨a', hbody, ha'⟩ := hturn a ha
    simp only [turns, hbody] at hn
    exact ih ha' hn

/-- The rule for a loop that makes a measure smaller unless it is stuck, and then stays stuck. -/
theorem ends_iff_never_stuck {I Stuck : α → Prop} (measure : α → ι)
    (hstuck : ∀ a, Stuck a → ∃ a', body a = .inr a' ∧ Stuck a')
    (hturn : ∀ a, I a → ¬ Stuck a → match body a with
      | .inl _ => True
      | .inr a' => I a' ∧ measure a' < measure a)
    {a : α} (ha : I a) : (∃ b, Ends body a b) ↔ ∀ a', Reaches body a a' → ¬ Stuck a' := by
  constructor
  · rintro ⟨b, hends⟩ a' hreaches hs
    exact not_ends_of_invariant hstuck hs b (hreaches.ends hends)
  · intro hnever
    have hrule : ∀ a', I a' ∧ Reaches body a a' → match body a' with
        | .inl _ => True
        | .inr a'' => (I a'' ∧ Reaches body a a'') ∧ measure a'' < measure a' := by
      rintro a' ⟨ha', hreaches⟩
      have hnext := hturn a' ha' (hnever a' hreaches)
      cases hbody : body a' with
      | inl b => trivial
      | inr a'' =>
        rw [hbody] at hnext
        exact ⟨⟨hnext.1, hreaches.next hbody⟩, hnext.2⟩
    obtain ⟨b, hends, -⟩ := Ends.of_wellFounded measure hrule ⟨ha, .here a⟩
    exact ⟨b, hends⟩

theorem ends_iff_never {I Stuck : α → Prop} (measure : α → Nat)
    (hstuck : ∀ a, Stuck a → ∃ a', body a = .inr a' ∧ Stuck a')
    (hturn : ∀ a, I a → ¬ Stuck a → match body a with
      | .inl _ => True
      | .inr a' => I a' ∧ measure a' < measure a)
    {a : α} (ha : I a) : (∃ b, Ends body a b) ↔ ∀ a', Reaches body a a' → ¬ Stuck a' :=
  ends_iff_never_stuck measure hstuck hturn ha

end Loop
