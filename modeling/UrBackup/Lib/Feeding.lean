import Mathlib.Data.List.Basic
import Mathlib.Data.Nat.Basic

/-! A consumer of a stream that comes in parts. It takes what it can of the data it has and keeps
the rest until there is more; what it does should not depend on the parts. -/
namespace Feeding

variable {σ β : Type*}

/-- What a consumer does with its data: it needs more, takes some of them, or ends. -/
inductive Turn (σ : Type*) where
  | wait
  | take (n : Nat) (s : σ)
  | stop (s : σ)

/-- A consumer between two parts of the stream. -/
structure Feed (σ β : Type*) where
  state : σ
  rest : List β
  stopped : Bool

section Definitions

variable (next : σ → List β → Turn σ)

/-- Turns are taken until more data are needed. A turn that takes nothing, or more than there is,
does not occur in a consumer that is coherent. -/
def drain (s : σ) (data : List β) : Feed σ β :=
  match next s data with
  | .wait => ⟨s, data, false⟩
  | .take n s' => if _h : 0 < n ∧ n ≤ data.length then drain s' (data.drop n) else ⟨s', data, true⟩
  | .stop s' => ⟨s', [], true⟩
  termination_by data.length
  decreasing_by
    rw [List.length_drop]
    omega

def feed (f : Feed σ β) (part : List β) : Feed σ β :=
  if f.stopped then f else drain next f.state (f.rest ++ part)

/-- What a turn does with some data does not change when there are more. -/
structure Coherent : Prop where
  bounds : ∀ {s a n s'}, next s a = .take n s' → 0 < n ∧ n ≤ a.length
  take : ∀ {s a n s'}, next s a = .take n s' → n < a.length → ∀ b, next s (a ++ b) = .take n s'
  all : ∀ {s a s'}, next s a = .take a.length s' → ∀ b, drain next s (a ++ b) = drain next s' b
  stop : ∀ {s a s'}, next s a = .stop s' → ∀ b, next s (a ++ b) = .stop s'

end Definitions

section Parts

variable {next : σ → List β → Turn σ}

theorem drain_wait {s : σ} {data : List β} (h : next s data = .wait) :
    drain next s data = ⟨s, data, false⟩ := by
  rw [drain, h]

theorem drain_stop {s s' : σ} {data : List β} (h : next s data = .stop s') :
    drain next s data = ⟨s', [], true⟩ := by
  rw [drain, h]

theorem drain_take {s s' : σ} {data : List β} {n : Nat} (h : next s data = .take n s')
    (hn : 0 < n ∧ n ≤ data.length) : drain next s data = drain next s' (data.drop n) := by
  rw [drain, h]
  exact dif_pos hn

/-- Two parts are one. Induction on the length of the first one, of which every turn takes
something. -/
theorem feed_drain (h : Coherent next) (s : σ) (a b : List β) :
    feed next (drain next s a) b = drain next s (a ++ b) := by
  induction hlength : a.length using Nat.strongRecOn generalizing s a with
  | ind length ih =>
    cases hnext : next s a with
    | wait =>
      rw [drain_wait hnext]
      rfl
    | stop s' =>
      rw [drain_stop hnext, drain_stop (h.stop hnext b)]
      rfl
    | take n s' =>
      obtain ⟨hpos, hle⟩ := h.bounds hnext
      have hshort : (a.drop n).length < length := by
        rw [List.length_drop]
        omega
      rw [drain_take hnext ⟨hpos, hle⟩, ih _ hshort s' (a.drop n) rfl]
      cases Nat.lt_or_eq_of_le hle with
      | inl hlt =>
        have hbound : 0 < n ∧ n ≤ (a ++ b).length := by
          rw [List.length_append]
          omega
        rw [drain_take (h.take hnext hlt b) hbound, List.drop_append_of_le_length hle]
      | inr heq =>
        subst heq
        rw [h.all hnext b, List.drop_length, List.nil_append]

theorem feed_feed (h : Coherent next) (f : Feed σ β) (a b : List β) :
    feed next (feed next f a) b = feed next f (a ++ b) := by
  obtain ⟨s, rest, stopped⟩ := f
  cases stopped with
  | true => rfl
  | false =>
    change feed next (drain next s (rest ++ a)) b = drain next s (rest ++ (a ++ b))
    rw [feed_drain h, List.append_assoc]

theorem foldl_feed (h : Coherent next) (f : Feed σ β) (a : List β) (parts : List (List β)) :
    parts.foldl (feed next) (feed next f a) = feed next f (a ++ parts.flatten) := by
  induction parts generalizing a with
  | nil => rw [List.flatten_nil, List.append_nil, List.foldl_nil]
  | cons part parts ih =>
    rw [List.foldl_cons, feed_feed h, ih, List.flatten_cons, List.append_assoc]

theorem drain_invariant {I : σ → Prop} (htake : ∀ s data n s', I s → next s data = .take n s' → I s')
    (hstop : ∀ s data s', I s → next s data = .stop s' → I s') {s : σ} (hs : I s)
    (data : List β) : I (drain next s data).state := by
  induction hlength : data.length using Nat.strongRecOn generalizing s data with
  | ind length ih =>
    rw [drain]
    cases hnext : next s data with
    | wait => exact hs
    | stop s' => exact hstop s data s' hs hnext
    | take n s' =>
      dsimp only
      split
      next hn =>
        apply ih _ _ (htake s data n s' hs hnext) _ rfl
        rw [List.length_drop]
        omega
      next => exact htake s data n s' hs hnext

theorem foldl_feed_invariant {I : σ → Prop}
    (htake : ∀ s data n s', I s → next s data = .take n s' → I s')
    (hstop : ∀ s data s', I s → next s data = .stop s' → I s') {f : Feed σ β} (hf : I f.state)
    (parts : List (List β)) : I (parts.foldl (feed next) f).state := by
  induction parts generalizing f with
  | nil => exact hf
  | cons part parts ih =>
    apply ih
    unfold feed
    split
    · exact hf
    · exact drain_invariant htake hstop hf _

end Parts

section Collect

variable (need : Nat) (absorb : List β → σ) (full : List β → σ × Bool)

/-- Data are collected until there are as many as needed; then they are used, which may be the
end. -/
def collect (data : List β) : Turn σ :=
  if data = [] ∨ need = 0 then .wait
  else if data.length < need then .take data.length (absorb data)
  else if (full (data.take need)).2 then .stop (full (data.take need)).1
  else .take need (full (data.take need)).1

variable {need absorb full} {a : List β} {s s' : σ} {n : Nat}

theorem collect_of_lt (hne : a ≠ []) (h : a.length < need) :
    collect need absorb full a = .take a.length (absorb a) := by
  have hneed : need ≠ 0 := by omega
  unfold collect
  rw [if_neg (not_or.mpr ⟨hne, hneed⟩), if_pos h]

theorem collect_of_le (hneed : 0 < need) (h : need ≤ a.length) :
    collect need absorb full a =
      if (full (a.take need)).2 then .stop (full (a.take need)).1
      else .take need (full (a.take need)).1 := by
  have hne : a ≠ [] := by
    intro hnil
    rw [hnil, List.length_nil] at h
    omega
  unfold collect
  rw [if_neg (not_or.mpr ⟨hne, Nat.pos_iff_ne_zero.mp hneed⟩), if_neg (not_lt.mpr h)]

theorem collect_append_of_le (hneed : 0 < need) (h : need ≤ a.length) (b : List β) :
    collect need absorb full (a ++ b) = collect need absorb full a := by
  have hle : need ≤ (a ++ b).length := by
    rw [List.length_append]
    omega
  rw [collect_of_le hneed h, collect_of_le hneed hle, List.take_append_of_le_length h]

theorem collect_cases (h : collect need absorb full a ≠ .wait) :
    0 < need ∧ a ≠ [] ∧ (a.length < need ∨ need ≤ a.length) := by
  unfold collect at h
  split at h
  next => exact absurd rfl h
  next hcond =>
    rw [not_or] at hcond
    exact ⟨Nat.pos_of_ne_zero hcond.2, hcond.1, Nat.lt_or_ge _ _⟩

theorem collect_bounds (h : collect need absorb full a = .take n s') : 0 < n ∧ n ≤ a.length := by
  obtain ⟨hneed, hne, hlt | hle⟩ := collect_cases (by rw [h]; nofun)
  · rw [collect_of_lt hne hlt] at h
    cases h
    exact ⟨List.length_pos_of_ne_nil hne, le_rfl⟩
  · rw [collect_of_le hneed hle] at h
    split at h
    · cases h
    · cases h
      exact ⟨hneed, hle⟩

theorem collect_take (h : collect need absorb full a = .take n s') (hn : n < a.length)
    (b : List β) : collect need absorb full (a ++ b) = .take n s' := by
  obtain ⟨hneed, hne, hlt | hle⟩ := collect_cases (by rw [h]; nofun)
  · rw [collect_of_lt hne hlt] at h
    cases h
    exact absurd hn (lt_irrefl _)
  · rw [collect_append_of_le hneed hle, h]

theorem collect_stop (h : collect need absorb full a = .stop s') (b : List β) :
    collect need absorb full (a ++ b) = .stop s' := by
  obtain ⟨hneed, hne, hlt | hle⟩ := collect_cases (by rw [h]; nofun)
  · rw [collect_of_lt hne hlt] at h
    cases h
  · rw [collect_append_of_le hneed hle, h]

theorem collect_invariant {I : σ → Prop} (habsorb : ∀ data, I (absorb data))
    (hfull : ∀ data, I (full data).1) :
    (∀ n s', collect need absorb full a = .take n s' → I s') ∧
      ∀ s', collect need absorb full a = .stop s' → I s' := by
  unfold collect
  split
  · exact ⟨nofun, nofun⟩
  · split
    · exact ⟨fun _ _ h => by cases h; exact habsorb a, nofun⟩
    · split
      · exact ⟨nofun, fun _ h => by cases h; exact hfull _⟩
      · exact ⟨fun _ _ h => by cases h; exact hfull _, nofun⟩

theorem collect_all {next : σ → List β → Turn σ}
    (hnext : ∀ data, next s data = collect need absorb full data)
    (hmore : ∀ a, a ≠ [] → a.length < need → ∀ data, next (absorb a) data =
      collect (need - a.length) (fun d => absorb (a ++ d)) (fun d => full (a ++ d)) data)
    (h : next s a = .take a.length s') (b : List β) :
    drain next s (a ++ b) = drain next s' b := by
  have hcollect := (hnext a).symm.trans h
  obtain ⟨hneed, hne, hlt | hle⟩ := collect_cases (by rw [hcollect]; nofun)
  · have hpos := List.length_pos_of_ne_nil hne
    have habsorb : s' = absorb a := by
      rw [collect_of_lt hne hlt] at hcollect
      cases hcollect
      rfl
    subst habsorb
    by_cases hb : b = []
    · rw [hb, List.append_nil, drain_take h ⟨hpos, le_rfl⟩, List.drop_length]
    · have hall : a ++ b ≠ [] := List.append_ne_nil_of_left_ne_nil hne b
      by_cases hlong : b.length < need - a.length
      · have hboth : (a ++ b).length < need := by
          rw [List.length_append]
          omega
        have hfirst : next s (a ++ b) = .take (a ++ b).length (absorb (a ++ b)) := by
          rw [hnext, collect_of_lt hall hboth]
        have hsecond : next (absorb a) b = .take b.length (absorb (a ++ b)) := by
          rw [hmore a hne hlt, collect_of_lt hb hlong]
        rw [drain_take hfirst ⟨List.length_pos_of_ne_nil hall, le_rfl⟩,
          drain_take hsecond ⟨List.length_pos_of_ne_nil hb, le_rfl⟩, List.drop_length,
          List.drop_length]
      · have hboth : need ≤ (a ++ b).length := by
          rw [List.length_append]
          omega
        have hrest : 0 < need - a.length := by omega
        have htake : (a ++ b).take need = a ++ b.take (need - a.length) := by
          rw [List.take_append, List.take_of_length_le (Nat.le_of_lt hlt)]
        have hfirst := hnext (a ++ b)
        have hsecond := hmore a hne hlt b
        rw [collect_of_le hneed hboth, htake] at hfirst
        rw [collect_of_le hrest (not_lt.mp hlong)] at hsecond
        cases hend : (full (a ++ b.take (need - a.length))).2 with
        | true =>
          rw [hend, if_pos rfl] at hfirst hsecond
          rw [drain_stop hfirst, drain_stop hsecond]
        | false =>
          rw [hend, if_neg Bool.false_ne_true] at hfirst hsecond
          rw [drain_take hfirst ⟨hneed, hboth⟩, drain_take hsecond ⟨hrest, not_lt.mp hlong⟩,
            List.drop_append, List.drop_of_length_le (Nat.le_of_lt hlt), List.nil_append]
  · have hboth : next s (a ++ b) = .take a.length s' := by
      rw [hnext, collect_append_of_le hneed hle, ← hnext, h]
    have hbound : 0 < a.length ∧ a.length ≤ (a ++ b).length := by
      rw [List.length_append]
      omega
    rw [drain_take hboth hbound, List.drop_left]

end Collect

end Feeding
