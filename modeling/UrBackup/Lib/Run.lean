import Mathlib.Data.List.Induction
import Mathlib.Data.Option.Basic

/-! Runs of a partial, deterministic, event-labelled transition function. Threads,
environments and schedulers enter as events, so a statement about every list of
events is a statement about every interleaving. -/
namespace TransitionSystem

variable {σ ε : Type*} (step : σ → ε → Option σ)

def run : σ → List ε → Option σ
  | s, [] => some s
  | s, e :: es => (step s e).bind fun s' => run s' es

/-- Every event of a run is taken in a state that meets the condition. -/
def Guarded (ok : σ → ε → Prop) : σ → List ε → Prop
  | _, [] => True
  | s, e :: es => ok s e ∧ ∀ s', step s e = some s' → Guarded ok s' es

/-- Some event of a run was taken in a state of which something holds. -/
def Happened (s₀ : σ) (es : List ε) (P : σ → ε → Prop) : Prop :=
  ∃ before e after s, es = before ++ e :: after ∧ run step s₀ before = some s ∧ P s e

variable {step}

@[simp] theorem run_nil (s : σ) : run step s [] = some s := rfl

theorem run_cons {s t : σ} {e : ε} {es : List ε} (h : run step s (e :: es) = some t) :
    ∃ s', step s e = some s' ∧ run step s' es = some t := Option.bind_eq_some_iff.mp h

theorem run_append (s : σ) (es es' : List ε) :
    run step s (es ++ es') = (run step s es).bind fun t => run step t es' := by
  induction es generalizing s with
  | nil => rfl
  | cons e es ih =>
    rw [List.cons_append, run, run, Option.bind_assoc]
    congr 1
    funext s'
    exact ih s'

theorem run_single {s t : σ} {e : ε} (h : step s e = some t) : run step s [e] = some t := by
  rw [run, h, Option.bind_some, run_nil]

theorem run_trans {s t u : σ} {es es' : List ε} (h : run step s es = some t)
    (h' : run step t es' = some u) : run step s (es ++ es') = some u := by
  rw [run_append, h, Option.bind_some, h']

theorem guarded_cons {ok : σ → ε → Prop} {s s' : σ} {e : ε} {es : List ε}
    (hstep : step s e = some s') (h : ok s e) (hrest : Guarded step ok s' es) :
    Guarded step ok s (e :: es) := by
  refine ⟨h, ?_⟩
  intro s'' hs
  rw [hstep] at hs
  cases hs
  exact hrest

/-- Whether a run meets a condition can be found out by running it. -/
instance decidableGuarded (ok : σ → ε → Prop) [∀ s e, Decidable (ok s e)] (s : σ) (es : List ε) :
    Decidable (Guarded step ok s es) :=
  match es with
  | [] => .isTrue trivial
  | e :: es =>
    match h : step s e with
    | none => decidable_of_iff (ok s e) ⟨fun hok => ⟨hok, by simp [h]⟩, And.left⟩
    | some s' =>
      have := decidableGuarded ok s' es
      decidable_of_iff (ok s e ∧ Guarded step ok s' es)
        ⟨fun hok => guarded_cons h hok.1 hok.2, fun hok => ⟨hok.1, hok.2 s' h⟩⟩

theorem run_invariant {I : σ → Prop} (hstep : ∀ s e s', I s → step s e = some s' → I s')
    {s t : σ} {es : List ε} (hs : I s) (h : run step s es = some t) : I t := by
  induction es generalizing s with
  | nil => cases h; exact hs
  | cons e es ih =>
    obtain ⟨s', hfirst, hrest⟩ := run_cons h
    exact ih (hstep s e s' hs hfirst) hrest

theorem guarded_run_invariant {I : σ → Prop} {ok : σ → ε → Prop}
    (hstep : ∀ s e s', I s → ok s e → step s e = some s' → I s')
    {s t : σ} {es : List ε} (hs : I s) (hok : Guarded step ok s es)
    (h : run step s es = some t) : I t := by
  induction es generalizing s with
  | nil => cases h; exact hs
  | cons e es ih =>
    obtain ⟨s', hfirst, hrest⟩ := run_cons h
    exact ih (hstep s e s' hs hok.1 hfirst) (hok.2 s' hfirst) hrest

theorem guarded_congr {I : σ → Prop} {ok ok' : σ → ε → Prop}
    (hstep : ∀ s e s', I s → step s e = some s' → I s') (hiff : ∀ s e, I s → (ok s e ↔ ok' s e))
    {s : σ} {es : List ε} (hs : I s) : Guarded step ok s es ↔ Guarded step ok' s es := by
  induction es generalizing s with
  | nil => exact Iff.rfl
  | cons e es ih =>
    apply and_congr (hiff s e hs)
    apply forall_congr'
    intro s'
    apply imp_congr_right
    intro h
    exact ih (hstep s e s' hs h)

/-- Where each step keeps what holds exactly under a condition, it holds at all times of the runs
whose steps all meet the condition. -/
theorem guarded_iff_always {I J : σ → Prop} {ok : σ → ε → Prop}
    (hstep : ∀ s e s', I s → J s → step s e = some s' → I s' ∧ (J s' ↔ ok s e))
    {s t : σ} {es : List ε} (hI : I s) (hJ : J s) (h : run step s es = some t) :
    (∀ before after s', es = before ++ after → run step s before = some s' → J s') ↔
      Guarded step ok s es := by
  induction es generalizing s with
  | nil =>
    refine ⟨fun _ => trivial, ?_⟩
    rintro - before after s' hes hrun
    rw [(List.append_eq_nil_iff.mp hes.symm).1] at hrun
    cases hrun
    exact hJ
  | cons e es ih =>
    obtain ⟨s₁, hfirst, hrest⟩ := run_cons h
    obtain ⟨hI₁, hiff⟩ := hstep s e s₁ hI hJ hfirst
    constructor
    · intro hall
      have hJ₁ := hall [e] es s₁ rfl (run_single hfirst)
      refine guarded_cons hfirst (hiff.mp hJ₁) ((ih hI₁ hJ₁ hrest).mp ?_)
      intro before after s' hes hrun
      refine hall (e :: before) after s' (by rw [hes]; rfl) ?_
      rw [run, hfirst]
      exact hrun
    · rintro ⟨hok, hguard⟩ before after s' hes hrun
      cases before with
      | nil =>
        cases hrun
        exact hJ
      | cons e' before =>
        obtain ⟨rfl, hes'⟩ := List.cons.inj hes
        obtain ⟨s₂, hfirst', hrun⟩ := run_cons hrun
        obtain rfl : s₁ = s₂ := Option.some.inj (hfirst.symm.trans hfirst')
        exact (ih hI₁ (hiff.mpr hok) hrest).mpr (hguard s₁ hfirst) before after s' hes' hrun

theorem Happened.append {s₀ : σ} {es : List ε} {P : σ → ε → Prop} (h : Happened step s₀ es P)
    (es' : List ε) : Happened step s₀ (es ++ es') P := by
  obtain ⟨before, e, after, s, rfl, hrun, hP⟩ := h
  exact ⟨before, e, after ++ es', s, by simp, hrun, hP⟩

theorem Happened.last {s₀ s : σ} {es : List ε} {e : ε} {P : σ → ε → Prop}
    (h : run step s₀ es = some s) (hP : P s e) : Happened step s₀ (es ++ [e]) P :=
  ⟨es, e, [], s, rfl, h, hP⟩

/-- The rule for what holds of a state and of how it came about. Induction from the last event. -/
theorem run_history {I : List ε → σ → Prop} {s₀ t : σ} {es : List ε} (hs : I [] s₀)
    (hstep : ∀ es s e s', run step s₀ es = some s → I es s → step s e = some s' → I (es ++ [e]) s')
    (h : run step s₀ es = some t) : I es t := by
  induction es using List.reverseRecOn generalizing t with
  | nil =>
    cases h
    exact hs
  | append_singleton es e ih =>
    rw [run_append] at h
    obtain ⟨s, hfirst, hlast⟩ := Option.bind_eq_some_iff.mp h
    obtain ⟨s', hone, hnil⟩ := run_cons hlast
    cases hnil
    exact hstep es s e t hfirst (ih hfirst) hone

end TransitionSystem
