import Mathlib.Tactic

/-! Deterministic event systems: runs over a list of events, conditions on the
steps of a run, and the induction over a run. -/

namespace StepSystem

variable {σ ε : Type*} (step : σ → ε → Option σ)

def run : σ → List ε → Option σ
  | s, [] => some s
  | s, e :: es => (step s e).bind (fun t => run t es)

/-- Every step of the run meets `G` in the state before it. -/
def AllSteps (G : σ → ε → Prop) : σ → List ε → Prop
  | _, [] => True
  | s, e :: es => G s e ∧ ∀ t, step s e = some t → AllSteps G t es

instance decidableAllSteps (G : σ → ε → Prop) [∀ s e, Decidable (G s e)] :
    (s : σ) → (es : List ε) → Decidable (AllSteps step G s es)
  | _, [] => inferInstanceAs (Decidable True)
  | s, e :: es =>
    have : ∀ t, Decidable (AllSteps step G t es) := fun t => decidableAllSteps G t es
    match h : step s e with
    | none => decidable_of_iff (G s e) (by simp [AllSteps, h])
    | some t => decidable_of_iff (G s e ∧ AllSteps step G t es) (by simp [AllSteps, h])

variable {step}

theorem run_cons {s t : σ} {e : ε} {es : List ε} :
    run step s (e :: es) = some t ↔ ∃ u, step s e = some u ∧ run step u es = some t := by
  rw [run, Option.bind_eq_some_iff]

theorem run_append {s t : σ} {es fs : List ε} :
    run step s (es ++ fs) = some t ↔ ∃ u, run step s es = some u ∧ run step u fs = some t := by
  induction es generalizing s with
  | nil => simp [run]
  | cons e es ih =>
    rw [List.cons_append, run_cons]
    constructor
    · rintro ⟨u, hu, hr⟩
      obtain ⟨v, hv, hr⟩ := ih.mp hr
      exact ⟨v, run_cons.mpr ⟨u, hu, hv⟩, hr⟩
    · rintro ⟨v, hv, hr⟩
      obtain ⟨u, hu, hv⟩ := run_cons.mp hv
      exact ⟨u, hu, ih.mpr ⟨v, hv, hr⟩⟩

/-- Induction over a run. The property may speak of the events still to come. -/
theorem run_induction {P : σ → List ε → Prop}
    (hstep : ∀ s e es t, P s (e :: es) → step s e = some t → P t es)
    {s t : σ} {es : List ε} (h : P s es) (hr : run step s es = some t) : P t [] := by
  induction es generalizing s with
  | nil =>
    obtain rfl : s = t := by simpa [run] using hr
    exact h
  | cons e es ih =>
    obtain ⟨u, hu, hr⟩ := run_cons.mp hr
    exact ih (hstep s e es u h hu) hr

theorem run_invariant {G : σ → ε → Prop} {I : σ → Prop}
    (hstep : ∀ s e t, I s → G s e → step s e = some t → I t)
    {s t : σ} {es : List ε} (hs : I s) (hg : AllSteps step G s es)
    (hr : run step s es = some t) : I t := by
  refine (run_induction (P := fun s es => I s ∧ AllSteps step G s es) ?_ ⟨hs, hg⟩ hr).1
  rintro s e es u ⟨hi, he, hes⟩ hu
  exact ⟨hstep s e u hi he hu, hes u hu⟩

/-- Two conditions on the steps of a run agree if they agree in the states of an
invariant that the steps under one of them keep. -/
theorem allSteps_congr {G H : σ → ε → Prop} {I : σ → Prop}
    (hiff : ∀ s e, I s → (G s e ↔ H s e))
    (hstep : ∀ s e t, I s → H s e → step s e = some t → I t)
    {s : σ} {es : List ε} (hs : I s) : AllSteps step G s es ↔ AllSteps step H s es := by
  induction es generalizing s with
  | nil => exact Iff.rfl
  | cons e es ih =>
    constructor
    · rintro ⟨hg, hrest⟩
      have hh := (hiff s e hs).mp hg
      exact ⟨hh, fun t ht => (ih (hstep s e t hs hh ht)).mp (hrest t ht)⟩
    · rintro ⟨hh, hrest⟩
      exact ⟨(hiff s e hs).mpr hh, fun t ht => (ih (hstep s e t hs hh ht)).mpr (hrest t ht)⟩

/-- Over events that meet `A`: if the first step that misses `G` leads to states
that stay bad, the good states at the end are those of the runs that meet `G`. -/
theorem run_dichotomy {A : ε → Prop} {G : σ → ε → Prop} {I B : σ → Prop}
    (hgood : ∀ s e t, A e → I s → G s e → step s e = some t → I t)
    (hbad : ∀ s e t, A e → I s → ¬ G s e → step s e = some t → B t)
    (hstay : ∀ s e t, B s → step s e = some t → B t)
    {s t : σ} {es : List ε} (ha : ∀ e ∈ es, A e) (hs : I s) (hr : run step s es = some t) :
    (AllSteps step G s es ∧ I t) ∨ (¬ AllSteps step G s es ∧ B t) := by
  induction es generalizing s with
  | nil =>
    obtain rfl : s = t := by simpa [run] using hr
    exact Or.inl ⟨trivial, hs⟩
  | cons e es ih =>
    obtain ⟨u, hu, hr⟩ := run_cons.mp hr
    have he : A e := ha e List.mem_cons_self
    by_cases hg : G s e
    · rcases ih (fun f hf => ha f (List.mem_cons_of_mem e hf)) (hgood s e u he hs hg hu) hr
        with ⟨hall, ht⟩ | ⟨hnot, ht⟩
      · refine Or.inl ⟨⟨hg, fun v hv => ?_⟩, ht⟩
        rwa [← Option.some.inj (hu.symm.trans hv)]
      · exact Or.inr ⟨fun hall => hnot (hall.2 u hu), ht⟩
    · refine Or.inr ⟨fun hall => hg hall.1, ?_⟩
      exact run_induction (P := fun s _ => B s) (fun s e _ t hb ht => hstay s e t hb ht)
        (hbad s e u he hs hg hu) hr

end StepSystem
