import Comlink.StepSystem

/-! A key-value store written by processes that run in the background. Each
one holds a key and a value and takes effect at any later moment, in any order. -/

namespace AsyncStore

open StepSystem

variable {κ ν : Type*} [DecidableEq κ]

/-- The store, the writers still in flight, and all writers in launch order. -/
structure State (κ ν : Type*) where
  store : κ → Option ν
  inFlight : List (κ × ν)
  launched : List (κ × ν)

def State.init : State κ ν := ⟨fun _ => none, [], []⟩

def State.launch (σ : State κ ν) (w : κ × ν) : State κ ν :=
  { σ with inFlight := σ.inFlight ++ [w], launched := σ.launched ++ [w] }

def State.settle (σ : State κ ν) (i : Nat) : Option (State κ ν) :=
  σ.inFlight[i]?.map (fun w =>
    { σ with
      store := Function.update σ.store w.1 (some w.2)
      inFlight := σ.inFlight.eraseIdx i })

def State.newest (σ : State κ ν) (k : κ) : Option ν :=
  (σ.launched.filter (fun w => w.1 = k)).getLast?.map Prod.snd

/-- Every writer in flight carries the newest value of its key, and a key that
nobody writes holds its newest value. -/
structure State.Fresh (σ : State κ ν) : Prop where
  inFlight : ∀ w ∈ σ.inFlight, σ.newest w.1 = some w.2
  settled : ∀ k, (∀ w ∈ σ.inFlight, w.1 ≠ k) → σ.store k = σ.newest k

theorem newest_launch (σ : State κ ν) (w : κ × ν) (k : κ) :
    (σ.launch w).newest k = if w.1 = k then some w.2 else σ.newest k := by
  by_cases hk : w.1 = k <;> simp [State.newest, State.launch, List.filter_append, hk]

theorem fresh_init : (State.init : State κ ν).Fresh :=
  ⟨by simp [State.init], by simp [State.init, State.newest]⟩

theorem State.Fresh.launch {σ : State κ ν} (h : σ.Fresh) {w : κ × ν}
    (hw : ∀ u ∈ σ.inFlight, u.1 = w.1 → u.2 = w.2) : (σ.launch w).Fresh := by
  constructor
  · intro u hu
    rw [newest_launch]
    rcases List.mem_append.mp hu with hu | hu
    · by_cases hk : w.1 = u.1
      · rw [if_pos hk, hw u hu hk.symm]
      · rw [if_neg hk]
        exact h.inFlight u hu
    · rw [List.mem_singleton.mp hu, if_pos rfl]
  · intro k hk
    have hne : w.1 ≠ k := hk w (List.mem_append_right _ (List.mem_singleton_self w))
    rw [newest_launch, if_neg hne]
    exact h.settled k (fun u hu => hk u (List.mem_append_left _ hu))

theorem settle_eq_some {σ τ : State κ ν} {i : Nat} (h : σ.settle i = some τ) :
    ∃ w, σ.inFlight[i]? = some w ∧ τ = { σ with
      store := Function.update σ.store w.1 (some w.2)
      inFlight := σ.inFlight.eraseIdx i } := by
  obtain ⟨w, hw, rfl⟩ := Option.map_eq_some_iff.mp h
  exact ⟨w, hw, rfl⟩

theorem State.Fresh.settle {σ τ : State κ ν} (h : σ.Fresh) {i : Nat} (hs : σ.settle i = some τ) :
    τ.Fresh := by
  obtain ⟨w, hw, rfl⟩ := settle_eq_some hs
  constructor
  · intro u hu
    exact h.inFlight u (List.mem_of_mem_eraseIdx hu)
  · intro k hk
    change Function.update σ.store w.1 (some w.2) k = σ.newest k
    by_cases he : k = w.1
    · rw [he, Function.update_self]
      exact (h.inFlight w (List.mem_of_getElem? hw)).symm
    · rw [Function.update_of_ne he]
      refine h.settled k (fun u hu hu' => ?_)
      -- a writer of `k` in flight before is not the one that settled
      obtain ⟨j, hj⟩ := List.mem_iff_getElem?.mp hu
      have hji : j ≠ i := by
        rintro rfl
        exact he (by rw [← hu', Option.some.inj (hj.symm.trans hw)])
      exact hk u (List.mem_eraseIdx_iff_getElem?.mpr ⟨j, hji, hj⟩) hu'

theorem State.Fresh.store_eq {σ : State κ ν} (h : σ.Fresh) (hdone : σ.inFlight = []) (k : κ) :
    σ.store k = σ.newest k :=
  h.settled k (by simp [hdone])

/-- Any writer in flight may be the last one to take effect. -/
theorem exists_settled_last {σ : State κ ν} {w : κ × ν} (hw : w ∈ σ.inFlight) :
    ∃ is τ, run State.settle σ is = some τ ∧ τ.inFlight = [] ∧ τ.store w.1 = some w.2 ∧
      τ.launched = σ.launched := by
  obtain ⟨n, hn⟩ : ∃ n, σ.inFlight.length = n := ⟨_, rfl⟩
  induction n generalizing σ with
  | zero => simp [List.length_eq_zero_iff.mp hn] at hw
  | succ n ih =>
    obtain ⟨i, hi⟩ := List.mem_iff_getElem?.mp hw
    by_cases hz : n = 0
    · -- it is the only one
      obtain ⟨u, hu⟩ := List.length_eq_one_iff.mp (hn.trans (by omega))
      obtain rfl : w = u := by simpa [hu] using hw
      refine ⟨[0], { σ with store := Function.update σ.store w.1 (some w.2), inFlight := [] },
        ?_, rfl, Function.update_self _ _ _, rfl⟩
      simp [run, State.settle, hu]
    · -- settle another one first
      obtain ⟨j, hj, hji⟩ : ∃ j, j < σ.inFlight.length ∧ j ≠ i := by
        by_cases h0 : i = 0
        · exact ⟨1, by omega, by omega⟩
        · exact ⟨0, by omega, by omega⟩
      obtain ⟨u, hu⟩ : ∃ u, σ.inFlight[j]? = some u := ⟨_, List.getElem?_eq_getElem hj⟩
      have hmem : w ∈ σ.inFlight.eraseIdx j :=
        List.mem_eraseIdx_iff_getElem?.mpr ⟨i, hji.symm, hi⟩
      obtain ⟨is, τ, hr, hdone, hstore, hl⟩ := ih (σ := { σ with
        store := Function.update σ.store u.1 (some u.2)
        inFlight := σ.inFlight.eraseIdx j }) hmem (by
          dsimp only
          rw [List.length_eraseIdx_of_lt hj, hn]
          rfl)
      refine ⟨j :: is, τ, ?_, hdone, hstore, hl⟩
      exact run_cons.mpr ⟨_, by simp [State.settle, hu], hr⟩

end AsyncStore
