import Comlink.CText

/-! The fields of a text between its delimiters, and those that are not empty. -/

namespace Comlink

open CText

def nonEmptyFields (delim : Byte) (s : List Byte) : List (List Byte) :=
  (s.splitOn delim).filter (· ≠ [])

section Fields

variable {delim : Byte}

theorem nonEmptyFields_delim_cons (s : List Byte) :
    nonEmptyFields delim (delim :: s) = nonEmptyFields delim s := by
  simp [nonEmptyFields, List.splitOn, List.splitOnP_cons_eq_if_modifyHead]

theorem nonEmptyFields_skip {skipped : List Byte} (h : ∀ c ∈ skipped, c = delim) (s : List Byte) :
    nonEmptyFields delim (skipped ++ s) = nonEmptyFields delim s := by
  induction skipped with
  | nil => rfl
  | cons c skipped ih =>
    rw [h c (by simp), List.cons_append, nonEmptyFields_delim_cons,
      ih (fun x hx => h x (by simp [hx]))]

theorem splitOn_of_notMem {s : List Byte} (h : delim ∉ s) : s.splitOn delim = [s] := by
  apply List.splitOnP_eq_singleton
  intro c hc
  simpa using fun he : c = delim => h (he ▸ hc)

theorem splitOn_append_cons {s : List Byte} (h : delim ∉ s) (t : List Byte) :
    (s ++ delim :: t).splitOn delim = s :: t.splitOn delim := by
  apply List.splitOnP_append_cons_of_forall_mem
  · intro c hc
    simpa using fun he : c = delim => h (he ▸ hc)
  · simp

theorem nonEmptyFields_of_notMem {s : List Byte} (h : delim ∉ s) (hs : s ≠ []) :
    nonEmptyFields delim s = [s] := by
  simp [nonEmptyFields, splitOn_of_notMem h, hs]

theorem nonEmptyFields_append_cons {s : List Byte} (h : delim ∉ s) (hs : s ≠ []) (t : List Byte) :
    nonEmptyFields delim (s ++ delim :: t) = s :: nonEmptyFields delim t := by
  simp [nonEmptyFields, splitOn_append_cons h, hs]

theorem splitOn_append_cons_eq (u t : List Byte) :
    (u ++ delim :: t).splitOn delim = u.splitOn delim ++ t.splitOn delim :=
  List.splitOnP_append_cons u t (by simp)

theorem splitOn_append_last {t : List Byte} (h : delim ∉ t) (u : List Byte) :
    (u ++ delim :: t).splitOn delim = u.splitOn delim ++ [t] := by
  rw [splitOn_append_cons_eq, splitOn_of_notMem h]

theorem length_splitOn (s : List Byte) : (s.splitOn delim).length = s.count delim + 1 := by
  induction s with
  | nil => rfl
  | cons c s ih =>
    simp only [List.splitOn] at ih
    by_cases hc : c = delim
    · simp [List.splitOn, List.splitOnP_cons_eq_if_modifyHead, hc, ih]
    · simp [List.splitOn, List.splitOnP_cons_eq_if_modifyHead, hc, ih]

theorem subset_of_mem_splitOn {s f : List Byte} (h : f ∈ s.splitOn delim) : f ⊆ s := by
  induction s generalizing f with
  | nil => simp_all [List.splitOn]
  | cons c s ih =>
    rw [List.splitOn, List.splitOnP_cons_eq_if_modifyHead] at h
    obtain ⟨first, others, he⟩ := List.exists_cons_of_ne_nil (List.splitOnP_ne_nil (· == delim) s)
    have hs : ∀ g ∈ first :: others, g ⊆ s := fun g hg => ih (by rw [List.splitOn, he]; exact hg)
    split_ifs at h with hc
    · rcases List.mem_cons.mp h with rfl | h
      · simp
      · exact fun x hx => List.mem_cons_of_mem _ (ih h hx)
    · rw [he, List.modifyHead_cons] at h
      rcases List.mem_cons.mp h with rfl | h
      · exact List.cons_subset_cons _ (hs first (by simp))
      · exact fun x hx => List.mem_cons_of_mem _ (hs f (by simp [h]) hx)

/-- No field is empty, except possibly the last one. -/
def FieldsFilled (delim : Byte) (s : List Byte) : Prop :=
  s ≠ [] ∧ ∀ f ∈ (s.splitOn delim).dropLast, f ≠ []

instance (s : List Byte) : Decidable (FieldsFilled delim s) := inferInstanceAs (Decidable (_ ∧ _))

theorem nonEmptyFields_append_last {t : List Byte} (h : delim ∉ t) (u : List Byte) :
    nonEmptyFields delim (u ++ delim :: t) =
      nonEmptyFields delim u ++ (if t = [] then [] else [t]) := by
  rw [nonEmptyFields, splitOn_append_last h, List.filter_append]
  by_cases ht : t = [] <;> simp [nonEmptyFields, ht]

theorem length_nonEmptyFields_le (delim : Byte) (u : List Byte) :
    (nonEmptyFields delim u).length ≤ u.count delim + 1 := by
  rw [← length_splitOn]
  exact List.length_filter_le _ _

theorem ne_nil_of_mem_nonEmptyFields {s f : List Byte}
    (h : f ∈ nonEmptyFields delim s) : f ≠ [] := by
  simpa using (List.mem_filter.mp h).2

/-- The maximal non-empty segments of a text without the delimiter, in order:
each begins at the start or behind a delimiter, and goes on to the next
delimiter or to the end. -/
inductive Segments (delim : Byte) : List Byte → List (List Byte) → Prop where
  | nil : Segments delim [] []
  | skip {s : List Byte} {ts : List (List Byte)} (h : Segments delim s ts) :
      Segments delim (delim :: s) ts
  | last {t : List Byte} (hne : t ≠ []) (ht : delim ∉ t) : Segments delim t [t]
  | cons {t s : List Byte} {ts : List (List Byte)} (hne : t ≠ []) (ht : delim ∉ t)
      (h : Segments delim s ts) : Segments delim (t ++ delim :: s) (t :: ts)

theorem Segments.eq_nonEmptyFields {s : List Byte} {ts : List (List Byte)}
    (h : Segments delim s ts) : ts = nonEmptyFields delim s := by
  induction h with
  | nil => rfl
  | skip h ih => rw [nonEmptyFields_delim_cons, ih]
  | last hne ht => rw [nonEmptyFields_of_notMem ht hne]
  | cons hne ht h ih => rw [nonEmptyFields_append_cons ht hne, ih]

theorem segments_nonEmptyFields (s : List Byte) : Segments delim s (nonEmptyFields delim s) := by
  -- The recursion is on the text behind the first delimiter.
  induction hn : s.length using Nat.strong_induction_on generalizing s with
  | _ n ih =>
    by_cases hm : delim ∈ s
    · obtain ⟨t, rest, rfl, ht⟩ := List.eq_append_cons_of_mem hm
      rw [List.length_append, List.length_cons] at hn
      have hrest := ih rest.length (by omega) rest rfl
      by_cases hne : t = []
      · subst hne
        rw [List.nil_append, nonEmptyFields_delim_cons]
        exact hrest.skip
      · rw [nonEmptyFields_append_cons ht hne]
        exact hrest.cons hne ht
    · by_cases hne : s = []
      · subst hne
        exact .nil
      · rw [nonEmptyFields_of_notMem hm hne]
        exact .last hne hm

theorem segments_iff {s : List Byte} {ts : List (List Byte)} :
    Segments delim s ts ↔ ts = nonEmptyFields delim s := by
  constructor
  · exact Segments.eq_nonEmptyFields
  · rintro rfl
    exact segments_nonEmptyFields s

end Fields

end Comlink
