import Mathlib.Data.List.Basic

/-! A stream in the pieces it comes in, each with a mark of its own. -/

namespace CutStream

variable {α β : Type}

def joined (cut : List (List α × β)) : List α := (cut.map Prod.fst).flatten

/-- What is left behind the first `n` items, without the pieces that are used up. -/
def behind : Nat → List (List α × β) → List (List α × β)
  | _, [] => []
  | n, (piece, mark) :: cut =>
    if n < piece.length then (piece.drop n, mark) :: cut else behind (n - piece.length) cut

/-- How many of the first `n` items are in the piece of the last of them. -/
def lastPart : Nat → List (List α × β) → Nat
  | _, [] => 0
  | n, (piece, _) :: cut => if n ≤ piece.length then n else lastPart (n - piece.length) cut

variable {n m : Nat} {piece : List α} {mark : β} {cut : List (List α × β)}

@[simp] theorem joined_nil : joined ([] : List (List α × β)) = [] := rfl

@[simp] theorem joined_cons (first : List α × β) (cut : List (List α × β)) :
    joined (first :: cut) = first.1 ++ joined cut := rfl

@[simp] theorem joined_append (front back : List (List α × β)) :
    joined (front ++ back) = joined front ++ joined back := by
  simp [joined]

theorem behind_of_lt (h : n < piece.length) :
    behind n ((piece, mark) :: cut) = (piece.drop n, mark) :: cut := if_pos h

theorem behind_of_le (h : piece.length ≤ n) :
    behind n ((piece, mark) :: cut) = behind (n - piece.length) cut := if_neg (by omega)

theorem lastPart_of_le (h : n ≤ piece.length) : lastPart n ((piece, mark) :: cut) = n := if_pos h

theorem lastPart_of_lt (h : piece.length < n) :
    lastPart n ((piece, mark) :: cut) = lastPart (n - piece.length) cut := if_neg (by omega)

@[simp] theorem behind_nil (n : Nat) : behind n ([] : List (List α × β)) = [] := by
  cases n <;> rfl

@[simp] theorem behind_cons_succ (n : Nat) (a : α) (piece : List α) (mark : β)
    (cut : List (List α × β)) :
    behind (n + 1) ((a :: piece, mark) :: cut) = behind n ((piece, mark) :: cut) := by
  by_cases h : n < piece.length
  · rw [behind_of_lt h, behind_of_lt (by rw [List.length_cons]; omega), List.drop_succ_cons]
  · have hle : piece.length ≤ n := by omega
    rw [behind_of_le hle, behind_of_le (Nat.succ_le_succ hle), List.length_cons,
      Nat.add_sub_add_right]

theorem behind_behind (n m : Nat) (cut : List (List α × β)) :
    behind n (behind m cut) = behind (m + n) cut := by
  induction cut generalizing m with
  | nil => simp
  | cons first cut ih =>
    obtain ⟨piece, mark⟩ := first
    by_cases h : m < piece.length
    · rw [behind_of_lt h]
      by_cases hn : m + n < piece.length
      · rw [behind_of_lt hn, behind_of_lt (by rw [List.length_drop]; omega), List.drop_drop]
      · have hle : piece.length ≤ m + n := by omega
        have hdrop : (piece.drop m).length ≤ n := by
          rw [List.length_drop]
          omega
        rw [behind_of_le hle, behind_of_le hdrop, List.length_drop]
        congr 1
        omega
    · rw [behind_of_le (by omega), behind_of_le (by omega), ih]
      congr 1
      omega

theorem joined_behind (n : Nat) (cut : List (List α × β)) :
    joined (behind n cut) = (joined cut).drop n := by
  induction cut generalizing n with
  | nil => simp
  | cons first cut ih =>
    obtain ⟨piece, mark⟩ := first
    by_cases h : n < piece.length
    · rw [behind_of_lt h, joined_cons, joined_cons, List.drop_append_of_le_length (Nat.le_of_lt h)]
    · have hle : piece.length ≤ n := by omega
      rw [behind_of_le hle, ih, joined_cons, List.drop_append, List.drop_eq_nil_of_le hle,
        List.nil_append]

/-- Pieces that are not used up begin with an item. -/
theorem behind_zero_cases (cut : List (List α × β)) :
    behind 0 cut = [] ∨ ∃ a piece mark rest, behind 0 cut = (a :: piece, mark) :: rest := by
  induction cut with
  | nil => exact .inl rfl
  | cons first cut ih =>
    obtain ⟨piece, mark⟩ := first
    cases piece with
    | nil => exact ih
    | cons a piece => exact .inr ⟨a, piece, mark, cut, rfl⟩

theorem behind_of_joined_le (h : (joined cut).length ≤ n) : behind n cut = [] := by
  have hnil : joined (behind n cut) = [] := by rw [joined_behind, List.drop_eq_nil_of_le h]
  rw [← Nat.add_zero n, ← behind_behind] at hnil ⊢
  rcases behind_zero_cases (behind n cut) with hzero | ⟨a, piece, mark, rest, hzero⟩
  · exact hzero
  · rw [hzero] at hnil
    simp at hnil

/-- The piece in which the first part of a stream ends. -/
theorem split_joined {a b : List α} (ha : a ≠ []) (h : joined cut = a ++ b) :
    ∃ front x y mark back, cut = front ++ (x ++ y, mark) :: back ∧
      joined front ++ x = a ∧ y ++ joined back = b := by
  induction cut generalizing a with
  | nil => simp_all
  | cons first cut ih =>
    obtain ⟨piece, mark⟩ := first
    rw [joined_cons] at h
    rcases List.append_eq_append_iff.mp h with ⟨a', rfl, hrest⟩ | ⟨y, rfl, rfl⟩
    · by_cases ha' : a' = []
      · subst ha'
        exact ⟨[], piece, [], mark, cut, by simp, by simp, by simpa using hrest⟩
      · obtain ⟨front, x, y, mark', back, rfl, rfl, rfl⟩ := ih ha' hrest
        exact ⟨(piece, mark) :: front, x, y, mark', back, rfl, by simp, rfl⟩
    · exact ⟨[], a, y, mark, cut, rfl, by simp, rfl⟩

end CutStream
