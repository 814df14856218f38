import Comlink.CText

/-! Character arrays of a fixed size. A write outside the array has no result,
so an operation has one exactly when it stays inside. -/

namespace CText

structure Buffer (n : Nat) where
  bytes : List Byte
  size : bytes.length = n
  deriving DecidableEq

namespace Buffer

variable {n : Nat}

def zero (n : Nat) : Buffer n := ⟨List.replicate n 0, List.length_replicate⟩

def write (b : Buffer n) (i : Nat) (c : Byte) : Option (Buffer n) :=
  if i < n then some ⟨b.bytes.set i c, by rw [List.length_set, b.size]⟩ else none

def store : Buffer n → Nat → List Byte → Option (Buffer n)
  | b, _, [] => some b
  | b, i, c :: t => (b.write i c).bind (fun b' => b'.store (i + 1) t)

def text (b : Buffer n) : List Byte := cstr b.bytes

def memcpy (b : Buffer n) (src : List Byte) (k : Nat) : Option (Buffer n) := b.store 0 (src.take k)

/-- `sprintf` with a conversion that prints `t`. -/
def sprintf (b : Buffer n) (t : List Byte) : Option (Buffer n) := b.store 0 (cstr t ++ [0])

def strcat (b : Buffer n) (src : List Byte) : Option (Buffer n) :=
  b.store b.text.length (cstr src ++ [0])

theorem write_of_lt (b : Buffer n) {i : Nat} (h : i < n) (c : Byte) :
    ∃ b', b.write i c = some b' ∧ b'.bytes = b.bytes.set i c := by
  rw [write, if_pos h]
  exact ⟨_, rfl, rfl⟩

theorem write_of_le (b : Buffer n) {i : Nat} (h : n ≤ i) (c : Byte) : b.write i c = none := by
  rw [write, if_neg (by omega)]

theorem set_eq_of_lt {l : List Byte} {i : Nat} (h : i < l.length) (c : Byte) :
    (l.set i c).take (i + 1) = l.take i ++ [c] ∧ (l.set i c).drop (i + 1) = l.drop (i + 1) := by
  constructor
  · rw [List.take_succ_eq_append_getElem (by simpa using h), List.take_set_of_le (le_refl i),
      List.getElem_set_self]
  · exact List.drop_set_of_lt (Nat.lt_succ_self i)

theorem store_of_le (b : Buffer n) {i : Nat} {t : List Byte} (h : i + t.length ≤ n) :
    ∃ b', b.store i t = some b' ∧
      b'.bytes = b.bytes.take i ++ t ++ b.bytes.drop (i + t.length) := by
  induction t generalizing b i with
  | nil => exact ⟨b, rfl, by simp⟩
  | cons c t ih =>
    rw [List.length_cons] at h
    obtain ⟨b₁, hw, hb₁⟩ := b.write_of_lt (show i < n by omega) c
    obtain ⟨b₂, hs, hb₂⟩ := ih b₁ (show i + 1 + t.length ≤ n by omega)
    obtain ⟨htake, hdrop⟩ := set_eq_of_lt (show i < b.bytes.length by rw [b.size]; omega) c
    refine ⟨b₂, by rw [store, hw, Option.bind_some, hs], ?_⟩
    rw [hb₂, hb₁, htake, ← List.drop_drop, hdrop, List.drop_drop]
    simp [Nat.add_comm, Nat.add_left_comm]

theorem store_of_lt (b : Buffer n) {i : Nat} {t : List Byte} (ht : t ≠ []) (h : n < i + t.length) :
    b.store i t = none := by
  induction t generalizing b i with
  | nil => exact absurd rfl ht
  | cons c t ih =>
    rw [List.length_cons] at h
    by_cases hi : i < n
    · obtain ⟨b₁, hw, -⟩ := b.write_of_lt hi c
      have hne : t ≠ [] := by
        rintro rfl
        rw [List.length_nil] at h
        omega
      rw [store, hw, Option.bind_some, ih b₁ hne (by omega)]
    · rw [store, b.write_of_le (by omega), Option.bind_none]

theorem text_of_bytes {b : Buffer n} {s r : List Byte} (hs : 0 ∉ s)
    (h : b.bytes = s ++ [0] ++ r) : b.text = s := by
  rw [text, h, List.append_assoc]
  exact cstr_terminated hs r

/-- The text fits with its terminator and is there, or it does not fit and
there is no result. -/
def Holds (r : Option (Buffer n)) (t : List Byte) : Prop :=
  (t.length < n → ∃ b, r = some b ∧ b.text = t) ∧ (n ≤ t.length → r = none)

theorem Holds.isSome_iff {r : Option (Buffer n)} {t : List Byte} (h : Holds r t) :
    r.isSome ↔ t.length < n := by
  by_cases ht : t.length < n
  · obtain ⟨b, rfl, -⟩ := h.1 ht
    simp [ht]
  · rw [h.2 (by omega)]
    simp [ht]

theorem holds_sprintf (b : Buffer n) (t : List Byte) : Holds (b.sprintf t) (cstr t) := by
  have hz := zero_notMem_cstr t
  constructor
  · intro h
    obtain ⟨b', hs, hb'⟩ := b.store_of_le (i := 0) (t := cstr t ++ [0]) (by simp; omega)
    rw [List.take_zero, List.nil_append] at hb'
    exact ⟨b', hs, text_of_bytes hz hb'⟩
  · intro h
    exact b.store_of_lt (by simp) (by simp; omega)

theorem store_concat (b : Buffer n) (i : Nat) (t : List Byte) (c : Byte) :
    b.store i (t ++ [c]) = (b.store i t).bind (fun b' => b'.write (i + t.length) c) := by
  induction t generalizing b i with
  | nil => simp [store]
  | cons a t ih =>
    simp only [List.cons_append, store, ih, Option.bind_assoc, List.length_cons]
    simp only [Nat.add_assoc, Nat.add_comm 1]

theorem holds_terminated (b : Buffer n) {t : List Byte} (hz : 0 ∉ t) :
    Holds ((b.store 0 t).bind (fun b' => b'.write t.length 0)) t := by
  have h := b.holds_sprintf t
  rwa [sprintf, cstr_eq_self hz, store_concat, Nat.zero_add] at h

theorem take_length_text (b : Buffer n) : b.bytes.take b.text.length = b.text := by
  have hmem : b.text ++ b.bytes.dropWhile (· != 0) = b.bytes := List.takeWhile_append_dropWhile
  have htake : (b.text ++ b.bytes.dropWhile (· != 0)).take b.text.length = b.text := List.take_left
  rwa [hmem] at htake

theorem holds_strcat (b : Buffer n) (src : List Byte) :
    Holds (b.strcat src) (b.text ++ cstr src) := by
  have hz : 0 ∉ b.text ++ cstr src := by
    rw [List.mem_append, not_or]
    exact ⟨zero_notMem_cstr b.bytes, zero_notMem_cstr src⟩
  constructor
  · intro h
    rw [List.length_append] at h
    obtain ⟨b', hs, hb'⟩ := b.store_of_le (i := b.text.length) (t := cstr src ++ [0])
      (by simp; omega)
    rw [take_length_text, ← List.append_assoc] at hb'
    exact ⟨b', hs, text_of_bytes hz hb'⟩
  · intro h
    rw [List.length_append] at h
    exact b.store_of_lt (by simp) (by simp; omega)

/-- A chain of `strcat` calls stays inside the array exactly when the text at
the end does. -/
theorem holds_strcat_chain (b : Buffer n) (hb : b.text.length < n) (pieces : List (List Byte)) :
    Holds (pieces.foldlM strcat b) (b.text ++ (pieces.map cstr).flatten) := by
  induction pieces generalizing b with
  | nil =>
    rw [List.map_nil, List.flatten_nil, List.append_nil]
    exact ⟨fun _ => ⟨b, rfl, rfl⟩, fun h => absurd hb (by omega)⟩
  | cons src pieces ih =>
    rw [List.foldlM_cons, List.map_cons, List.flatten_cons, ← List.append_assoc]
    by_cases hfit : (b.text ++ cstr src).length < n
    · obtain ⟨b', hs, ht⟩ := (b.holds_strcat src).1 hfit
      rw [hs, ← ht]
      exact ih b' (by rw [ht]; exact hfit)
    · rw [(b.holds_strcat src).2 (by omega)]
      refine ⟨fun h => ?_, fun _ => rfl⟩
      rw [List.length_append] at h
      omega

theorem text_zero (n : Nat) : (zero n).text = [] := by
  cases n with
  | zero => rfl
  | succ n => exact cstr_zero_cons _

theorem holds_zero_chain (hn : 0 < n) (pieces : List (List Byte)) :
    Holds (pieces.foldlM strcat (zero n)) (pieces.map cstr).flatten := by
  have h := (zero n).holds_strcat_chain (by rw [text_zero]; exact hn) pieces
  rwa [text_zero, List.nil_append] at h

end Buffer

end CText
