import Mathlib.Data.List.DropRight
import Mathlib.Data.Nat.Digits.Lemmas
import Mathlib.Tactic

/-! NUL-terminated byte strings and the decimal conversions of a C library,
with `int` a 32-bit and `long` a 64-bit two's complement integer. -/

namespace CText

abbrev Byte := UInt8

def lit (s : String) : List Byte := s.toList.map Char.toUInt8

/-- The C string at the head of a memory region. -/
def cstr (mem : List Byte) : List Byte := mem.takeWhile (· != 0)

@[simp] theorem cstr_nil : cstr [] = [] := rfl

theorem zero_notMem_cstr (mem : List Byte) : 0 ∉ cstr mem := by
  intro h
  simpa using List.mem_takeWhile_imp h

theorem cstr_append_of_notMem {s : List Byte} (h : 0 ∉ s) (t : List Byte) :
    cstr (s ++ t) = s ++ cstr t := by
  have hp : ∀ c ∈ s, (c != 0) = true := by
    intro c hc
    simpa using fun he : c = 0 => h (he ▸ hc)
  simp only [cstr, List.takeWhile_append_of_pos hp]

theorem cstr_append_of_mem {s : List Byte} (h : 0 ∈ s) (t : List Byte) :
    cstr (s ++ t) = cstr s := by
  induction s with
  | nil => simp at h
  | cons c s ih =>
    by_cases hc : c = 0
    · simp [cstr, hc]
    · have hs : 0 ∈ s := by simpa [eq_comm, hc] using h
      simpa [cstr, hc] using ih hs

@[simp] theorem cstr_zero_cons (t : List Byte) : cstr (0 :: t) = [] := by simp [cstr]

theorem cstr_eq_self {s : List Byte} (h : 0 ∉ s) : cstr s = s := by
  simpa using cstr_append_of_notMem h []

theorem cstr_terminated {s : List Byte} (h : 0 ∉ s) (t : List Byte) :
    cstr (s ++ 0 :: t) = s := by
  simpa using cstr_append_of_notMem h (0 :: t)

@[simp] theorem cstr_append_zero (s t : List Byte) : cstr (s ++ 0 :: t) = cstr s := by
  by_cases h : 0 ∈ s
  · exact cstr_append_of_mem h _
  · rw [cstr_terminated h, cstr_eq_self h]

theorem cstr_set {mem : List Byte} {i : Nat} {v : Byte} (hi : i < (cstr mem).length) (hv : v ≠ 0) :
    cstr (mem.set i v) = (cstr mem).set i v := by
  induction mem generalizing i with
  | nil => simp [cstr] at hi
  | cons c mem ih =>
    by_cases hc : c = 0
    · simp [hc] at hi
    · have hcons : cstr (c :: mem) = c :: cstr mem := by simp [cstr, hc]
      rw [hcons] at hi ⊢
      cases i with
      | zero => simp [cstr, hv]
      | succ i =>
        have hrec := ih (Nat.lt_of_succ_lt_succ hi)
        simp only [List.set_cons_succ, ← hrec]
        simp [cstr, hc]

theorem getElem?_of_lt_length_cstr {mem : List Byte} {i : Nat} (hi : i < (cstr mem).length) :
    mem[i]? = (cstr mem)[i]? := by
  have hmem : cstr mem ++ mem.dropWhile (· != 0) = mem := List.takeWhile_append_dropWhile
  have happend : (cstr mem ++ mem.dropWhile (· != 0))[i]? = (cstr mem)[i]? :=
    List.getElem?_append_left hi
  rwa [hmem] at happend

theorem eq_false_of_dropWhile {α : Type*} {p : α → Bool} {l r : List α} {c : α}
    (h : l.dropWhile p = c :: r) : p c = false := by
  have hh := List.head?_dropWhile_not p l
  rw [h] at hh
  exact hh

/-! The last occurrence of a delimiter. -/

def upToLast (x : Byte) (s : List Byte) : List Byte := s.rdropWhile (· != x)

def afterLast (x : Byte) (s : List Byte) : List Byte := s.rtakeWhile (· != x)

theorem upToLast_append_afterLast (x : Byte) (s : List Byte) :
    upToLast x s ++ afterLast x s = s := by
  simp [upToLast, afterLast, List.rdropWhile, List.rtakeWhile, ← List.reverse_append]

theorem upToLast_of_notMem {x : Byte} {s : List Byte} (h : x ∉ s) : upToLast x s = [] := by
  rw [upToLast, List.rdropWhile_eq_nil_iff]
  intro c hc
  simpa using fun he : c = x => h (he ▸ hc)

theorem afterLast_of_notMem {x : Byte} {s : List Byte} (h : x ∉ s) : afterLast x s = s := by
  simpa [upToLast_of_notMem h] using upToLast_append_afterLast x s

theorem upToLast_append_cons {x : Byte} {s t : List Byte} (h : x ∉ t) :
    upToLast x (s ++ x :: t) = s ++ [x] := by
  have hp : ∀ c ∈ t.reverse, (c != x) = true := by
    intro c hc
    simpa using fun he : c = x => h (he ▸ List.mem_reverse.mp hc)
  simp [upToLast, List.rdropWhile, List.dropWhile_append_of_pos hp]

theorem afterLast_append_cons {x : Byte} {s t : List Byte} (h : x ∉ t) :
    afterLast x (s ++ x :: t) = t := by
  have ha := upToLast_append_afterLast x (s ++ x :: t)
  rw [upToLast_append_cons h, List.append_assoc, List.append_cancel_left_eq] at ha
  simpa using ha

theorem exists_split_last {x : Byte} {s : List Byte} (h : x ∈ s) :
    ∃ u t, s = u ++ x :: t ∧ x ∉ t := by
  obtain ⟨t, u, he, ht⟩ := List.eq_append_cons_of_mem (List.mem_reverse.mpr h)
  refine ⟨u.reverse, t.reverse, ?_, by simpa using ht⟩
  simpa using congrArg List.reverse he

/-! Decimal numbers. -/

def isSpace (c : Byte) : Bool := c == 32 || (9 ≤ c && c ≤ 13)

def isDigit (c : Byte) : Bool := 48 ≤ c && c ≤ 57

def digitsValue (s : List Byte) : Nat := s.foldl (fun n c => 10 * n + (c.toNat - 48)) 0

def numeral (s : List Byte) : Nat := digitsValue (s.takeWhile isDigit)

/-- `strtol` in base ten: leading white space, an optional sign, digits,
clamped to the range of `long`. -/
def strtol (s : List Byte) : Int :=
  match s.dropWhile isSpace with
  | [] => 0
  | c :: r =>
    if c = 45 then max (-(numeral r : Int)) (-2 ^ 63)
    else if c = 43 then min (numeral r : Int) (2 ^ 63 - 1)
    else min (numeral (c :: r) : Int) (2 ^ 63 - 1)

def atoi (s : List Byte) : Int := (strtol s).bmod (2 ^ 32)

def digitByte (d : Nat) : Byte := UInt8.ofNat (48 + d)

def decimal (n : Nat) : List Byte :=
  if n = 0 then [48] else (Nat.digits 10 n).reverse.map digitByte

def sprintfInt (n : Int) : List Byte :=
  if n < 0 then 45 :: decimal n.natAbs else decimal n.natAbs

theorem isDigit_iff (c : Byte) : isDigit c = true ↔ 48 ≤ c.toNat ∧ c.toNat ≤ 57 := by
  simp [isDigit, UInt8.le_iff_toNat_le]

theorem not_isSpace_of_isDigit {c : Byte} (h : isDigit c = true) : isSpace c = false := by
  rw [isDigit_iff] at h
  simp only [isSpace, Bool.or_eq_false_iff, beq_eq_false_iff_ne, ne_eq, Bool.and_eq_false_iff,
    decide_eq_false_iff_not, UInt8.le_iff_toNat_le, ← UInt8.toNat_inj]
  simp
  omega

theorem strtol_of_isDigit {c : Byte} {s : List Byte} (h : isDigit c = true) :
    strtol (c :: s) = min (numeral (c :: s) : Int) (2 ^ 63 - 1) := by
  have h1 : c ≠ 45 := by rintro rfl; simp [isDigit] at h
  have h2 : c ≠ 43 := by rintro rfl; simp [isDigit] at h
  simp [strtol, not_isSpace_of_isDigit h, h1, h2]

def signedNumeral (s : List Byte) : Int :=
  match s.dropWhile isSpace with
  | [] => 0
  | c :: r => if c = 45 then -(numeral r : Int) else if c = 43 then numeral r else numeral (c :: r)

theorem strtol_eq (s : List Byte) :
    strtol s = max (min (signedNumeral s) (2 ^ 63 - 1)) (-2 ^ 63) := by
  rw [strtol, signedNumeral]
  cases s.dropWhile isSpace with
  | nil => simp
  | cons c r =>
    dsimp only
    split_ifs <;> omega

/-- The texts that `atoi` reads as a small number: the signed numeral is this
number up to multiples of 2^32, or it is below every `long` and zero is read. -/
def ReadAs (t : List Byte) (n : Nat) : Prop :=
  (-2 ^ 63 < signedNumeral t ∧ signedNumeral t < 2 ^ 63 ∧ signedNumeral t % 2 ^ 32 = n) ∨
    (signedNumeral t ≤ -2 ^ 63 ∧ n = 0)

instance (t : List Byte) (n : Nat) : Decidable (ReadAs t n) := inferInstanceAs (Decidable (_ ∨ _))

theorem atoi_eq_iff {t : List Byte} {n : Nat} (hn : n < 2 ^ 31) : atoi t = n ↔ ReadAs t n := by
  rw [atoi, strtol_eq, ReadAs, Int.bmod_def]
  generalize signedNumeral t = z
  split_ifs <;> omega

theorem atoi_of_isDigit {c : Byte} {s : List Byte} (h : isDigit c = true)
    (hv : numeral (c :: s) < 2 ^ 31) : atoi (c :: s) = numeral (c :: s) := by
  rw [atoi, strtol_of_isDigit h, min_eq_left (by omega)]
  exact Int.bmod_eq_of_le (by omega) (by omega)

end CText
