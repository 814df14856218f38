import Comlink.CText

/-! The decimal texts that `sprintf` prints: their digits, their width, and
that `atoi` reads them back. -/

namespace CText

theorem toNat_digitByte {d : Nat} (h : d < 10) : (digitByte d).toNat = 48 + d := by
  simp only [digitByte, UInt8.toNat_ofNat']
  omega

theorem isDigit_digitByte {d : Nat} (h : d < 10) : isDigit (digitByte d) = true := by
  rw [isDigit_iff, toNat_digitByte h]
  omega

theorem isDigit_decimal {n : Nat} {c : Byte} (hc : c ∈ decimal n) : isDigit c = true := by
  rw [decimal] at hc
  split_ifs at hc with h
  · rw [List.mem_singleton.mp hc]
    rfl
  · obtain ⟨d, hd, rfl⟩ := List.mem_map.mp hc
    apply isDigit_digitByte
    exact Nat.digits_lt_base (by omega) (List.mem_reverse.mp hd)

theorem digitsValue_concat (s : List Byte) (c : Byte) :
    digitsValue (s ++ [c]) = 10 * digitsValue s + (c.toNat - 48) := by
  simp [digitsValue]

theorem digitsValue_map_digitByte {ds : List Nat} (h : ∀ d ∈ ds, d < 10) :
    digitsValue (ds.reverse.map digitByte) = Nat.ofDigits 10 ds := by
  induction ds with
  | nil => rfl
  | cons d ds ih =>
    have hd := toNat_digitByte (h d (by simp))
    have ht := ih (fun x hx => h x (by simp [hx]))
    rw [List.reverse_cons, List.map_append, List.map_singleton, digitsValue_concat, ht, hd,
      Nat.ofDigits_cons]
    omega

theorem digitsValue_decimal (n : Nat) : digitsValue (decimal n) = n := by
  rw [decimal]
  split_ifs with h
  · rw [h]
    rfl
  · rw [digitsValue_map_digitByte (fun d hd => Nat.digits_lt_base (by omega) hd),
      Nat.ofDigits_digits]

theorem numeral_eq_digitsValue {s : List Byte} (h : ∀ c ∈ s, isDigit c = true) :
    numeral s = digitsValue s := by
  rw [numeral, List.takeWhile_eq_self_iff.mpr h]

theorem numeral_decimal (n : Nat) : numeral (decimal n) = n := by
  rw [numeral_eq_digitsValue (fun c hc => isDigit_decimal hc), digitsValue_decimal]

theorem decimal_ne_nil (n : Nat) : decimal n ≠ [] := by
  rw [decimal]
  split_ifs with h
  · simp
  · simpa [Nat.digits_eq_nil_iff_eq_zero] using h

theorem length_decimal_le_iff {k : Nat} (hk : 0 < k) (n : Nat) :
    (decimal n).length ≤ k ↔ n < 10 ^ k := by
  rw [decimal]
  split_ifs with h
  · have hpow : 0 < 10 ^ k := Nat.pow_pos (by omega)
    rw [h, List.length_singleton]
    omega
  · rw [List.length_map, List.length_reverse, Nat.digits_length_le_iff (by omega)]

theorem length_sprintfInt_le_iff {k : Nat} (hk : 0 < k) (n : Int) :
    (sprintfInt n).length ≤ k + 1 ↔ -(10 ^ k : Nat) < n ∧ n < (10 ^ (k + 1) : Nat) := by
  have hle : 10 ^ k ≤ 10 ^ (k + 1) := Nat.pow_le_pow_right (by omega) (by omega)
  rw [sprintfInt]
  split_ifs with h
  · have hd := length_decimal_le_iff hk n.natAbs
    rw [List.length_cons]
    omega
  · have hd := length_decimal_le_iff (Nat.succ_pos k) n.natAbs
    omega

theorem signedNumeral_sprintfInt (n : Int) : signedNumeral (sprintfInt n) = n := by
  rw [sprintfInt, signedNumeral]
  split_ifs with h
  · have hspace : (45 :: decimal n.natAbs).dropWhile isSpace = 45 :: decimal n.natAbs := by
      rw [List.dropWhile_cons, if_neg (by decide)]
    rw [hspace]
    simp only [if_true, numeral_decimal]
    omega
  · obtain ⟨c, r, hc⟩ := List.exists_cons_of_ne_nil (decimal_ne_nil n.natAbs)
    have hdigit : isDigit c = true := isDigit_decimal (by rw [hc]; exact List.mem_cons_self)
    have hminus : c ≠ 45 := by rintro rfl; simp [isDigit] at hdigit
    have hplus : c ≠ 43 := by rintro rfl; simp [isDigit] at hdigit
    have hspace : (decimal n.natAbs).dropWhile isSpace = c :: r := by
      rw [hc, List.dropWhile_cons, not_isSpace_of_isDigit hdigit]
      rfl
    rw [hspace]
    simp only [hminus, hplus, if_false, ← hc, numeral_decimal]
    omega

theorem atoi_eq_signedNumeral {t : List Byte} (hl : -2 ^ 31 ≤ signedNumeral t)
    (hu : signedNumeral t < 2 ^ 31) : atoi t = signedNumeral t := by
  rw [atoi, strtol_eq, min_eq_left (by omega), max_eq_left (by omega)]
  exact Int.bmod_eq_of_le (by omega) (by omega)

theorem atoi_sprintfInt {n : Int} (hl : -2 ^ 31 ≤ n) (hu : n < 2 ^ 31) :
    atoi (sprintfInt n) = n := by
  have hn := signedNumeral_sprintfInt n
  rw [atoi_eq_signedNumeral (by omega) (by omega), hn]

theorem mem_sprintfInt {n : Int} {c : Byte} (h : c ∈ sprintfInt n) :
    c = 45 ∨ isDigit c = true := by
  rw [sprintfInt] at h
  split_ifs at h
  · exact (List.mem_cons.mp h).imp_right isDigit_decimal
  · exact Or.inr (isDigit_decimal h)

theorem notMem_sprintfInt {c : Byte} (hminus : c ≠ 45) (hdigit : isDigit c = false) (n : Int) :
    c ∉ sprintfInt n := by
  intro h
  rcases mem_sprintfInt h with h | h
  · exact hminus h
  · rw [hdigit] at h
    cases h

end CText
