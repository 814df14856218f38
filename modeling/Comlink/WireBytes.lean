import Comlink.CText

/-! Byte codes of wire formats: numbers as big-endian bytes of a fixed width and
payloads masked with a repeating key. -/

namespace WireBytes

open CText (Byte)

theorem forall_byte {P : Byte → Prop} (h : ∀ i : Fin 256, P (UInt8.ofNat i)) (c : Byte) : P c := by
  simpa only [UInt8.ofNat_toNat] using h ⟨c.toNat, c.toNat_lt⟩

section BigEndian

def toBytes : Nat → Nat → List Byte
  | 0, _ => []
  | k + 1, n => UInt8.ofNat (n / 256 ^ k) :: toBytes k n

def ofBytes : List Byte → Nat
  | [] => 0
  | b :: l => b.toNat * 256 ^ l.length + ofBytes l

@[simp] theorem length_toBytes (k n : Nat) : (toBytes k n).length = k := by
  induction k with
  | zero => rfl
  | succ k ih => rw [toBytes, List.length_cons, ih]

theorem toBytes_add (k m n : Nat) : toBytes k (m * 256 ^ k + n) = toBytes k n := by
  induction k generalizing m with
  | zero => rfl
  | succ k ih =>
    have he : m * 256 ^ (k + 1) + n = m * 256 * 256 ^ k + n := by rw [pow_succ]; ring
    have hd : (m * 256 * 256 ^ k + n) / 256 ^ k = m * 256 + n / 256 ^ k := by
      rw [Nat.add_comm, Nat.add_mul_div_right _ _ (by positivity), Nat.add_comm]
    rw [toBytes, toBytes, he, ih, hd]
    refine congrArg (· :: _) ?_
    rw [← UInt8.toNat_inj, UInt8.toNat_ofNat', UInt8.toNat_ofNat']
    omega

theorem ofBytes_toBytes {k n : Nat} (h : n < 256 ^ k) : ofBytes (toBytes k n) = n := by
  induction k generalizing n with
  | zero => simpa [toBytes, ofBytes, eq_comm] using h
  | succ k ih =>
    have hq : n / 256 ^ k < 256 := by
      rw [Nat.div_lt_iff_lt_mul (by positivity), Nat.mul_comm, ← pow_succ]
      exact h
    have hr : toBytes k n = toBytes k (n % 256 ^ k) := by
      conv_lhs => rw [← Nat.div_add_mod' n (256 ^ k), toBytes_add]
    rw [toBytes, ofBytes, length_toBytes, UInt8.toNat_ofNat', Nat.mod_eq_of_lt hq, hr,
      ih (Nat.mod_lt _ (by positivity)), Nat.div_add_mod']

end BigEndian

section Mask

variable {key : Nat → Byte}

/-- `l` with the bytes of `key` from index `i` on added bitwise. -/
def maskFrom (key : Nat → Byte) : Nat → List Byte → List Byte
  | _, [] => []
  | i, c :: l => (c ^^^ key i) :: maskFrom key (i + 1) l

@[simp] theorem length_maskFrom (i : Nat) (l : List Byte) :
    (maskFrom key i l).length = l.length := by
  induction l generalizing i with
  | nil => rfl
  | cons c l ih => rw [maskFrom, List.length_cons, List.length_cons, ih]

theorem maskFrom_append (i : Nat) (a b : List Byte) :
    maskFrom key i (a ++ b) = maskFrom key i a ++ maskFrom key (i + a.length) b := by
  induction a generalizing i with
  | nil => rfl
  | cons c a ih =>
    rw [List.cons_append, maskFrom, maskFrom, ih, List.cons_append, List.length_cons,
      Nat.add_assoc, Nat.add_comm 1]

@[simp] theorem maskFrom_maskFrom (i : Nat) (l : List Byte) :
    maskFrom key i (maskFrom key i l) = l := by
  induction l generalizing i with
  | nil => rfl
  | cons c l ih => rw [maskFrom, maskFrom, ih, UInt8.xor_assoc, UInt8.xor_self, UInt8.xor_zero]

theorem maskFrom_congr {key' : Nat → Byte} {i j : Nat} (l : List Byte)
    (h : ∀ n, key (i + n) = key' (j + n)) : maskFrom key i l = maskFrom key' j l := by
  induction l generalizing i j with
  | nil => rfl
  | cons c l ih =>
    have htail : ∀ n, key (i + 1 + n) = key' (j + 1 + n) := by
      intro n
      simpa only [Nat.add_assoc, Nat.add_comm 1] using h (n + 1)
    have hhead : key i = key' j := h 0
    rw [maskFrom, maskFrom, ih htail, hhead]

end Mask

end WireBytes
