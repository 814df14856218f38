import Comlink.Checksum
import Comlink.Decimal

/-! The checksum of the node client, `getCRC`, and its agreement with the
server. A JavaScript number is exact here: the totals stay far below `2^53`. -/

namespace Comlink

open CText

def hexByte (d : Nat) : Byte := UInt8.ofNat (if d < 10 then 48 + d else 87 + d)

def toString16 (n : Nat) : List Byte :=
  if n = 0 then [48] else (Nat.digits 16 n).reverse.map hexByte

def hexValue (c : Byte) : Option Nat :=
  if 48 ≤ c ∧ c ≤ 57 then some (c.toNat - 48)
  else if 97 ≤ c ∧ c ≤ 102 then some (c.toNat - 87)
  else if 65 ≤ c ∧ c ≤ 70 then some (c.toNat - 55)
  else none

def parseInt16 (s : List Byte) : Nat :=
  (s.takeWhile (fun c => (hexValue c).isSome)).foldl (fun n c => 16 * n + (hexValue c).getD 0) 0

/-- `substr`: a negative start counts from the end of the string. -/
def substr (s : List Byte) (start : Int) (length : Nat) : List Byte :=
  let first := if start < 0 then max (s.length + start) 0 else start
  (s.drop first.toNat).take length

def getCRC (inputString : List Byte) : List Byte :=
  let total := inputString.foldl (fun total c => total + parseInt16 (toString16 c.toNat)) 0
  let hexACK := toString16 total
  let ascACK := parseInt16 (substr hexACK (hexACK.length - 2) hexACK.length)
  if ascACK ≤ 9 then lit "00" ++ decimal ascACK
  else if ascACK ≤ 99 then lit "0" ++ decimal ascACK
  else decimal ascACK

def padded3 (n : Nat) : List Byte :=
  [digitByte (n / 100), digitByte (n / 10 % 10), digitByte (n % 10)]

theorem hexValue_hexByte : ∀ d < 16, hexValue (hexByte d) = some d := by decide

theorem parseInt16_map_hexByte {ds : List Nat} (h : ∀ d ∈ ds, d < 16) :
    parseInt16 (ds.reverse.map hexByte) = Nat.ofDigits 16 ds := by
  have hall : ∀ c ∈ ds.reverse.map hexByte, (hexValue c).isSome = true := by
    intro c hc
    obtain ⟨d, hd, rfl⟩ := List.mem_map.mp hc
    simp [hexValue_hexByte d (h d (List.mem_reverse.mp hd))]
  rw [parseInt16, List.takeWhile_eq_self_iff.mpr hall]
  clear hall
  induction ds with
  | nil => rfl
  | cons d ds ih =>
    have ht := ih (fun x hx => h x (by simp [hx]))
    simp only [List.reverse_cons, List.map_append, List.map_cons, List.map_nil,
      List.foldl_append, List.foldl_cons, List.foldl_nil, ht, hexValue_hexByte d (h d (by simp)),
      Option.getD_some, Nat.ofDigits_cons]
    omega

theorem parseInt16_toString16 (n : Nat) : parseInt16 (toString16 n) = n := by
  rw [toString16]
  split_ifs with h
  · rw [h]
    decide
  · rw [parseInt16_map_hexByte (fun d hd => Nat.digits_lt_base (by omega) hd), Nat.ofDigits_digits]

theorem substr_last_two (s : List Byte) :
    substr s (s.length - 2) s.length = s.drop (s.length - 2) := by
  have hf : (if (s.length : Int) - 2 < 0 then max (s.length + ((s.length : Int) - 2)) 0
      else (s.length : Int) - 2).toNat = s.length - 2 := by
    split_ifs <;> omega
  rw [substr, hf]
  exact List.take_of_length_le (by simp)

theorem parseInt16_last_two (n : Nat) :
    parseInt16 (substr (toString16 n) ((toString16 n).length - 2) (toString16 n).length) =
      n % 256 := by
  rw [substr_last_two, toString16]
  split_ifs with h
  · rw [h]
    decide
  · have hlt : ∀ d ∈ (Nat.digits 16 n).take 2, d < 16 :=
      fun d hd => Nat.digits_lt_base (by omega) (List.mem_of_mem_take hd)
    rw [← List.map_drop, List.length_map, List.length_reverse, ← List.reverse_take,
      parseInt16_map_hexByte hlt, ← Nat.self_mod_pow_eq_ofDigits_take 2 n (by omega)]
    rfl

theorem getCRC_total (b : List Byte) (total : Nat) :
    b.foldl (fun total c => total + parseInt16 (toString16 c.toNat)) total = total + byteSum b := by
  induction b generalizing total with
  | nil => simp [byteSum]
  | cons c b ih =>
    rw [List.foldl_cons, ih, parseInt16_toString16]
    simp only [byteSum, List.map_cons, List.sum_cons]
    omega

theorem padded3_eq : ∀ n < 256,
    (if n ≤ 9 then lit "00" ++ decimal n else if n ≤ 99 then lit "0" ++ decimal n else decimal n) =
      padded3 n := by
  decide +kernel

theorem getCRC_eq (b : List Byte) : getCRC b = padded3 (byteSum b % 256) := by
  have hn : byteSum b % 256 < 256 := Nat.mod_lt _ (by omega)
  simp only [getCRC, getCRC_total, parseInt16_last_two, Nat.zero_add]
  exact padded3_eq _ hn

section Padded

variable {n : Nat} (hn : n < 1000)

include hn

theorem isDigit_padded3 {c : Byte} (hc : c ∈ padded3 n) : isDigit c = true := by
  simp only [padded3, List.mem_cons, List.not_mem_nil, or_false] at hc
  rcases hc with rfl | rfl | rfl
  · exact isDigit_digitByte (by omega)
  · exact isDigit_digitByte (by omega)
  · exact isDigit_digitByte (by omega)

theorem notMem_padded3 {c : Byte} (hc : isDigit c = false) : c ∉ padded3 n := by
  intro h
  rw [isDigit_padded3 hn h] at hc
  cases hc

theorem digitsValue_padded3 : digitsValue (padded3 n) = n := by
  have hhundreds := toNat_digitByte (show n / 100 < 10 by omega)
  have htens := toNat_digitByte (show n / 10 % 10 < 10 by omega)
  have hones := toNat_digitByte (show n % 10 < 10 by omega)
  simp only [digitsValue, padded3, List.foldl_cons, List.foldl_nil, hhundreds, htens, hones]
  omega

theorem atoi_padded3 : atoi (padded3 n) = n := by
  have hnum : numeral (padded3 n) = n := by
    rw [numeral_eq_digitsValue (fun c hc => isDigit_padded3 hn hc), digitsValue_padded3 hn]
  have hfirst : isDigit (digitByte (n / 100)) = true := isDigit_digitByte (by omega)
  have h := atoi_of_isDigit hfirst (show numeral (padded3 n) < 2 ^ 31 by omega)
  exact h.trans (congrArg Nat.cast hnum)

end Padded

/-- A packet completed with the client's checksum is accepted, whatever the
type and whatever other commas it has. -/
theorem getCRC_accepted (packetType : Int) (b : List Byte)
    (hascii : ∀ c ∈ b, c ≠ 0 ∧ c < 128) (hend : ∃ u, b = u ++ [comma])
    (hlen : b.length < 2 ^ 31 - 4) :
    getCRC b = padded3 (checksum b b.length).toNat ∧
      isCRCValid packetType (b ++ getCRC b ++ [0]) = true := by
  have hn : byteSum b % 256 < 256 := Nat.mod_lt _ (by omega)
  have hsum : (checksum b b.length).toNat = byteSum b % 256 := by
    rw [checksum_toNat, List.take_length]
  have hcomma : comma ∉ padded3 (byteSum b % 256) := notMem_padded3 (by omega) (by decide)
  have hzero : 0 ∉ padded3 (byteSum b % 256) := notMem_padded3 (by omega) (by decide)
  refine ⟨by rw [getCRC_eq, hsum], ?_⟩
  obtain ⟨u, rfl⟩ := hend
  have hb : 0 ∉ u ++ [comma] := fun h => (hascii 0 h).1 rfl
  have hs : cstr (u ++ [comma] ++ getCRC (u ++ [comma]) ++ [0]) =
      u ++ comma :: getCRC (u ++ [comma]) := by
    rw [cstr_terminated]
    · simp
    · rw [getCRC_eq]
      exact fun h => (List.mem_append.mp h).elim hb hzero
  rw [getCRC_eq] at hs ⊢
  rw [isCRCValid_iff, hs, afterLast_append_cons hcomma, upToLast_append_cons hcomma]
  exact Or.inr (atoi_padded3 (by omega))

theorem getCRC_accepted_controller_packet :
    getCRC (lit "45,PIT905,01,01,00,05,04,4,4,4,0,0,0,") = lit "071" ∧
    isCRCValid 45 (lit "45,PIT905,01,01,00,05,04,4,4,4,0,0,0,071" ++ [0]) = true := by
  have hascii : (lit "45,PIT905,01,01,00,05,04,4,4,4,0,0,0,").all
      (fun c => decide (c ≠ 0 ∧ c < 128)) = true := by decide
  have h := getCRC_accepted 45 (lit "45,PIT905,01,01,00,05,04,4,4,4,0,0,0,")
    (fun c hc => of_decide_eq_true (List.all_eq_true.mp hascii c hc))
    ⟨lit "45,PIT905,01,01,00,05,04,4,4,4,0,0,0", by decide⟩ (by decide)
  have hc : getCRC (lit "45,PIT905,01,01,00,05,04,4,4,4,0,0,0,") = lit "071" := by
    rw [h.1]
    decide
  refine ⟨hc, ?_⟩
  have h2 := h.2
  rw [hc] at h2
  exact h2

end Comlink
