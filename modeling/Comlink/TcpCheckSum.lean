import Comlink.Checksum

/-! The older verifier of the same checksum. Its indices and its sum are of
type `char`, a signed byte here, and wrap from 127 to -128. -/

namespace Comlink

open CText

/-- A read of `buf[i]`. There is no result outside the array. -/
def charAt (buf : List Byte) (i : Int8) : Option Int8 :=
  if i < 0 then none else buf[i.toInt.toNat]?.map UInt8.toInt8

def uCalTCPCheckSumLoop (tuBuf : List Byte) (tuIndex : Int) : Nat → Int8 → Int8 → Option Int8
  -- 256 steps are enough: by then the counter has taken all its values.
  | 0, _, _ => none
  | fuel + 1, tuCnt, tuCheckSum =>
    if tuCnt.toInt < tuIndex then do
      let c ← charAt tuBuf tuCnt
      uCalTCPCheckSumLoop tuBuf tuIndex fuel (tuCnt + 1) (tuCheckSum + c)
    else some tuCheckSum

def uCalTCPCheckSum (tuBuf : List Byte) (tuIndex : Int) : Option Int8 :=
  uCalTCPCheckSumLoop tuBuf tuIndex 256 0 0

def checkSumIndexLoop (tuBuf : List Byte) : Nat → Int8 → Int8 → Option Int8
  | 0, _, _ => none
  | fuel + 1, tuIndex, tuCheckSumIndex => do
    let c ← charAt tuBuf tuIndex
    if c = 0 then some tuCheckSumIndex
    else
      checkSumIndexLoop tuBuf fuel (tuIndex + 1) (if c = 44 then tuIndex + 1 else tuCheckSumIndex)

def uVerifyCheckSum (tuBuf : List Byte) : Option Int := do
  let tuCheckSumIndex ← checkSumIndexLoop tuBuf 256 0 0
  let tuCalCheckSum ← uCalTCPCheckSum tuBuf tuCheckSumIndex.toInt
  if tuCheckSumIndex < 0 then none
  else
    let tuRcvdCheckSum := Int8.ofInt (atoi (cstr (tuBuf.drop tuCheckSumIndex.toInt.toNat)))
    if tuRcvdCheckSum = tuCalCheckSum then some 1 else some 0

theorem toInt8_inj {a b : Byte} : a.toInt8 = b.toInt8 ↔ a = b := by
  constructor
  · intro h
    simpa using congrArg Int8.toUInt8 h
  · rintro rfl
    rfl

section CharIndex

variable {buf : List Byte} {i : Nat}

theorem toInt_ofNat_char (hi : i ≤ 127) : (Int8.ofNat i).toInt = i :=
  Int8.toInt_ofNat_of_lt (by omega)

theorem not_ofNat_neg (hi : i ≤ 127) : ¬ Int8.ofNat i < 0 := by
  rw [Int8.lt_iff_toInt_lt, toInt_ofNat_char hi]
  simp

theorem charAt_ofNat (hi : i ≤ 127) : charAt buf (Int8.ofNat i) = buf[i]?.map UInt8.toInt8 := by
  rw [charAt, if_neg (not_ofNat_neg hi), toInt_ofNat_char hi, Int.toNat_natCast]

theorem charAt_wrapped (buf : List Byte) : charAt buf (Int8.ofNat 128) = none := by
  rw [charAt, if_pos (by decide)]

theorem uCalTCPCheckSumLoop_eq (fuel k i : Nat) (chk : Byte) (hi : i + k ≤ 127)
    (hbuf : i + k ≤ buf.length) :
    uCalTCPCheckSumLoop buf (i + k : Nat) (fuel + k + 1) (Int8.ofNat i) chk.toInt8 =
      some (checksumLoop k (buf.drop i) chk).toInt8 := by
  induction k generalizing i chk with
  | zero =>
    rw [uCalTCPCheckSumLoop, toInt_ofNat_char (by omega), if_neg (by omega)]
    rfl
  | succ k ih =>
    have hlt : i < buf.length := by omega
    have hnext := ih (i + 1) (chk + buf[i]) (by omega) (by omega)
    rw [Nat.add_right_comm i 1 k, Int8.ofNat_add, UInt8.toInt8_add] at hnext
    rw [uCalTCPCheckSumLoop, toInt_ofNat_char (by omega), if_pos (by omega),
      charAt_ofNat (by omega), List.getElem?_eq_getElem hlt, List.drop_eq_getElem_cons hlt,
      checksumLoop, ← hnext]
    rfl

theorem uCalTCPCheckSum_eq {n : Nat} (hn : n ≤ 127) (hbuf : n ≤ buf.length) :
    uCalTCPCheckSum buf n = some (checksum buf n).toInt8 := by
  have hsum : 0 + n ≤ buf.length := by omega
  have h := uCalTCPCheckSumLoop_eq (255 - n) n 0 0 (by omega) hsum
  have hfuel : 255 - n + n + 1 = 256 := by omega
  rw [Nat.zero_add, hfuel] at h
  exact h

theorem checkSumIndexLoop_eq (fuel : Nat) (s : List Byte) (i : Nat) (index : Int) (h0 : 0 ∉ s)
    (hs : buf.drop i = s ++ [0]) (hi : i + s.length ≤ 127) :
    checkSumIndexLoop buf (fuel + s.length + 1) (Int8.ofNat i) (Int8.ofInt (index + 1)) =
      some (Int8.ofInt (findLastIndexLoop comma s i index + 1)) := by
  have hget : buf[i]? = (s ++ [0]).head? := by rw [← hs, List.head?_drop]
  induction s generalizing i index with
  | nil =>
    simp only [List.length_nil] at hi
    rw [checkSumIndexLoop, charAt_ofNat (by omega), hget]
    rfl
  | cons c s ih =>
    rw [List.length_cons] at hi
    have hc : c.toInt8 ≠ 0 := fun he => h0 (List.mem_cons.mpr (.inl (toInt8_inj.mp he.symm)))
    have hdrop : buf.drop (i + 1) = s ++ [0] := by
      rw [← List.tail_drop, hs]
      rfl
    have hhead : buf[i + 1]? = (s ++ [0]).head? := by rw [← hdrop, List.head?_drop]
    have hnext := ih (i + 1) (if c = comma then i else index) (fun hm => h0 (by simp [hm])) hdrop
      (by omega) hhead
    have hcomma : c.toInt8 = 44 ↔ c = comma := toInt8_inj (b := comma)
    have hindex : (if c.toInt8 = 44 then Int8.ofNat i + 1 else Int8.ofInt (index + 1)) =
        Int8.ofInt ((if c = comma then (i : Int) else index) + 1) := by
      simp only [hcomma]
      split_ifs
      · rw [Int8.ofInt_add, Int8.ofInt_eq_ofNat]
        rfl
      · rfl
    rw [Int8.ofNat_add] at hnext
    rw [checkSumIndexLoop, charAt_ofNat (by omega), hget, findLastIndexLoop, ← hnext, ← hindex]
    simp only [List.cons_append, List.head?_cons, Option.map_some, Option.bind_eq_bind,
      Option.bind_some, if_neg hc]
    rfl

/-- No `char` indexes the end of a text of 128 bytes: after 127 comes -128,
whatever the bound on the steps. -/
theorem checkSumIndexLoop_wraps {p : List Byte} (h0 : 0 ∉ p) (hp : 128 ≤ p.length) (fuel i : Nat)
    (hi : i ≤ 128) (index : Int8) :
    checkSumIndexLoop (p ++ [0]) fuel (Int8.ofNat i) index = none := by
  induction fuel generalizing i index with
  | zero => rfl
  | succ fuel ih =>
    rw [checkSumIndexLoop]
    rcases Nat.lt_or_eq_of_le hi with hlt | rfl
    · have hip : i < p.length := by omega
      have hc : p[i].toInt8 ≠ 0 := by
        intro he
        have hzero : p[i] = 0 := toInt8_inj.mp he
        exact h0 (hzero ▸ List.getElem_mem hip)
      rw [charAt_ofNat (by omega), List.getElem?_append_left hip, List.getElem?_eq_getElem hip]
      simp only [Option.map_some, Option.bind_eq_bind, Option.bind_some, if_neg hc]
      have hnext := ih (i + 1) (by omega)
      rw [Int8.ofNat_add] at hnext
      exact hnext _
    · rw [charAt_wrapped]
      rfl

end CharIndex

section Terminated

variable {p : List Byte} (h0 : 0 ∉ p)

theorem length_upToLast_le (p : List Byte) : (upToLast comma p).length ≤ p.length := by
  have h := congrArg List.length (upToLast_append_afterLast comma p)
  rw [List.length_append] at h
  omega

include h0

theorem checkSumIndex_eq (hp : p.length ≤ 127) :
    checkSumIndexLoop (p ++ [0]) 256 0 0 = some (Int8.ofNat (upToLast comma p).length) := by
  have hdrop : (p ++ [0]).drop 0 = p ++ [0] := rfl
  have h := checkSumIndexLoop_eq (255 - p.length) p 0 (-1) h0 hdrop (by omega)
  have hlast := findLastIndex_eq (p ++ [0]) comma
  have hfuel : 255 - p.length + p.length + 1 = 256 := by omega
  rw [findLastIndex, cstr_terminated h0 []] at hlast
  rw [hfuel, hlast, Int8.ofInt_eq_ofNat] at h
  exact h

theorem cstr_drop_upToLast :
    cstr ((p ++ [0]).drop (upToLast comma p).length) = afterLast comma p := by
  have hsplit := upToLast_append_afterLast comma p
  have hdrop : (upToLast comma p ++ afterLast comma p).drop (upToLast comma p).length =
      afterLast comma p := List.drop_left
  rw [hsplit] at hdrop
  rw [List.drop_append_of_le_length (length_upToLast_le p), hdrop]
  apply cstr_terminated
  intro hm
  apply h0
  rw [← hsplit]
  exact List.mem_append_right _ hm

/-- On at most 127 bytes both loops stay inside, and the sum and the trailer
are those of `isCRCValid`, compared as signed bytes. -/
theorem uVerifyCheckSum_eq (hp : p.length ≤ 127) :
    uVerifyCheckSum (p ++ [0]) =
      if Int8.ofInt (atoi (afterLast comma p)) =
          (checksum (p ++ [0]) (upToLast comma p).length).toInt8 then some 1 else some 0 := by
  have hlen := length_upToLast_le p
  have hsum : uCalTCPCheckSum (p ++ [0]) (upToLast comma p).length =
      some (checksum (p ++ [0]) (upToLast comma p).length).toInt8 := by
    apply uCalTCPCheckSum_eq
    · omega
    · rw [List.length_append]
      omega
  have hindex := toInt_ofNat_char (i := (upToLast comma p).length) (by omega)
  have hpos := not_ofNat_neg (i := (upToLast comma p).length) (by omega)
  simp only [uVerifyCheckSum, checkSumIndex_eq h0 hp, Option.bind_eq_bind, Option.bind_some, hindex,
    hsum, hpos, if_false, Int.toNat_natCast, cstr_drop_upToLast h0]

end Terminated

/-- The text after the last comma is a decimal byte of one to three digits. -/
structure DecimalTrailer (p : List Byte) : Prop where
  nonempty : 1 ≤ (afterLast comma p).length
  short : (afterLast comma p).length ≤ 3
  digits : ∀ c ∈ afterLast comma p, isDigit c = true
  value : numeral (afterLast comma p) ≤ 255

theorem DecimalTrailer.digitTrailer {p : List Byte} (h : DecimalTrailer p) :
    digitTrailer p = true := by
  have hne := h.nonempty
  have hdigits := h.digits
  rw [Comlink.digitTrailer]
  cases he : afterLast comma p with
  | nil => simp [he] at hne
  | cons c s =>
    rw [he] at hdigits
    exact hdigits c List.mem_cons_self

theorem ofInt_eq_toInt8_iff {n : Nat} (hn : n ≤ 255) (b : Byte) :
    Int8.ofInt n = b.toInt8 ↔ (n : Int) = b.toNat := by
  rw [Int8.ofInt_eq_ofNat, ← UInt8.toInt8_ofNat', toInt8_inj, ← UInt8.toNat_inj,
    UInt8.toNat_ofNat', Nat.cast_inj, Nat.mod_eq_of_lt (by omega)]

theorem uVerifyCheckSum_eq_isCRCValid {packetType : Int} {p : List Byte} (h0 : 0 ∉ p)
    (hd : DecimalTrailer p) (h7 : packetType ≠ 7) (hp : p.length ≤ 127) :
    uVerifyCheckSum (p ++ [0]) =
      if isCRCValid packetType (p ++ [0]) = true then some 1 else some 0 := by
  have hcstr : cstr (p ++ [0]) = p := cstr_terminated h0 []
  have hvalue := hd.value
  have hatoi := atoi_of_digitTrailer hd.digitTrailer (by omega)
  have hlast := toNat_findLastIndex (p ++ [0])
  have htake := take_findLastIndex (p ++ [0])
  have hvalid : isCRCValid packetType (p ++ [0]) = true ↔
      Int8.ofInt (atoi (afterLast comma p)) =
        (checksum (p ++ [0]) (upToLast comma p).length).toInt8 := by
    rw [hlast, hcstr] at htake
    rw [isCRCValid_iff, hcstr, hatoi, ofInt_eq_toInt8_iff hvalue, checksum_toNat, htake]
    simp [h7]
  rw [uVerifyCheckSum_eq h0 hp]
  simp only [hvalid]

/-- The two verifiers agree on a packet, and the loops of the older one stay
inside it, exactly when the packet has at most 127 bytes. -/
theorem uVerifyCheckSum_agrees_iff (packetType : Int) (p : List Byte) (h0 : 0 ∉ p)
    (hd : DecimalTrailer p) (h7 : packetType ≠ 7) :
    (∃ r, uVerifyCheckSum (p ++ [0]) = some r ∧
      (r = 1 ↔ isCRCValid packetType (p ++ [0]) = true)) ↔ p.length ≤ 127 := by
  constructor
  · rintro ⟨r, hr, -⟩
    by_contra hp
    have hnone : checkSumIndexLoop (p ++ [0]) 256 0 0 = none :=
      checkSumIndexLoop_wraps h0 (by omega) 256 0 (by omega) 0
    rw [uVerifyCheckSum, hnone] at hr
    cases hr
  · intro hp
    rw [uVerifyCheckSum_eq_isCRCValid h0 hd h7 hp]
    by_cases hvalid : isCRCValid packetType (p ++ [0]) = true
    · exact ⟨1, if_pos hvalid, by simp [hvalid]⟩
    · exact ⟨0, if_neg hvalid, by simp [hvalid]⟩

theorem uVerifyCheckSum_agrees_controller_packet :
    ∃ r, uVerifyCheckSum (lit "45,PIT905,01,01,00,05,04,4,4,4,0,0,0,071" ++ [0]) = some r ∧
      (r = 1 ↔
        isCRCValid 45 (lit "45,PIT905,01,01,00,05,04,4,4,4,0,0,0,071" ++ [0]) = true) := by
  refine (uVerifyCheckSum_agrees_iff 45 _ (by decide) ?_ (by decide)).mpr (by decide)
  exact ⟨by decide, by decide, List.all_eq_true.mp (by decide), by decide⟩

-- 128 bytes with a right checksum.
def longPacket : List Byte := lit "45," ++ List.replicate 121 65 ++ lit ",122"

theorem uVerifyCheckSum_wraps_long_packet :
    isCRCValid 45 (longPacket ++ [0]) = true ∧
    ¬ ∀ (packetType : Int) (p : List Byte), 0 ∉ p → comma ∈ p → DecimalTrailer p →
      packetType ≠ 7 → ∃ r, uVerifyCheckSum (p ++ [0]) = some r ∧
        (r = 1 ↔ isCRCValid packetType (p ++ [0]) = true) := by
  refine ⟨by decide +kernel, fun h => ?_⟩
  have hd : DecimalTrailer longPacket :=
    ⟨by decide +kernel, by decide +kernel, List.all_eq_true.mp (by decide +kernel),
      by decide +kernel⟩
  have hnone : uVerifyCheckSum (longPacket ++ [0]) = none := by decide +kernel
  obtain ⟨r, hr, -⟩ := h 45 longPacket (by decide +kernel) (by decide +kernel) hd (by decide)
  rw [hnone] at hr
  cases hr

end Comlink
