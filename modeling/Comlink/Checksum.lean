import Comlink.CText

/-! The packet checksum of the websocket plugin: the loops of `checksum` and
`findLastIndex`, and the acceptance test `isCRCValid` built on them. -/

namespace Comlink

open CText

def comma : Byte := 44

def checksumLoop : Nat → List Byte → Byte → Byte
  | 0, _, chk => chk
  | _ + 1, [], chk => chk
  | sz + 1, c :: ptr, chk => checksumLoop sz ptr (chk + c)

def checksum (ptr : List Byte) (sz : Nat) : Byte := checksumLoop sz ptr 0

def findLastIndexLoop (x : Byte) : List Byte → Nat → Int → Int
  | [], _, index => index
  | c :: str, i, index => findLastIndexLoop x str (i + 1) (if c = x then i else index)

/-- The index is an `int` in the source, so packets have fewer than 2^31 bytes. -/
def findLastIndex (str : List Byte) (x : Byte) : Int :=
  findLastIndexLoop x (cstr str) 0 (-1) + 1

/-- The acceptance test. The text copied into the local `str` is kept whole,
also where it is longer than the array. -/
def isCRCValid (packetType : Int) (packet : List Byte) : Bool :=
  let lastindex := (findLastIndex packet comma).toNat
  let len := (cstr packet).length
  let checkSum := checksum packet lastindex
  let str := (packet.drop lastindex).take (len - lastindex)
  let crcInPacket := atoi str
  if packetType = 7 ∧ str = lit "EOT\r\n" then true
  else if crcInPacket = checkSum.toNat then true
  else false

def byteSum (s : List Byte) : Nat := (s.map UInt8.toNat).sum

theorem byteSum_append (s t : List Byte) : byteSum (s ++ t) = byteSum s + byteSum t := by
  simp [byteSum]

theorem byteSum_set {s : List Byte} {i : Nat} (hi : i < s.length) (v : Byte) :
    byteSum (s.set i v) + s[i].toNat = byteSum s + v.toNat := by
  induction s generalizing i with
  | nil => simp at hi
  | cons c s ih =>
    cases i with
    | zero =>
      simp only [byteSum, List.set_cons_zero, List.map_cons, List.sum_cons, List.getElem_cons_zero]
      omega
    | succ i =>
      have hrec := ih (Nat.lt_of_succ_lt_succ hi)
      simp only [byteSum, List.set_cons_succ, List.map_cons, List.sum_cons,
        List.getElem_cons_succ] at hrec ⊢
      omega

theorem byteSum_set_ne {s : List Byte} {i : Nat} {v : Byte} (hi : i < s.length) (hv : s[i] ≠ v) :
    byteSum (s.set i v) % 256 ≠ byteSum s % 256 := by
  have hset := byteSum_set hi v
  have hold := s[i].toNat_lt
  have hnew := v.toNat_lt
  have hne : s[i].toNat ≠ v.toNat := fun he => hv (UInt8.toNat_inj.mp he)
  omega

theorem checksumLoop_toNat (sz : Nat) (ptr : List Byte) (chk : Byte) :
    (checksumLoop sz ptr chk).toNat = (chk.toNat + byteSum (ptr.take sz)) % 256 := by
  induction sz generalizing ptr chk with
  | zero => simp [checksumLoop, byteSum]
  | succ sz ih =>
    cases ptr with
    | nil => simp [checksumLoop, byteSum]
    | cons c ptr =>
      rw [checksumLoop, ih, UInt8.toNat_add]
      simp only [byteSum, List.take_succ_cons, List.map_cons, List.sum_cons]
      omega

theorem checksum_toNat (ptr : List Byte) (sz : Nat) :
    (checksum ptr sz).toNat = byteSum (ptr.take sz) % 256 := by
  simp [checksum, checksumLoop_toNat]

theorem findLastIndexLoop_of_notMem {x : Byte} {s : List Byte} (h : x ∉ s) (i : Nat) (index : Int) :
    findLastIndexLoop x s i index = index := by
  induction s generalizing i with
  | nil => rfl
  | cons c s ih =>
    have hc : c ≠ x := fun he => h (by simp [he])
    rw [findLastIndexLoop, if_neg hc, ih (fun hm => h (by simp [hm]))]

theorem findLastIndexLoop_append {x : Byte} (u t : List Byte) (i : Nat) (index : Int)
    (h : x ∉ t) : findLastIndexLoop x (u ++ x :: t) i index = i + u.length := by
  induction u generalizing i index with
  | nil => simp [findLastIndexLoop, findLastIndexLoop_of_notMem h]
  | cons c u ih =>
    rw [List.cons_append, findLastIndexLoop, ih]
    simp only [List.length_cons, Nat.cast_add, Nat.cast_one]
    omega

theorem findLastIndex_eq (str : List Byte) (x : Byte) :
    findLastIndex str x = (upToLast x (cstr str)).length := by
  by_cases h : x ∈ cstr str
  · obtain ⟨u, t, he, ht⟩ := exists_split_last h
    rw [findLastIndex, he, findLastIndexLoop_append _ _ _ _ ht, upToLast_append_cons ht]
    simp
  · rw [findLastIndex, findLastIndexLoop_of_notMem h, upToLast_of_notMem h]
    rfl

theorem toNat_findLastIndex (packet : List Byte) :
    (findLastIndex packet comma).toNat = (upToLast comma (cstr packet)).length := by
  rw [findLastIndex_eq, Int.toNat_natCast]

theorem packet_eq (packet : List Byte) :
    upToLast comma (cstr packet) ++ (afterLast comma (cstr packet) ++ packet.dropWhile (· != 0)) =
      packet := by
  rw [← List.append_assoc, upToLast_append_afterLast]
  exact List.takeWhile_append_dropWhile

theorem take_findLastIndex (packet : List Byte) :
    packet.take (findLastIndex packet comma).toNat = upToLast comma (cstr packet) := by
  have h : (upToLast comma (cstr packet) ++ (afterLast comma (cstr packet) ++
      packet.dropWhile (· != 0))).take (upToLast comma (cstr packet)).length =
      upToLast comma (cstr packet) := List.take_left
  rwa [packet_eq, ← toNat_findLastIndex] at h

theorem length_trailer (packet : List Byte) :
    (cstr packet).length - (findLastIndex packet comma).toNat =
      (afterLast comma (cstr packet)).length := by
  have h := congrArg List.length (upToLast_append_afterLast comma (cstr packet))
  rw [List.length_append] at h
  rw [toNat_findLastIndex]
  omega

theorem trailer_eq (packet : List Byte) :
    (packet.drop (findLastIndex packet comma).toNat).take
      ((cstr packet).length - (findLastIndex packet comma).toNat) =
        afterLast comma (cstr packet) := by
  have h : (upToLast comma (cstr packet) ++ (afterLast comma (cstr packet) ++
      packet.dropWhile (· != 0))).drop (upToLast comma (cstr packet)).length =
      afterLast comma (cstr packet) ++ packet.dropWhile (· != 0) := List.drop_left
  rw [packet_eq, ← toNat_findLastIndex] at h
  rw [length_trailer, h, List.take_left]

theorem isCRCValid_iff (packetType : Int) (packet : List Byte) :
    isCRCValid packetType packet = true ↔
      (packetType = 7 ∧ afterLast comma (cstr packet) = lit "EOT\r\n") ∨
        atoi (afterLast comma (cstr packet)) =
          (byteSum (upToLast comma (cstr packet)) % 256 : Nat) := by
  simp only [isCRCValid, trailer_eq, checksum_toNat, take_findLastIndex]
  split_ifs with h1 h2
  · simp [h1]
  · simp [h2]
  · simp only [h2, or_false, false_iff]
    exact h1

def digitTrailer (p : List Byte) : Bool := (afterLast comma p).head?.any isDigit

/-- A comma, and after the last one a numeral that is the sum of all bytes
up to that comma. -/
def CarriesChecksum (p : List Byte) : Prop :=
  comma ∈ p ∧ digitTrailer p = true ∧
    numeral (afterLast comma p) = byteSum (upToLast comma p) % 256

/-- The texts that `isCRCValid` takes for a checksum by accident are excluded:
no comma and a number zero or none at all; a trailer that does not begin with a
digit, or that is no `int`, and is read as the sum. -/
def NoFalseMatch (p : List Byte) : Prop :=
  (comma ∉ p → ¬ ReadAs p 0) ∧
  (comma ∈ p → digitTrailer p = false ∨ 2 ^ 31 ≤ numeral (afterLast comma p) →
    ¬ ReadAs (afterLast comma p) (byteSum (upToLast comma p) % 256))

instance (p : List Byte) : Decidable (CarriesChecksum p) := inferInstanceAs (Decidable (_ ∧ _ ∧ _))

instance (p : List Byte) : Decidable (NoFalseMatch p) := inferInstanceAs (Decidable (_ ∧ _))

theorem atoi_of_digitTrailer {p : List Byte} (hd : digitTrailer p = true)
    (hv : numeral (afterLast comma p) < 2 ^ 31) :
    atoi (afterLast comma p) = numeral (afterLast comma p) := by
  cases he : afterLast comma p with
  | nil => simp [digitTrailer, he] at hd
  | cons c s =>
    have hc : isDigit c = true := by simpa [digitTrailer, he] using hd
    exact atoi_of_isDigit hc (he ▸ hv)

/-- Acceptance implies a checksum exactly on the texts without a false match. -/
theorem isCRCValid_sound_iff (packetType : Int) (packet : List Byte) (h7 : packetType ≠ 7) :
    (isCRCValid packetType packet = true → CarriesChecksum (cstr packet)) ↔
      NoFalseMatch (cstr packet) := by
  have hsum : byteSum (upToLast comma (cstr packet)) % 256 < 2 ^ 31 := by omega
  rw [isCRCValid_iff, atoi_eq_iff hsum]
  simp only [h7, false_and, false_or, CarriesChecksum, NoFalseMatch]
  generalize cstr packet = p
  by_cases hc : comma ∈ p
  · cases hd : digitTrailer p with
    | false => simp [hc]
    | true =>
      by_cases hv : numeral (afterLast comma p) < 2 ^ 31
      · have ha := atoi_of_digitTrailer hd hv
        have hr : ReadAs (afterLast comma p) (byteSum (upToLast comma p) % 256) ↔
            numeral (afterLast comma p) = byteSum (upToLast comma p) % 256 := by
          rw [← atoi_eq_iff (by omega), ha, Nat.cast_inj]
        simp only [hr, hc, true_and, imp_self, true_iff, not_true_eq_false, false_implies,
          Bool.true_eq_false, false_or, forall_const]
        exact fun h => absurd hv (by omega)
      · have hne : numeral (afterLast comma p) ≠ byteSum (upToLast comma p) % 256 := by omega
        simp only [hc, hne, not_true_eq_false, and_false, imp_false, forall_const, false_implies,
          not_lt.mp hv, true_and, Bool.true_eq_false, false_or]
  · simp [hc, upToLast_of_notMem hc, afterLast_of_notMem hc, byteSum]

theorem isCRCValid_accepts_bare_zero :
    ¬ ∀ (packetType : Int) (packet : List Byte), packetType ≠ 7 →
      isCRCValid packetType packet = true → CarriesChecksum (cstr packet) := by
  intro h
  exact absurd (h 0 (lit "0" ++ [0]) (by decide) (by decide)) (by decide)

theorem isCRCValid_sound_controller_packet :
    (45 : Int) ≠ 7 ∧
    isCRCValid 45 (lit "45,PIT905,01,01,00,05,04,4,4,4,0,0,0,071" ++ [0]) = true ∧
    CarriesChecksum (cstr (lit "45,PIT905,01,01,00,05,04,4,4,4,0,0,0,071" ++ [0])) := by
  refine ⟨by decide, by decide, ?_⟩
  exact (isCRCValid_sound_iff 45 _ (by decide)).mpr (by decide) (by decide)

/-- A byte before the last comma cannot change in an accepted packet without
the packet being rejected: the boundary between body and trailer stays where
it is, and the sum of the body moves by less than 256. -/
theorem isCRCValid_detects_corruption (packetType packetType' : Int) (packet : List Byte) (i : Nat)
    (v : Byte) (hvalid : isCRCValid packetType packet = true)
    (hshort : (afterLast comma (cstr packet)).length ≤ 4)
    (hi : (i : Int) + 1 < findLastIndex packet comma) (hv : v ≠ 0) (hne : packet[i]? ≠ some v) :
    isCRCValid packetType' (packet.set i v) = false := by
  have hcomma : comma ∈ cstr packet := by
    by_contra hn
    rw [findLastIndex_eq, upToLast_of_notMem hn] at hi
    simp only [List.length_nil, Nat.cast_zero] at hi
    omega
  obtain ⟨u, t, hp, ht⟩ := exists_split_last hcomma
  have hiu : i < u.length := by
    rw [findLastIndex_eq, hp, upToLast_append_cons ht] at hi
    simp only [List.length_append, List.length_singleton, Nat.cast_add, Nat.cast_one] at hi
    omega
  have hic : i < (cstr packet).length := by
    rw [hp, List.length_append]
    omega
  have hset : cstr (packet.set i v) = u.set i v ++ comma :: t := by
    rw [cstr_set hic hv, hp, List.set_append_left _ _ hiu]
  have hui : u[i] ≠ v := by
    have hget : packet[i]? = some u[i] := by
      rw [getElem?_of_lt_length_cstr hic, hp, List.getElem?_append_left hiu,
        List.getElem?_eq_getElem hiu]
    intro he
    exact hne (by rw [hget, he])
  have hEOT : t ≠ lit "EOT\r\n" := by
    rintro rfl
    rw [hp, afterLast_append_cons ht] at hshort
    exact absurd hshort (by decide)
  rw [isCRCValid_iff, hp, afterLast_append_cons ht, upToLast_append_cons ht] at hvalid
  have hsum : atoi t = (byteSum (u ++ [comma]) % 256 : Nat) :=
    hvalid.resolve_left (fun h => hEOT h.2)
  rw [← Bool.not_eq_true, isCRCValid_iff, hset, afterLast_append_cons ht, upToLast_append_cons ht]
  rintro (h | h)
  · exact hEOT h.2
  · have hneq := byteSum_set_ne hiu hui
    rw [hsum, Nat.cast_inj, byteSum_append, byteSum_append] at h
    omega

theorem isCRCValid_detects_new_comma :
    isCRCValid 45 (lit "45,PIT905,01,01,00,05,04,4,4,4,0,0,0,071" ++ [0]) = true ∧
    isCRCValid 7 ((lit "45,PIT905,01,01,00,05,04,4,4,4,0,0,0,071" ++ [0]).set 3 comma) = false := by
  have hvalid : isCRCValid 45 (lit "45,PIT905,01,01,00,05,04,4,4,4,0,0,0,071" ++ [0]) = true := by
    decide
  refine ⟨hvalid, ?_⟩
  exact isCRCValid_detects_corruption 45 7 _ 3 comma hvalid (by decide) (by decide) (by decide)
    (by decide)

end Comlink
