import Comlink.WireBytes

/-! The library's UTF-8 check of text frames. It keeps one byte of state between
the pieces of a message: the range of the next byte and how many bytes follow. -/

namespace Comlink

open CText WireBytes

/-- A state: the least next byte, the number of 16-byte ranges it may lie in,
and the index of the state after it. -/
def utf8State (least ranges more : Byte) : Byte := least ||| ((ranges - 1) <<< 2) ||| more

def e0f4 : List Byte :=
  [utf8State 0xa0 2 1] ++ -- e0
  List.replicate 12 (utf8State 0x80 4 1) ++ -- e1 .. ec
  [utf8State 0x80 2 1] ++ -- ed
  List.replicate 2 (utf8State 0x80 4 1) ++ -- ee, ef
  [utf8State 0x90 3 2] ++ -- f0
  List.replicate 3 (utf8State 0x80 4 2) ++ -- f1 .. f3
  [utf8State 0x80 1 2] ++ -- f4
  [0, utf8State 0x80 4 0, utf8State 0x80 4 1] -- s0, s2, s3

/-- The state after one more byte, `none` for the answer -1. The comparisons
are those of C `int`s. -/
def lwsCheckByteUtf8 (s c : Byte) : Option Byte :=
  if s = 0 then
    if 0x80 ≤ c then
      if c < 0xc2 ∨ 0xf4 < c then none
      else if c < 0xe0 then some (utf8State 0x80 4 0)
      else some (e0f4.getD (c - 0xe0).toNat 0)
    else some s
  else if c.toNat < (s &&& 0xf0).toNat ∨
      (s &&& 0xf0).toNat + 0x10 + ((s <<< 2) &&& 0x30).toNat ≤ c.toNat then none
  else some (e0f4.getD (21 + (s &&& 3).toNat) 0)

def lwsCheckUtf8 : Byte → List Byte → Option Byte
  | s, [] => some s
  | s, c :: buf =>
    match lwsCheckByteUtf8 s c with
    | none => none
    | some s => lwsCheckUtf8 s buf

theorem lwsCheckUtf8_cons (s c : Byte) (buf : List Byte) :
    lwsCheckUtf8 s (c :: buf) = (lwsCheckByteUtf8 s c).bind (lwsCheckUtf8 · buf) := by
  rw [lwsCheckUtf8]
  cases lwsCheckByteUtf8 s c <;> rfl

theorem lwsCheckUtf8_append (s : Byte) (a b : List Byte) :
    lwsCheckUtf8 s (a ++ b) = (lwsCheckUtf8 s a).bind (lwsCheckUtf8 · b) := by
  induction a generalizing s with
  | nil => rfl
  | cons c a ih =>
    rw [List.cons_append, lwsCheckUtf8_cons, lwsCheckUtf8_cons]
    cases lwsCheckByteUtf8 s c with
    | none => rfl
    | some s => exact ih s

theorem foldlM_lwsCheckUtf8 (s : Byte) (pieces : List (List Byte)) :
    pieces.foldlM lwsCheckUtf8 s = lwsCheckUtf8 s pieces.flatten := by
  induction pieces generalizing s with
  | nil => rfl
  | cons p pieces ih =>
    rw [List.foldlM_cons, List.flatten_cons, lwsCheckUtf8_append]
    exact congrArg _ (funext ih)

section Steps

theorem lwsCheckByteUtf8_zero (c : Byte) :
    lwsCheckByteUtf8 0 c =
      if c.toNat < 0x80 then some 0
      else if c.toNat < 0xc2 then none
      else if c.toNat < 0xe0 then some 0x8c
      else if c.toNat = 0xe0 then some 0xa5
      else if c.toNat = 0xed then some 0x85
      else if c.toNat < 0xf0 then some 0x8d
      else if c.toNat = 0xf0 then some 0x9a
      else if c.toNat < 0xf4 then some 0x8e
      else if c.toNat = 0xf4 then some 0x82
      else none := by
  revert c
  exact forall_byte (by decide +kernel)

/-- The state `s` waits for a byte from `lo` up to `hi` and is `next` after it. -/
def Waits (s : Byte) (lo hi : Nat) (next : Byte) : Prop :=
  s ≠ 0 ∧ ∀ c : Byte, lwsCheckByteUtf8 s c = if lo ≤ c.toNat ∧ c.toNat < hi then some next else none

theorem waits_of_state {s : Byte} (hs : s ≠ 0) :
    Waits s (s &&& 0xf0).toNat ((s &&& 0xf0).toNat + 0x10 + ((s <<< 2) &&& 0x30).toNat)
      (e0f4.getD (21 + (s &&& 3).toNat) 0) := by
  refine ⟨hs, fun c => ?_⟩
  rw [lwsCheckByteUtf8, if_neg hs]
  by_cases hc : (s &&& 0xf0).toNat ≤ c.toNat ∧
      c.toNat < (s &&& 0xf0).toNat + 0x10 + ((s <<< 2) &&& 0x30).toNat
  · rw [if_pos hc, if_neg (by omega)]
  · rw [if_neg hc, if_pos (by omega)]

theorem waits_8c : Waits 0x8c 0x80 0xc0 0 := waits_of_state (by decide)
theorem waits_8d : Waits 0x8d 0x80 0xc0 0x8c := waits_of_state (by decide)
theorem waits_8e : Waits 0x8e 0x80 0xc0 0x8d := waits_of_state (by decide)
theorem waits_a5 : Waits 0xa5 0xa0 0xc0 0x8c := waits_of_state (by decide)
theorem waits_85 : Waits 0x85 0x80 0xa0 0x8c := waits_of_state (by decide)
theorem waits_9a : Waits 0x9a 0x90 0xc0 0x8d := waits_of_state (by decide)
theorem waits_82 : Waits 0x82 0x80 0x90 0x8d := waits_of_state (by decide)

variable {s next : Byte} {lo hi : Nat} {t : List Byte}

theorem Waits.cons (hw : Waits s lo hi next) {c : Byte} (hlo : lo ≤ c.toNat) (hhi : c.toNat < hi) :
    lwsCheckUtf8 s (c :: t) = lwsCheckUtf8 next t := by
  rw [lwsCheckUtf8_cons, hw.2, if_pos ⟨hlo, hhi⟩, Option.bind_some]

theorem Waits.exists_cons (hw : Waits s lo hi next) (h : lwsCheckUtf8 s t = some 0) :
    ∃ (c : Byte) (r : List Byte),
      t = c :: r ∧ lo ≤ c.toNat ∧ c.toNat < hi ∧ lwsCheckUtf8 next r = some 0 := by
  cases t with
  | nil => exact absurd (Option.some.inj h) hw.1
  | cons c r =>
    by_cases hc : lo ≤ c.toNat ∧ c.toNat < hi
    · exact ⟨c, r, rfl, hc.1, hc.2, (hw.cons hc.1 hc.2).symm.trans h⟩
    · rw [lwsCheckUtf8_cons, hw.2, if_neg hc] at h
      exact absurd h (by simp)

end Steps

section Characters

variable {b c d e : Byte} {t : List Byte}

theorem lwsCheckUtf8_three (hb : 0xe0 ≤ b.toNat) (hb' : b.toNat < 0xf0)
    (hc : 0x80 ≤ c.toNat) (hc' : c.toNat < 0xc0) (hd : 0x80 ≤ d.toNat) (hd' : d.toNat < 0xc0)
    (he0 : b.toNat = 0xe0 → 0xa0 ≤ c.toNat) (hed : b.toNat = 0xed → c.toNat < 0xa0) :
    lwsCheckUtf8 0 (b :: c :: d :: t) = lwsCheckUtf8 0 t := by
  rw [lwsCheckUtf8_cons, lwsCheckByteUtf8_zero, if_neg (by omega), if_neg (by omega),
    if_neg (by omega)]
  by_cases h0 : b.toNat = 0xe0
  · rw [if_pos h0, Option.bind_some, waits_a5.cons (he0 h0) hc', waits_8c.cons hd hd']
  by_cases hd0 : b.toNat = 0xed
  · rw [if_neg h0, if_pos hd0, Option.bind_some, waits_85.cons hc (hed hd0), waits_8c.cons hd hd']
  · rw [if_neg h0, if_neg hd0, if_pos hb', Option.bind_some, waits_8d.cons hc hc',
      waits_8c.cons hd hd']

theorem lwsCheckUtf8_four (hb : 0xf0 ≤ b.toNat) (hb' : b.toNat < 0xf5)
    (hc : 0x80 ≤ c.toNat) (hc' : c.toNat < 0xc0) (hd : 0x80 ≤ d.toNat) (hd' : d.toNat < 0xc0)
    (he : 0x80 ≤ e.toNat) (he' : e.toNat < 0xc0)
    (hf0 : b.toNat = 0xf0 → 0x90 ≤ c.toNat) (hf4 : b.toNat = 0xf4 → c.toNat < 0x90) :
    lwsCheckUtf8 0 (b :: c :: d :: e :: t) = lwsCheckUtf8 0 t := by
  rw [lwsCheckUtf8_cons, lwsCheckByteUtf8_zero, if_neg (by omega), if_neg (by omega),
    if_neg (by omega), if_neg (by omega), if_neg (by omega), if_neg (by omega)]
  by_cases h0 : b.toNat = 0xf0
  · rw [if_pos h0, Option.bind_some, waits_9a.cons (hf0 h0) hc', waits_8d.cons hd hd',
      waits_8c.cons he he']
  by_cases h4 : b.toNat = 0xf4
  · rw [if_neg h0, if_neg (by omega), if_pos h4, Option.bind_some, waits_82.cons hc (hf4 h4),
      waits_8d.cons hd hd', waits_8c.cons he he']
  · rw [if_neg h0, if_pos (by omega), Option.bind_some, waits_8e.cons hc hc',
      waits_8d.cons hd hd', waits_8c.cons he he']

theorem lwsCheckUtf8_encodeChar (ch : Char) (t : List Byte) :
    lwsCheckUtf8 0 (String.utf8EncodeChar ch ++ t) = lwsCheckUtf8 0 t := by
  have hv : ch.val.toNat < 0xd800 ∨ 0xdfff < ch.val.toNat ∧ ch.val.toNat < 0x110000 := ch.valid
  simp only [String.utf8EncodeChar]
  generalize ch.val.toNat = v at hv
  split_ifs with h1 h2 h3
  · rw [List.singleton_append, lwsCheckUtf8_cons, lwsCheckByteUtf8_zero, UInt8.toNat_ofNat',
      if_pos (by omega), Option.bind_some]
  · rw [List.cons_append, List.singleton_append, lwsCheckUtf8_cons, lwsCheckByteUtf8_zero,
      UInt8.toNat_ofNat', if_neg (by omega), if_neg (by omega), if_pos (by omega),
      Option.bind_some, waits_8c.cons] <;> rw [UInt8.toNat_ofNat'] <;> omega
  · apply lwsCheckUtf8_three <;> simp only [UInt8.toNat_ofNat'] <;> omega
  · apply lwsCheckUtf8_four <;> simp only [UInt8.toNat_ofNat'] <;> omega

theorem exists_char {v : Nat} (h : v < 0xd800 ∨ 0xdfff < v ∧ v < 0x110000) :
    ∃ ch : Char, ch.val.toNat = v := by
  have hval : (UInt32.ofNat v).toNat = v := by
    rw [UInt32.toNat_ofNat']
    omega
  have hv : (UInt32.ofNat v).toNat.isValidChar := by
    rw [hval]
    exact h
  exact ⟨⟨UInt32.ofNat v, hv⟩, hval⟩

theorem encodeChar_one (hb : b.toNat < 0x80) : ∃ ch, String.utf8EncodeChar ch = [b] := by
  obtain ⟨ch, hch⟩ := exists_char (v := b.toNat) (by omega)
  refine ⟨ch, ?_⟩
  simp only [String.utf8EncodeChar, hch]
  rw [if_pos (by omega), UInt8.ofNat_toNat]

theorem encodeChar_two (hb : 0xc2 ≤ b.toNat) (hb' : b.toNat < 0xe0)
    (hc : 0x80 ≤ c.toNat) (hc' : c.toNat < 0xc0) :
    ∃ ch, String.utf8EncodeChar ch = [b, c] := by
  obtain ⟨ch, hch⟩ := exists_char (v := (b.toNat - 0xc0) * 64 + (c.toNat - 0x80)) (by omega)
  refine ⟨ch, ?_⟩
  simp only [String.utf8EncodeChar, hch]
  rw [if_neg (by omega), if_pos (by omega)]
  simp only [List.cons.injEq, ← UInt8.toNat_inj, UInt8.toNat_ofNat', and_true]
  omega

theorem encodeChar_three (hb : 0xe0 ≤ b.toNat) (hb' : b.toNat < 0xf0)
    (hc : 0x80 ≤ c.toNat) (hc' : c.toNat < 0xc0) (hd : 0x80 ≤ d.toNat) (hd' : d.toNat < 0xc0)
    (he0 : b.toNat = 0xe0 → 0xa0 ≤ c.toNat) (hed : b.toNat = 0xed → c.toNat < 0xa0) :
    ∃ ch, String.utf8EncodeChar ch = [b, c, d] := by
  obtain ⟨ch, hch⟩ := exists_char
    (v := (b.toNat - 0xe0) * 4096 + (c.toNat - 0x80) * 64 + (d.toNat - 0x80)) (by omega)
  refine ⟨ch, ?_⟩
  simp only [String.utf8EncodeChar, hch]
  rw [if_neg (by omega), if_neg (by omega), if_pos (by omega)]
  simp only [List.cons.injEq, ← UInt8.toNat_inj, UInt8.toNat_ofNat', and_true]
  omega

theorem encodeChar_four (hb : 0xf0 ≤ b.toNat) (hb' : b.toNat < 0xf5)
    (hc : 0x80 ≤ c.toNat) (hc' : c.toNat < 0xc0) (hd : 0x80 ≤ d.toNat) (hd' : d.toNat < 0xc0)
    (he : 0x80 ≤ e.toNat) (he' : e.toNat < 0xc0)
    (hf0 : b.toNat = 0xf0 → 0x90 ≤ c.toNat) (hf4 : b.toNat = 0xf4 → c.toNat < 0x90) :
    ∃ ch, String.utf8EncodeChar ch = [b, c, d, e] := by
  obtain ⟨ch, hch⟩ := exists_char
    (v := (b.toNat - 0xf0) * 262144 + (c.toNat - 0x80) * 4096 + (d.toNat - 0x80) * 64 +
      (e.toNat - 0x80)) (by omega)
  refine ⟨ch, ?_⟩
  simp only [String.utf8EncodeChar, hch]
  rw [if_neg (by omega), if_neg (by omega), if_neg (by omega)]
  simp only [List.cons.injEq, ← UInt8.toNat_inj, UInt8.toNat_ofNat', and_true]
  omega

variable {s : Byte} {lo hi : Nat}

theorem exists_encodeChar_three (hw : Waits s lo hi 0x8c) (h : lwsCheckUtf8 s t = some 0)
    (hb : 0xe0 ≤ b.toNat) (hb' : b.toNat < 0xf0) (hlo : 0x80 ≤ lo) (hhi : hi ≤ 0xc0)
    (he0 : b.toNat = 0xe0 → 0xa0 ≤ lo) (hed : b.toNat = 0xed → hi ≤ 0xa0) :
    ∃ ch r, b :: t = String.utf8EncodeChar ch ++ r ∧ lwsCheckUtf8 0 r = some 0 := by
  obtain ⟨c, _, rfl, hc, hc', h⟩ := hw.exists_cons h
  obtain ⟨d, r, rfl, hd, hd', h⟩ := waits_8c.exists_cons h
  obtain ⟨ch, hch⟩ := encodeChar_three hb hb' (by omega) (by omega) hd hd'
    (fun hz => (he0 hz).trans hc) (fun hz => hc'.trans_le (hed hz))
  exact ⟨ch, r, by rw [hch]; rfl, h⟩

theorem exists_encodeChar_four (hw : Waits s lo hi 0x8d) (h : lwsCheckUtf8 s t = some 0)
    (hb : 0xf0 ≤ b.toNat) (hb' : b.toNat < 0xf5) (hlo : 0x80 ≤ lo) (hhi : hi ≤ 0xc0)
    (hf0 : b.toNat = 0xf0 → 0x90 ≤ lo) (hf4 : b.toNat = 0xf4 → hi ≤ 0x90) :
    ∃ ch r, b :: t = String.utf8EncodeChar ch ++ r ∧ lwsCheckUtf8 0 r = some 0 := by
  obtain ⟨c, _, rfl, hc, hc', h⟩ := hw.exists_cons h
  obtain ⟨d, _, rfl, hd, hd', h⟩ := waits_8d.exists_cons h
  obtain ⟨e, r, rfl, he, he', h⟩ := waits_8c.exists_cons h
  obtain ⟨ch, hch⟩ := encodeChar_four hb hb' (by omega) (by omega) hd hd' he he'
    (fun hz => (hf0 hz).trans hc) (fun hz => hc'.trans_le (hf4 hz))
  exact ⟨ch, r, by rw [hch]; rfl, h⟩

theorem exists_encodeChar (h : lwsCheckUtf8 0 (b :: t) = some 0) :
    ∃ ch r, b :: t = String.utf8EncodeChar ch ++ r ∧ lwsCheckUtf8 0 r = some 0 := by
  rw [lwsCheckUtf8_cons, lwsCheckByteUtf8_zero] at h
  split_ifs at h with h1 h2 h3 h4 h5 h6 h7 h8 h9
  · obtain ⟨ch, hch⟩ := encodeChar_one h1
    exact ⟨ch, t, by rw [hch]; rfl, h⟩
  · exact absurd h (by simp)
  · obtain ⟨c, r, rfl, hc, hc', h⟩ := waits_8c.exists_cons h
    obtain ⟨ch, hch⟩ := encodeChar_two (by omega) h3 hc hc'
    exact ⟨ch, r, by rw [hch]; rfl, h⟩
  · apply exists_encodeChar_three waits_a5 h <;> omega
  · apply exists_encodeChar_three waits_85 h <;> omega
  · apply exists_encodeChar_three waits_8d h <;> omega
  · apply exists_encodeChar_four waits_9a h <;> omega
  · apply exists_encodeChar_four waits_8e h <;> omega
  · apply exists_encodeChar_four waits_82 h <;> omega
  · exact absurd h (by simp)

end Characters

def IsUtf8 (t : List Byte) : Prop := ∃ text : List Char, t = text.flatMap String.utf8EncodeChar

theorem lwsCheckUtf8_eq_zero_iff (t : List Byte) : lwsCheckUtf8 0 t = some 0 ↔ IsUtf8 t := by
  constructor
  · intro h
    induction hn : t.length using Nat.strong_induction_on generalizing t with
    | _ n ih =>
      cases t with
      | nil => exact ⟨[], rfl⟩
      | cons b t =>
        obtain ⟨ch, r, ht, hr⟩ := exists_encodeChar h
        have hlen := congrArg List.length ht
        have hpos := List.length_pos_iff.mpr (String.utf8EncodeChar_ne_nil (c := ch))
        rw [List.length_append] at hlen
        obtain ⟨text, htext⟩ := ih r.length (by omega) r hr rfl
        exact ⟨ch :: text, by rw [ht, htext, List.flatMap_cons]⟩
  · rintro ⟨text, rfl⟩
    induction text with
    | nil => rfl
    | cons ch text ih => rw [List.flatMap_cons, lwsCheckUtf8_encodeChar, ih]

def utf8States : List Byte := [0, 0x8c, 0x8d, 0x8e, 0xa5, 0x85, 0x9a, 0x82]

theorem Waits.next_mem {s next s' c : Byte} {lo hi : Nat} (hw : Waits s lo hi next)
    (hn : next ∈ utf8States) (h : lwsCheckByteUtf8 s c = some s') : s' ∈ utf8States := by
  rw [hw.2] at h
  split_ifs at h
  rwa [← Option.some.inj h]

theorem lwsCheckByteUtf8_mem {s s' c : Byte} (hs : s ∈ utf8States)
    (h : lwsCheckByteUtf8 s c = some s') : s' ∈ utf8States := by
  simp only [utf8States, List.mem_cons, List.not_mem_nil, or_false] at hs
  rcases hs with rfl | rfl | rfl | rfl | rfl | rfl | rfl | rfl
  · rw [lwsCheckByteUtf8_zero] at h
    split_ifs at h <;> rw [← Option.some.inj h] <;> decide
  · exact waits_8c.next_mem (by decide) h
  · exact waits_8d.next_mem (by decide) h
  · exact waits_8e.next_mem (by decide) h
  · exact waits_a5.next_mem (by decide) h
  · exact waits_85.next_mem (by decide) h
  · exact waits_9a.next_mem (by decide) h
  · exact waits_82.next_mem (by decide) h

theorem lwsCheckUtf8_mem {s s' : Byte} {t : List Byte} (hs : s ∈ utf8States)
    (h : lwsCheckUtf8 s t = some s') : s' ∈ utf8States := by
  induction t generalizing s with
  | nil => rwa [← Option.some.inj h]
  | cons c t ih =>
    rw [lwsCheckUtf8_cons, Option.bind_eq_some_iff] at h
    obtain ⟨s₁, h₁, h⟩ := h
    exact ih (lwsCheckByteUtf8_mem hs h₁) h

/-- No state is stuck: some bytes complete the character it is in. -/
theorem exists_completion {s : Byte} (hs : s ∈ utf8States) :
    ∃ t, lwsCheckUtf8 s t = some 0 := by
  simp only [utf8States, List.mem_cons, List.not_mem_nil, or_false] at hs
  rcases hs with rfl | rfl | rfl | rfl | rfl | rfl | rfl | rfl
  · exact ⟨[], by decide⟩
  · exact ⟨[0x80], by decide⟩
  · exact ⟨[0x80, 0x80], by decide⟩
  · exact ⟨[0x80, 0x80, 0x80], by decide⟩
  · exact ⟨[0xa0, 0x80], by decide⟩
  · exact ⟨[0x80, 0x80], by decide⟩
  · exact ⟨[0x90, 0x80, 0x80], by decide⟩
  · exact ⟨[0x80, 0x80, 0x80], by decide⟩

/-- The check refuses what no further bytes could complete. -/
theorem lwsCheckUtf8_eq_none_iff (t : List Byte) :
    lwsCheckUtf8 0 t = none ↔ ∀ more, ¬ IsUtf8 (t ++ more) := by
  constructor
  · intro h more hm
    rw [← lwsCheckUtf8_eq_zero_iff, lwsCheckUtf8_append, h] at hm
    exact absurd hm (by simp)
  · intro h
    cases hc : lwsCheckUtf8 0 t with
    | none => rfl
    | some s =>
      obtain ⟨more, hmore⟩ := exists_completion (lwsCheckUtf8_mem (by decide) hc)
      refine absurd ?_ (h more)
      rw [← lwsCheckUtf8_eq_zero_iff, lwsCheckUtf8_append, hc]
      exact hmore

/-- Over the pieces of a text: the check is back at its start exactly behind
UTF-8 text, and it refuses exactly what no further bytes could complete. -/
theorem lwsCheckUtf8_of_pieces (pieces : List (List Byte)) :
    (pieces.foldlM lwsCheckUtf8 0 = some 0 ↔ IsUtf8 pieces.flatten) ∧
      (pieces.foldlM lwsCheckUtf8 0 = none ↔ ∀ more, ¬ IsUtf8 (pieces.flatten ++ more)) := by
  rw [foldlM_lwsCheckUtf8]
  exact ⟨lwsCheckUtf8_eq_zero_iff _, lwsCheckUtf8_eq_none_iff _⟩

end Comlink
