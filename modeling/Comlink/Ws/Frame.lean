import Comlink.Ws.Stream

/-! Frames and their bytes, and the conversation that a peer's frames make. The
receiver accepts exactly the bytes of the conversations that are allowed. -/

namespace Comlink

open CText WireBytes

variable {κ : Type}

inductive LengthForm where
  | seven
  | sixteen
  | sixtyFour
  deriving DecidableEq, Repr

def LengthForm.Fits : LengthForm → Nat → Prop
  | .seven, n => n < 126
  | .sixteen, n => n < 2 ^ 16
  | .sixtyFour, n => n < 2 ^ 63

instance : (form : LengthForm) → (n : Nat) → Decidable (form.Fits n)
  | .seven, n => inferInstanceAs (Decidable (n < 126))
  | .sixteen, n => inferInstanceAs (Decidable (n < 2 ^ 16))
  | .sixtyFour, n => inferInstanceAs (Decidable (n < 2 ^ 63))

/-- A frame on the wire. The length may be written longer than need be, and the
first reserved bit may be set. -/
structure Frame where
  fin : Bool
  rsv1 : Bool
  opcode : Opcode
  key : Option (Fin 4 → Byte)
  form : LengthForm
  payload : List Byte
  fits : form.Fits payload.length
  whole : opcode.isControl = true → fin = true ∧ form = .seven

def LengthForm.bytes (masked : Bool) (n : Nat) : LengthForm → List Byte
  | .seven => [lenByte masked n]
  | .sixteen => lenByte masked 126 :: toBytes 2 n
  | .sixtyFour => lenByte masked 127 :: toBytes 8 n

def keyBytes : Option (Fin 4 → Byte) → List Byte
  | none => []
  | some key => [key 0, key 1, key 2, key 3]

def maskWith : Option (Fin 4 → Byte) → List Byte → List Byte
  | none, p => p
  | some key, p => maskFrom (maskKey key) 0 p

def Frame.head (f : Frame) : List Byte :=
  headerByte f.fin f.rsv1 f.opcode :: (f.form.bytes f.key.isSome f.payload.length ++ keyBytes f.key)

def Frame.encode (f : Frame) : List Byte := f.head ++ maskWith f.key f.payload

section Head

def keyZero : Option (Fin 4 → Byte) → Bool
  | none => true
  | some key => key 0 == 0 && key 1 == 0 && key 2 == 0 && key 3 == 0

/-- The state behind the header of a frame with `n` bytes of payload. -/
def WsRx.ready (ws : WsRx) (key : Option (Fin 4 → Byte)) (n : Nat) : WsRx :=
  { ws with
    parseState := .wsFramePayload
    thisFrameMasked := key.isSome
    rxPacketLength := n
    allZeroNonce := keyZero key
    mask := key.getD ws.mask
    maskIdx := if key.isSome then 0 else ws.maskIdx }

variable {rem : Nat} {env : RxEnv} {take : κ → List Byte → κ} {ws ws' : WsRx} {user : κ} {c : Byte}

theorem byteStep_of_advance (hu : ws.unusable = false) (hd : ws.inData = false)
    (ha : advance env false ws c = .ok (ws', false)) :
    byteStep rem env take (ws, user) c = .ok (ws'.settle, user) := by
  simp only [byteStep, hd, Bool.false_eq_true, if_false, lwsWsRxSm, hu, ha]
  rfl

theorem byteStep_of_spill (hu : ws.unusable = false) (hd : ws.inData = false)
    (ha : advance env false ws c = .ok (ws', true)) :
    byteStep rem env take (ws, user) c =
      (outcome (spill env (streamCallback take) false ws' user)).map fun t =>
        (t.1.settle, t.2) := by
  simp only [byteStep, hd, Bool.false_eq_true, if_false, lwsWsRxSm, hu, ha]

theorem inData_of_parseState (h : ws.parseState ≠ .wsFramePayload) : ws.inData = false := by
  simp [WsRx.inData, h]

theorem byteStep_header (hu : ws.unusable = false) (hs : ws.parseState = .new) {fin : Bool}
    {o : Opcode} (ha : ws.Allows fin o) (rsv1 : Bool) :
    byteStep rem env take (ws, user) (headerByte fin rsv1 o) =
      .ok (ws.opened env.validateUtf8 fin o, user) := by
  have hadv : advance env false ws (headerByte fin rsv1 o) =
      .ok (ws.opened env.validateUtf8 fin o, false) := by
    rw [advance_new hs, handleFirst_ok_iff.mpr ⟨fin, rsv1, o, rfl, ha, rfl⟩]
    rfl
  rw [byteStep_of_advance hu (inData_of_parseState (by simp [hs])) hadv,
    WsRx.settle_of_not_inData (inData_of_parseState (by simp))]

theorem or_lengthByte (a k : Nat) (c : Byte) :
    a * 256 ^ (k + 1) ||| c.toNat <<< (8 * k) = (a * 256 + c.toNat) * 256 ^ k := by
  have hpow : (256 : Nat) ^ k = 2 ^ (8 * k) := by rw [pow_mul]; norm_num
  have ha : a * 256 ^ (k + 1) = (a <<< 8) <<< (8 * k) := by
    rw [Nat.shiftLeft_eq, Nat.shiftLeft_eq, pow_succ, hpow]
    ring
  rw [ha, ← Nat.shiftLeft_or_distrib, ← Nat.shiftLeft_add_eq_or_of_lt c.toNat_lt,
    Nat.shiftLeft_eq, Nat.shiftLeft_eq, hpow]

theorem byteStep_len64 {left : Fin 8} (hu : ws.unusable = false)
    (hs : ws.parseState = .frameHdrLen64 left) (h0 : left ≠ 0) (h7 : left ≠ 7) :
    byteStep rem env take (ws, user) c =
      .ok ({ ws with
        rxPacketLength := ws.rxPacketLength ||| c.toNat <<< (8 * left.val)
        parseState := .frameHdrLen64 (left - 1) }, user) := by
  have hadv : advance env false ws c = .ok ({ ws with
      rxPacketLength := ws.rxPacketLength ||| c.toNat <<< (8 * left.val)
      parseState := .frameHdrLen64 (left - 1) }, false) := by
    rw [advance_frameHdrLen64 hs, frameHdrLen64.eq_def]
    split
    · exact absurd rfl h7
    · exact absurd rfl h0
    · rfl
  rw [byteStep_of_advance hu (inData_of_parseState (by simp [hs])) hadv,
    WsRx.settle_of_not_inData (inData_of_parseState (by simp))]

theorem feed_len64 {k : Nat} (hk : k < 7) (hu : ws.unusable = false)
    (hs : ws.parseState = .frameHdrLen64 ⟨k, by omega⟩) {a : Nat}
    (hr : ws.rxPacketLength = a * 256 ^ (k + 1)) {l : List Byte} (hl : l.length = k + 1) :
    feed rem env take (ws, user) l =
      .ok ((lengthDone { ws with rxPacketLength := a * 256 ^ (k + 1) + ofBytes l }).settle,
        user) := by
  induction k generalizing ws a l with
  | zero =>
    obtain ⟨c, rfl⟩ := List.length_eq_one_iff.mp hl
    have hval : ws.rxPacketLength ||| c.toNat = a * 256 ^ (0 + 1) + ofBytes [c] := by
      have h := or_lengthByte a 0 c
      rw [← hr] at h
      simpa [ofBytes, Nat.pow_succ] using h
    have hadv : advance env false ws c = .ok
        (lengthDone { ws with rxPacketLength := ws.rxPacketLength ||| c.toNat }, false) := by
      rw [advance_frameHdrLen64 hs]
      rfl
    rw [feed_cons, byteStep_of_advance hu (inData_of_parseState (by simp [hs])) hadv, hval]
    rfl
  | succ k ih =>
    obtain ⟨c, l, rfl⟩ := List.exists_cons_of_length_eq_add_one hl
    have hl' : l.length = k + 1 := by simpa using hl
    have hpred : (⟨k + 1, by omega⟩ : Fin 8) - 1 = ⟨k, by omega⟩ := by
      rw [Fin.ext_iff, Fin.sub_def]
      simp only [Fin.val_one]
      omega
    rw [feed_cons, byteStep_len64 hu hs (by simp [Fin.ext_iff]) (by simp [Fin.ext_iff]; omega)]
    simp only [Except.bind, hr, or_lengthByte, hpred]
    have hsum : a * 256 ^ (k + 1 + 1) + ofBytes (c :: l) =
        (a * 256 + c.toNat) * 256 ^ (k + 1) + ofBytes l := by
      rw [ofBytes, hl', pow_succ]
      ring
    rw [hsum]
    refine ih (by omega) ?_ rfl rfl hl'
    exact hu

theorem feed_singleton (s : WsRx × κ) : feed rem env take s [c] = byteStep rem env take s c := by
  rw [feed_cons]
  cases byteStep rem env take s c <;> rfl

theorem topBit_iff (c : Byte) : (c &&& 0x80 != 0) = false ↔ c.toNat < 128 := by
  revert c
  exact forall_byte (by decide +kernel)

theorem feed_sixteen (hu : ws.unusable = false) (hs : ws.parseState = .frameHdrLen16 1)
    {l : List Byte} (hl : l.length = 2) :
    feed rem env take (ws, user) l =
      .ok ((lengthDone { ws with rxPacketLength := ofBytes l }).settle, user) := by
  obtain ⟨b, c, rfl⟩ := List.length_eq_two.mp hl
  have hval : b.toNat <<< 8 ||| c.toNat = ofBytes [b, c] := by
    have h := or_lengthByte b.toNat 0 c
    simpa [ofBytes, Nat.shiftLeft_eq] using h
  have h1 : advance env false ws b = .ok
      ({ ws with rxPacketLength := b.toNat <<< 8, parseState := .frameHdrLen16 0 }, false) := by
    rw [advance_frameHdrLen16 hs]
    rfl
  have h2 : advance env false
      { ws with rxPacketLength := b.toNat <<< 8, parseState := .frameHdrLen16 0 } c =
      .ok (lengthDone { ws with rxPacketLength := ofBytes [b, c] }, false) := by
    rw [advance_frameHdrLen16 rfl, ← hval]
    rfl
  rw [feed_cons, byteStep_of_advance hu (inData_of_parseState (by simp [hs])) h1,
    WsRx.settle_of_not_inData (inData_of_parseState (by simp))]
  exact (feed_singleton _).trans (byteStep_of_advance hu (inData_of_parseState (by simp)) h2)

theorem feed_sixtyFour (hu : ws.unusable = false) (hs : ws.parseState = .frameHdrLen64 7)
    {l : List Byte} (hc : c.toNat < 128) (hl : l.length = 7) :
    feed rem env take (ws, user) (c :: l) =
      .ok ((lengthDone { ws with rxPacketLength := ofBytes (c :: l) }).settle, user) := by
  have hadv : advance env false ws c = .ok
      ({ ws with rxPacketLength := c.toNat * 256 ^ (6 + 1), parseState := .frameHdrLen64 6 },
        false) := by
    rw [advance_frameHdrLen64 hs, frameHdrLen64, (topBit_iff c).mpr hc, Nat.shiftLeft_eq]
    rfl
  rw [feed_cons, byteStep_of_advance hu (inData_of_parseState (by simp [hs])) hadv,
    WsRx.settle_of_not_inData (inData_of_parseState (by simp)), ofBytes, hl]
  refine feed_len64 (show 6 < 7 by omega) ?_ rfl rfl hl
  exact hu

/-- Behind the length, unless the frame is over with it. -/
theorem feed_form {form : LengthForm} {m : Bool} {n : Nat} (hu : ws.unusable = false)
    (hs : ws.parseState = .frameHdrLen) (hf : form.Fits n)
    (hc : ws.opcode.isControl = true → form = .seven)
    (hne : m = true ∨ n ≠ 0 ∨ form ≠ .seven) :
    feed rem env take (ws, user) (form.bytes m n) =
      .ok ((lengthDone { ws with thisFrameMasked := m, rxPacketLength := n }).settle, user) := by
  have hd : ws.inData = false := inData_of_parseState (by simp [hs])
  have hdata : form ≠ .seven → ws.opcode.isControl = false := by
    intro hform
    cases h : ws.opcode.isControl with
    | false => rfl
    | true => exact absurd (hc h) hform
  cases form with
  | seven =>
    have hn : n < 126 := hf
    obtain ⟨hm, hl⟩ := lenByte_fields m (show n < 128 by omega)
    have h126 : lenByte m n &&& 0x7f ≠ 126 := fun he => by
      rw [he] at hl
      exact absurd hl (by simp; omega)
    have h127 : lenByte m n &&& 0x7f ≠ 127 := fun he => by
      rw [he] at hl
      exact absurd hl (by simp; omega)
    have hadv : advance env false ws (lenByte m n) =
        .ok (lengthDone { ws with thisFrameMasked := m, rxPacketLength := n }, false) := by
      simp only [advance_frameHdrLen hs, frameHdrLen, hm, hl, if_neg h126, if_neg h127]
      rw [if_pos]
      rcases hne with rfl | hn0 | hform
      · rfl
      · simp [hn0]
      · exact absurd rfl hform
    rw [LengthForm.bytes, feed_singleton, byteStep_of_advance hu hd hadv]
  | sixteen =>
    obtain ⟨hm, hl⟩ := lenByte_fields m (show 126 < 128 by omega)
    have h126 : lenByte m 126 &&& 0x7f = 126 := UInt8.toNat_inj.mp hl
    have hadv : advance env false ws (lenByte m 126) =
        .ok ({ ws with thisFrameMasked := m, parseState := .frameHdrLen16 1 }, false) := by
      simp [advance_frameHdrLen hs, frameHdrLen, hm, h126, hdata (by simp)]
    rw [LengthForm.bytes, feed_cons, byteStep_of_advance hu hd hadv,
      WsRx.settle_of_not_inData (inData_of_parseState (by simp))]
    refine (feed_sixteen ?_ rfl (length_toBytes 2 n)).trans ?_
    · exact hu
    · rw [ofBytes_toBytes hf]
      rfl
  | sixtyFour =>
    have hn : n < 2 ^ 63 := hf
    obtain ⟨hm, hl⟩ := lenByte_fields m (show 127 < 128 by omega)
    have h127 : lenByte m 127 &&& 0x7f = 127 := UInt8.toNat_inj.mp hl
    have hadv : advance env false ws (lenByte m 127) =
        .ok ({ ws with thisFrameMasked := m, parseState := .frameHdrLen64 7 }, false) := by
      simp [advance_frameHdrLen hs, frameHdrLen, hm, h127, hdata (by simp)]
    have htop : (UInt8.ofNat (n / 256 ^ 7)).toNat < 128 := by
      rw [UInt8.toNat_ofNat']
      omega
    have hval : ofBytes (toBytes 8 n) = n := ofBytes_toBytes (by omega)
    rw [LengthForm.bytes, feed_cons, byteStep_of_advance hu hd hadv,
      WsRx.settle_of_not_inData (inData_of_parseState (by simp))]
    refine (feed_sixtyFour ?_ rfl htop (length_toBytes 7 n)).trans ?_
    · exact hu
    · change Except.ok ((lengthDone { ws with
        thisFrameMasked := m, rxPacketLength := ofBytes (toBytes 8 n) }).settle, user) = _
      rw [hval]

/-- The state behind the key. -/
def WsRx.keyed (ws : WsRx) (key : Fin 4 → Byte) : WsRx :=
  { ws with
    parseState := .wsFramePayload
    mask := key
    allZeroNonce := ws.allZeroNonce && keyZero (some key)
    maskIdx := 0 }

theorem update_key (m key : Fin 4 → Byte) :
    Function.update (Function.update (Function.update (Function.update m 0 (key 0)) 1 (key 1))
      2 (key 2)) 3 (key 3) = key := by
  funext i
  match i with
  | 0 | 1 | 2 | 3 => rfl

theorem feed_key (hu : ws.unusable = false) (hs : ws.parseState = .collectFrameKey 0)
    (key : Fin 4 → Byte) :
    feed rem env take (ws, user) (keyBytes (some key)) =
      if ws.rxPacketLength = 0 then
        (outcome (spill env (streamCallback take) false
          { ws.keyed key with parseState := .new } user)).map fun t => (t.1.settle, t.2)
      else .ok (ws.keyed key, user) := by
  let next (w : WsRx) (i : Fin 4) : WsRx := { w with
    mask := Function.update w.mask i (key i)
    allZeroNonce := w.allZeroNonce && key i == 0
    parseState := .collectFrameKey (i + 1) }
  have hstep : ∀ (w : WsRx) (i : Fin 4), w.unusable = false → w.parseState = .collectFrameKey i →
      i ≠ 3 → byteStep rem env take (w, user) (key i) = .ok (next w i, user) := by
    intro w i hw hi h3
    have hadv : advance env false w (key i) = .ok (next w i, false) := by
      rw [advance_collectFrameKey hi, collectFrameKey.eq_def]
      split
      · exact absurd rfl h3
      · rfl
    rw [byteStep_of_advance hw (inData_of_parseState (by simp [hi])) hadv,
      WsRx.settle_of_not_inData (inData_of_parseState (by simp [next]))]
  let w : WsRx := next (next (next ws 0) 1) 2
  have hthree : feed rem env take (ws, user) [key 0, key 1, key 2] = .ok (w, user) := by
    rw [feed_cons, hstep ws 0 hu hs (by decide)]
    refine (feed_cons _ _ _).trans ?_
    rw [hstep (next ws 0) 1 hu rfl (by decide)]
    refine (feed_singleton _).trans ?_
    rw [hstep (next (next ws 0) 1) 2 hu rfl (by decide)]
  have hkeyed : { w with
      mask := Function.update w.mask 3 (key 3)
      allZeroNonce := w.allZeroNonce && key 3 == 0
      maskIdx := 0
      parseState := .wsFramePayload } = ws.keyed key := by
    simp only [w, next, update_key, WsRx.keyed, keyZero, Bool.and_assoc]
  have hlast : advance env false w (key 3) = .ok (if ws.rxPacketLength = 0 then
      ({ ws.keyed key with parseState := .new }, true) else (ws.keyed key, false)) := by
    rw [advance_collectFrameKey rfl, ← hkeyed]
    rfl
  have hw : w.unusable = false := hu
  have hd : w.inData = false := inData_of_parseState (by simp [w, next])
  rw [show keyBytes (some key) = [key 0, key 1, key 2] ++ [key 3] from rfl, feed_append, hthree]
  refine (feed_singleton _).trans ?_
  by_cases hl : ws.rxPacketLength = 0
  · rw [if_pos hl] at hlast ⊢
    exact byteStep_of_spill hw hd hlast
  · rw [if_neg hl] at hlast ⊢
    have hset : (ws.keyed key).settle = ws.keyed key := WsRx.settle_of_pos hl
    rw [byteStep_of_advance hw hd hlast, hset]

theorem ready_none (hz : ws.allZeroNonce = true) (n : Nat) :
    lengthDone { ws with thisFrameMasked := false, rxPacketLength := n } = ws.ready none n := by
  simp [lengthDone, WsRx.ready, keyZero, hz]

theorem ready_some (hz : ws.allZeroNonce = true) (key : Fin 4 → Byte) (n : Nat) :
    (lengthDone { ws with thisFrameMasked := true, rxPacketLength := n }).keyed key =
      ws.ready (some key) n := by
  simp [lengthDone, WsRx.keyed, WsRx.ready, hz]

/-- What the receiver does with a frame that has no payload. -/
def overAt (env : RxEnv) (take : κ → List Byte → κ) (ws : WsRx) (user : κ) :
    Except Drop (WsRx × κ) :=
  (outcome (spill env (streamCallback take) false { ws with parseState := .new } user)).map
    fun t => (t.1.settle, t.2)

theorem overAt_data (hu : ws.rxUbuf = []) (hc : ws.opcode.isControl = false) :
    overAt env take ws user = .ok ({ ws with parseState := .new }, user) := by
  have hspill : spill env (streamCallback take) false { ws with parseState := .new } user =
      .ok ({ ws with parseState := .new }, user) := by
    cases ho : ws.opcode <;> simp [ho] at hc <;> simp [spill, passUp, hu]
  rw [overAt, hspill]
  rfl

theorem feed_header (hu : ws.unusable = false) (hs : ws.parseState = .frameHdrLen)
    (hz : ws.allZeroNonce = true) (hb : ws.rxUbuf = []) {form : LengthForm}
    {key : Option (Fin 4 → Byte)} {n : Nat} (hf : form.Fits n)
    (hc : ws.opcode.isControl = true → form = .seven) :
    feed rem env take (ws, user) (form.bytes key.isSome n ++ keyBytes key) =
      if n = 0 then overAt env take (ws.ready key n) user else .ok (ws.ready key n, user) := by
  rw [feed_append]
  cases key with
  | some key =>
    rw [Option.isSome_some, feed_form hu hs hf hc (Or.inl rfl)]
    have hparse : (lengthDone { ws with thisFrameMasked := true, rxPacketLength := n }).parseState =
        .collectFrameKey 0 := rfl
    rw [WsRx.settle_of_not_inData (inData_of_parseState (by rw [hparse]; simp))]
    refine (feed_key ?_ hparse key).trans ?_
    · exact hu
    · rw [ready_some hz]
      rfl
  | none =>
    by_cases hn : n = 0
    · subst hn
      rw [if_pos rfl, Option.isSome_none]
      by_cases hform : form = .seven
      · subst hform
        have hadv : advance env false ws (lenByte false 0) =
            .ok ({ ws.ready none 0 with parseState := .new }, true) := by
          obtain ⟨hm, hl⟩ := lenByte_fields false (show 0 < 128 by omega)
          have h0 : lenByte false 0 &&& 0x7f = 0 := UInt8.toNat_inj.mp hl
          simp [advance_frameHdrLen hs, frameHdrLen, hm, h0, WsRx.ready, keyZero, hz]
        have hd : ws.inData = false := inData_of_parseState (by simp [hs])
        rw [LengthForm.bytes, feed_singleton, byteStep_of_spill hu hd hadv, ← overAt]
        cases overAt env take (ws.ready none 0) user <;> rfl
      · -- The state is the payload, of which nothing is to come.
        have hdata : ws.opcode.isControl = false := by
          cases h : ws.opcode.isControl with
          | false => rfl
          | true => exact absurd (hc h) hform
        have hset : (ws.ready none 0).settle = { ws.ready none 0 with parseState := .new } :=
          if_pos ⟨WsRx.inData_iff.mpr ⟨rfl, hdata⟩, rfl⟩
        have hover : overAt env take (ws.ready none 0) user = _ := overAt_data hb hdata
        rw [feed_form hu hs hf hc (Or.inr (Or.inr hform)), ready_none hz, hset, hover]
        rfl
    · have hset : (ws.ready none n).settle = ws.ready none n := WsRx.settle_of_pos hn
      rw [if_neg hn, Option.isSome_none, feed_form hu hs hf hc (Or.inr (Or.inl hn)),
        ready_none hz, hset]
      rfl

end Head

section Control

variable {rem : Nat} {env : RxEnv} {take : κ → List Byte → κ} {ws : WsRx} {user : κ} {c : Byte}

def WsRx.storeAll (ws : WsRx) (p : List Byte) : WsRx := p.foldl WsRx.storeByte ws

theorem storeByte_eq (ws : WsRx) (c : Byte) :
    ws.storeByte c = { ws with
      rxUbuf := ws.rxUbuf ++ ws.unmask [c]
      maskIdx := if ws.allZeroNonce then ws.maskIdx else (ws.maskIdx + 1) % 256
      rxPacketLength := ws.rxPacketLength - 1 } := by
  rw [WsRx.storeByte, WsRx.unmask_eq]
  cases ws.allZeroNonce <;> simp [maskFrom, maskKey]

theorem storeByte_unmask (ws : WsRx) (c : Byte) (p : List Byte) :
    (ws.storeByte c).unmask p = (ws.consume 1).unmask p := by
  rw [storeByte_eq, WsRx.unmask_eq, (ws.consume 1).unmask_eq]
  cases hz : ws.allZeroNonce with
  | true => simp [WsRx.consume, hz]
  | false =>
    simp only [WsRx.consume, hz, Bool.false_eq_true, if_false]
    refine maskFrom_congr p fun n => ?_
    simp only [maskKey, Fin.ofNat]
    congr 2
    omega

theorem storeAll_eq (ws : WsRx) (p : List Byte) :
    ∃ m, ws.storeAll p = { ws with
      rxUbuf := ws.rxUbuf ++ ws.unmask p
      maskIdx := m
      rxPacketLength := ws.rxPacketLength - p.length } := by
  induction p generalizing ws with
  | nil => exact ⟨ws.maskIdx, by simp [WsRx.storeAll, WsRx.unmask_eq, maskFrom]⟩
  | cons c p ih =>
    obtain ⟨m, hm⟩ := ih (ws.storeByte c)
    refine ⟨m, ?_⟩
    have hu : ws.unmask (c :: p) = ws.unmask [c] ++ (ws.storeByte c).unmask p := by
      rw [storeByte_unmask, ← List.singleton_append, WsRx.unmask_append]
      rfl
    rw [WsRx.storeAll, List.foldl_cons]
    change (ws.storeByte c).storeAll p = _
    rw [hm, hu, storeByte_eq, List.length_cons, ← Nat.sub_sub]
    simp [Nat.sub_right_comm]

theorem feed_control (hu : ws.unusable = false) (hs : ws.parseState = .wsFramePayload)
    (hc : ws.opcode.isControl = true) {p : List Byte} (hp : p ≠ [])
    (hl : p.length ≤ ws.rxPacketLength) (hroom : ws.rxUbuf.length + p.length < rxBufferSize) :
    feed rem env take (ws, user) p =
      if p.length = ws.rxPacketLength then overAt env take (ws.storeAll p) user
      else .ok (ws.storeAll p, user) := by
  induction p generalizing ws with
  | nil => exact absurd rfl hp
  | cons c p ih =>
    have hd : ws.inData = false := by simp [WsRx.inData, hc]
    obtain ⟨hkeep, ho', hs'⟩ := storeByte_keeps ws c
    have hu' : (ws.storeByte c).unusable = ws.unusable := congrArg Upkeep.unusable hkeep
    rw [List.length_cons] at hl hroom
    have hadv : advance env false ws c = .ok (if ws.rxPacketLength = 1 then
        ({ ws.storeByte c with parseState := .new }, true) else (ws.storeByte c, false)) := by
      have hnot : ¬ rxUbufAlloc ≤ ws.rxUbuf.length + lwsPre := by
        simp only [rxUbufAlloc]
        omega
      have hlen : (ws.storeByte c).rxUbuf.length ≠ rxBufferSize := by
        rw [storeByte_eq]
        simp only [List.length_append, WsRx.length_unmask, List.length_singleton]
        omega
      have hleft : (ws.storeByte c).rxPacketLength = ws.rxPacketLength - 1 := by rw [storeByte_eq]
      simp only [advance_wsFramePayload hs, framePayload, if_neg hnot, Bool.false_eq_true, if_false,
        hleft]
      by_cases h1 : ws.rxPacketLength = 1
      · rw [if_pos (by omega), if_pos h1]
      · rw [if_neg (by omega), if_neg h1, beq_false_of_ne hlen]
    rw [feed_cons]
    by_cases h1 : ws.rxPacketLength = 1
    · obtain rfl : p = [] := List.length_eq_zero_iff.mp (by omega)
      rw [if_pos h1] at hadv
      rw [byteStep_of_spill hu hd hadv, if_pos (by simp [h1]), ← overAt]
      change _ = overAt env take (ws.storeByte c) user
      cases overAt env take (ws.storeByte c) user <;> rfl
    · rw [if_neg h1] at hadv
      have hd' : (ws.storeByte c).inData = false := by simp [WsRx.inData, ho', hc]
      have hset : (ws.storeByte c).settle = ws.storeByte c := WsRx.settle_of_not_inData hd'
      rw [byteStep_of_advance hu hd hadv, hset]
      change feed rem env take (ws.storeByte c, user) p = _
      by_cases hp' : p = []
      · subst hp'
        rw [if_neg (by simp; omega)]
        rfl
      · have hlen : (ws.storeByte c).rxPacketLength = ws.rxPacketLength - 1 ∧
            (ws.storeByte c).rxUbuf.length = ws.rxUbuf.length + 1 := by
          rw [storeByte_eq]
          simp [WsRx.length_unmask]
        rw [ih (by rw [hu', hu]) (by rw [hs', hs]) (by rw [ho', hc]) hp' (by omega) (by omega),
          hlen.1]
        have hiff : p.length = ws.rxPacketLength - 1 ↔ p.length + 1 = ws.rxPacketLength := by omega
        simp only [hiff, List.length_cons]
        rfl

end Control

end Comlink
