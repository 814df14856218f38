import Comlink.Ws.Parse

/-! The header of a frame as the receiver reads it: which bytes it accepts in which
state, and the state they lead to. -/

namespace Comlink

open CText WireBytes

section Bytes

@[simp] theorem isControl_continuation : Opcode.continuation.isControl = false := rfl
@[simp] theorem isControl_text : Opcode.text.isControl = false := rfl
@[simp] theorem isControl_binary : Opcode.binary.isControl = false := rfl
@[simp] theorem isControl_close : Opcode.close.isControl = true := rfl
@[simp] theorem isControl_ping : Opcode.ping.isControl = true := rfl
@[simp] theorem isControl_pong : Opcode.pong.isControl = true := rfl

def headerByte (fin rsv1 : Bool) (o : Opcode) : Byte :=
  (if fin then 0x80 else 0) ||| (if rsv1 then 0x40 else 0) ||| o.code

def lenByte (masked : Bool) (n : Nat) : Byte := UInt8.ofNat n ||| if masked then 0x80 else 0

theorem headerByte_fields (fin rsv1 : Bool) (o : Opcode) :
    ((headerByte fin rsv1 o >>> 7) &&& 1 != 0) = fin ∧
      Opcode.ofCode (headerByte fin rsv1 o &&& 0xf) = some o ∧
      ((headerByte fin rsv1 o &&& 0xf) &&& 8 != 0) = o.isControl ∧
      ((headerByte fin rsv1 o &&& 0x70) &&& ~~~0x40 != 0) = false := by
  cases fin <;> cases rsv1 <;> cases o <;> decide

theorem eq_headerByte {c : Byte} {o : Opcode} (ho : Opcode.ofCode (c &&& 0xf) = some o)
    (hr : ((c &&& 0x70) &&& ~~~0x40 != 0) = false) :
    ∃ rsv1, c = headerByte ((c >>> 7) &&& 1 != 0) rsv1 o := by
  have h : ∀ (c : Byte) (o : Opcode), Opcode.ofCode (c &&& 0xf) = some o →
      ((c &&& 0x70) &&& ~~~0x40 != 0) = false →
      c = headerByte ((c >>> 7) &&& 1 != 0) (c &&& 0x40 != 0) o := by
    intro c o
    revert c
    cases o <;> exact forall_byte (by decide +kernel)
  exact ⟨_, h c o ho hr⟩

theorem byte_fields (c : Byte) :
    ((c >>> 7) &&& 1 != 0) = (c &&& 0x80 != 0) ∧ ((c &&& 0xf) &&& 8 != 0) = (c &&& 8 != 0) ∧
      ((c &&& 0x70) &&& ~~~0x40 != 0) = (c &&& 0x30 != 0) := by
  revert c
  exact forall_byte (by decide +kernel)

theorem ofCode_control {c : Byte} {o : Opcode} (h : Opcode.ofCode (c &&& 0xf) = some o) :
    (c &&& 8 != 0) = o.isControl := by
  have hall : ∀ (c : Byte) (o : Opcode), Opcode.ofCode (c &&& 0xf) = some o →
      (c &&& 8 != 0) = o.isControl := by
    intro c o
    revert c
    cases o <;> exact forall_byte (by decide +kernel)
  exact hall c o h

theorem lenByte_fields (masked : Bool) {n : Nat} (hn : n < 128) :
    (lenByte masked n &&& 0x80 != 0) = masked ∧ (lenByte masked n &&& 0x7f).toNat = n := by
  have h : ∀ (masked : Bool) (n : Fin 128),
      (lenByte masked n &&& 0x80 != 0) = masked ∧ (lenByte masked n &&& 0x7f).toNat = n := by
    decide +kernel
  exact h masked ⟨n, hn⟩

end Bytes

section First

/-- The frame may follow: messages do not overlap, a continuation has something to
continue, and a control frame is not fragmented. -/
def WsRx.Allows (ws : WsRx) (fin : Bool) : Opcode → Prop
  | .text | .binary => ws.continuationPossible = false ∧ ws.owedAFin = false
  | .continuation => ws.continuationPossible = true
  | .close | .ping | .pong => fin = true

/-- The state behind the first byte of a frame that may follow. -/
def WsRx.opened (ws : WsRx) (validateUtf8 fin : Bool) (o : Opcode) : WsRx :=
  let ws := { ws with parseState := .frameHdrLen, opcode := o, final := fin, allZeroNonce := true }
  match o with
  | .text =>
    { ws with
      firstFragment := true
      continuationPossible := !fin
      owedAFin := !fin
      checkUtf8 := validateUtf8 }
  | .binary =>
    { ws with
      firstFragment := true
      continuationPossible := !fin
      owedAFin := !fin
      checkUtf8 := false }
  | .continuation => { ws with continuationPossible := !fin, owedAFin := !fin }
  | .close => { ws with checkUtf8 := false, utf8 := 0 }
  | .ping | .pong => ws

variable {env : RxEnv} {ws ws' : WsRx} {v : Bool} {c : Byte}

@[simp] theorem refuse_ne_ok {α : Type} {a : α} (ws : WsRx) (reason : Drop) :
    ws.refuse reason ≠ .ok a := by
  rw [WsRx.refuse]
  cases reason.closeReason <;> simp

theorem openFrame_ok_iff :
    openFrame v ws = .ok ws' ↔
      match ws.opcode with
      | .text => ws.continuationPossible = false ∧ ws' =
        { ws with checkUtf8 := v, firstFragment := true, continuationPossible := !ws.final }
      | .binary => ws.continuationPossible = false ∧ ws' =
        { ws with checkUtf8 := false, firstFragment := true, continuationPossible := !ws.final }
      | .continuation => ws.continuationPossible = true ∧ ws' = ws
      | .close => ws' = { ws with checkUtf8 := false, utf8 := 0 }
      | .ping | .pong => ws' = ws := by
  cases ho : ws.opcode <;> cases hc : ws.continuationPossible <;>
    simp [openFrame, ho, hc, eq_comm (a := ws')]

theorem closeFirst_ok_iff {rsv : Byte} :
    closeFirst ws rsv = .ok ws' ↔
      (rsv &&& ~~~0x40 != 0) = false ∧
      (ws.owedAFin = true → ws.opcode ≠ .text ∧ ws.opcode ≠ .binary) ∧ ws' =
        { ws with
          parseState := .frameHdrLen
          continuationPossible := ws.continuationPossible && (ws.opcode.isControl || !ws.final)
          owedAFin := if ws.final then ws.owedAFin && ws.opcode.isControl else true } := by
  cases hr : (rsv &&& ~~~0x40 != 0) <;> cases hf : ws.final <;> cases ho : ws.owedAFin <;>
    cases hc : ws.opcode <;> simp [closeFirst, hr, hf, ho, hc, eq_comm (a := ws')]

theorem handleFirst_ok_iff :
    handleFirst v { ws with allZeroNonce := true } c = .ok ws' ↔
      ∃ fin rsv1 o, c = headerByte fin rsv1 o ∧ ws.Allows fin o ∧ ws' = ws.opened v fin o := by
  constructor
  · intro h
    simp only [handleFirst] at h
    split_ifs at h with hfrag
    · exact absurd h (refuse_ne_ok _ _)
    cases ho : Opcode.ofCode (c &&& 0xf) with
    | none => exact absurd (by simpa only [ho] using h) (refuse_ne_ok _ _)
    | some o =>
      simp only [ho] at h
      generalize hopen : openFrame v _ = opened at h
      cases opened with
      | error e => exact absurd h (by simp)
      | ok ws₁ =>
        obtain ⟨hr, howed, rfl⟩ := closeFirst_ok_iff.mp h
        obtain ⟨rsv1, hc⟩ := eq_headerByte ho hr
        refine ⟨_, rsv1, o, hc, ?_⟩
        have hctl : ((c &&& 0xf) &&& 8 != 0) = o.isControl := by
          rw [hc]
          exact (headerByte_fields _ rsv1 o).2.2.1
        rw [hctl] at hfrag
        rw [openFrame_ok_iff] at hopen
        generalize ((c >>> 7) &&& 1 != 0) = fin at hopen hfrag
        cases o with
        | text | binary =>
          obtain ⟨hcont, rfl⟩ := hopen
          replace hcont : ws.continuationPossible = false := hcont
          have hno : ws.owedAFin = false := by simpa using howed
          cases fin <;> simp [WsRx.Allows, WsRx.opened, hcont, hno]
        | continuation =>
          obtain ⟨hcont, rfl⟩ := hopen
          replace hcont : ws.continuationPossible = true := hcont
          cases fin <;> simp [WsRx.Allows, WsRx.opened, hcont]
        | close | ping | pong =>
          obtain rfl := hopen
          obtain rfl : fin = true := by simpa using hfrag
          simp [WsRx.Allows, WsRx.opened]
  · rintro ⟨fin, rsv1, o, rfl, ha, rfl⟩
    obtain ⟨hf, ho, hc, hr⟩ := headerByte_fields fin rsv1 o
    simp only [handleFirst, hf, ho, hc]
    cases o with
    | text | binary =>
      obtain ⟨hcont, howed⟩ : ws.continuationPossible = false ∧ ws.owedAFin = false := ha
      cases fin <;> simp [openFrame, closeFirst, WsRx.opened, hcont, howed, hr]
    | continuation =>
      have hcont : ws.continuationPossible = true := ha
      cases fin <;> simp [openFrame, closeFirst, WsRx.opened, hcont, hr]
    | close | ping | pong =>
      obtain rfl : fin = true := ha
      simp [openFrame, closeFirst, WsRx.opened, hr]

theorem handleFirst_badCont {o : Opcode} (ho : Opcode.ofCode (c &&& 0xf) = some o)
    (hd : o.isControl = false) (hs : ws.continuationPossible ≠ decide (o = .continuation)) :
    ∃ ws', handleFirst v { ws with allZeroNonce := true } c = .error (.badCont, ws') := by
  simp only [handleFirst, (byte_fields c).2.1, ofCode_control ho, ho, hd]
  cases o with
  | text | binary =>
    have hcont : ws.continuationPossible = true := by simpa using hs
    simp [openFrame, hcont, WsRx.refuse, Drop.closeReason]
  | continuation =>
    have hcont : ws.continuationPossible = false := by simpa using hs
    simp [openFrame, hcont, WsRx.refuse, Drop.closeReason]
  | close | ping | pong => simp at hd

@[simp] theorem opened_rxUbuf (ws : WsRx) (v fin : Bool) (o : Opcode) :
    (ws.opened v fin o).rxUbuf = ws.rxUbuf := by
  cases o <;> rfl

@[simp] theorem opened_unusable (ws : WsRx) (v fin : Bool) (o : Opcode) :
    (ws.opened v fin o).unusable = ws.unusable := by
  cases o <;> rfl

@[simp] theorem opened_parseState (ws : WsRx) (v fin : Bool) (o : Opcode) :
    (ws.opened v fin o).parseState = .frameHdrLen := by
  cases o <;> rfl

@[simp] theorem opened_opcode (ws : WsRx) (v fin : Bool) (o : Opcode) :
    (ws.opened v fin o).opcode = o := by
  cases o <;> rfl

end First

section Advance

/-- The fields of the pong and of the closing handshake, which no byte within a frame
changes. -/
structure Upkeep where
  lwsiState : LwsiState
  unusable : Bool
  peerHasSentClose : Bool
  payloadIsClose : Bool
  pingPendingFlag : Bool
  pingPayloadBuf : List Byte
  pingPayloadLen : Nat
  closeInPingBufferLen : Nat

def WsRx.upkeep (ws : WsRx) : Upkeep where
  lwsiState := ws.lwsiState
  unusable := ws.unusable
  peerHasSentClose := ws.peerHasSentClose
  payloadIsClose := ws.payloadIsClose
  pingPendingFlag := ws.pingPendingFlag
  pingPayloadBuf := ws.pingPayloadBuf
  pingPayloadLen := ws.pingPayloadLen
  closeInPingBufferLen := ws.closeInPingBufferLen

variable {env : RxEnv} {ignoreChar b : Bool} {ws ws' : WsRx} {c : Byte}

theorem advance_new (hs : ws.parseState = .new) :
    advance env ignoreChar ws c =
      (handleFirst env.validateUtf8 { ws with allZeroNonce := true } c).map (·, false) := by
  rw [advance, hs]

theorem advance_frameHdrLen (hs : ws.parseState = .frameHdrLen) :
    advance env ignoreChar ws c = frameHdrLen ws c := by
  rw [advance, hs]

theorem advance_frameHdrLen16 {left : Fin 2} (hs : ws.parseState = .frameHdrLen16 left) :
    advance env ignoreChar ws c = .ok (frameHdrLen16 ws c left, false) := by
  rw [advance, hs]

theorem advance_frameHdrLen64 {left : Fin 8} (hs : ws.parseState = .frameHdrLen64 left) :
    advance env ignoreChar ws c = (frameHdrLen64 ws c left).map (·, false) := by
  rw [advance, hs]

theorem advance_collectFrameKey {i : Fin 4} (hs : ws.parseState = .collectFrameKey i) :
    advance env ignoreChar ws c = .ok (collectFrameKey ws c i) := by
  rw [advance, hs]

theorem advance_wsFramePayload (hs : ws.parseState = .wsFramePayload) :
    advance env ignoreChar ws c = framePayload ignoreChar ws c := by
  rw [advance, hs]

theorem frameHdrLen_long (ws : WsRx) (m : Bool) {n : Nat} (hn : n = 126 ∨ n = 127) :
    frameHdrLen ws (lenByte m n) =
      if ws.opcode.isControl then { ws with thisFrameMasked := m }.refuse .illegalCtlLength
      else .ok ({ ws with
        thisFrameMasked := m
        parseState := if n = 126 then .frameHdrLen16 1 else .frameHdrLen64 7 }, false) := by
  obtain ⟨hm, hl⟩ := lenByte_fields m (show n < 128 by omega)
  have hfield : lenByte m n &&& 0x7f = UInt8.ofNat n := by
    conv_rhs => rw [← hl, UInt8.ofNat_toNat]
  rcases hn with rfl | rfl <;> simp [frameHdrLen, hm, hfield]

theorem map_spill_eq_ok {α ε : Type} {x : Except ε α} {a : α} {b : Bool}
    (h : x.map (·, false) = .ok (a, b)) : x = .ok a ∧ b = false := by
  cases x with
  | error e => simp [Except.map] at h
  | ok y =>
    obtain ⟨rfl, rfl⟩ := Prod.mk.inj (Except.ok.inj h)
    exact ⟨rfl, rfl⟩

theorem opened_upkeep (ws : WsRx) (v fin : Bool) (o : Opcode) :
    (ws.opened v fin o).upkeep = ws.upkeep := by
  cases o <;> rfl

theorem frameHdrLen_keeps (h : frameHdrLen ws c = .ok (ws', b)) :
    ws'.upkeep = ws.upkeep ∧ ws'.rxUbuf = ws.rxUbuf := by
  simp only [frameHdrLen] at h
  split_ifs at h <;> first
    | exact absurd h (refuse_ne_ok _ _)
    | (obtain ⟨rfl, -⟩ := Prod.mk.inj (Except.ok.inj h); exact ⟨rfl, rfl⟩)

theorem frameHdrLen64_keeps {left : Fin 8} (h : frameHdrLen64 ws c left = .ok ws') :
    ws'.upkeep = ws.upkeep ∧ ws'.rxUbuf = ws.rxUbuf := by
  unfold frameHdrLen64 at h
  split at h
  · split_ifs at h
    · exact absurd h (refuse_ne_ok _ _)
    · obtain rfl := Except.ok.inj h
      exact ⟨rfl, rfl⟩
  · obtain rfl := Except.ok.inj h
    exact ⟨rfl, rfl⟩
  · obtain rfl := Except.ok.inj h
    exact ⟨rfl, rfl⟩

theorem collectFrameKey_keeps (ws : WsRx) (c : Byte) (i : Fin 4) :
    (collectFrameKey ws c i).1.upkeep = ws.upkeep ∧
      (collectFrameKey ws c i).1.rxUbuf = ws.rxUbuf := by
  simp only [collectFrameKey]
  split
  · split_ifs <;> exact ⟨rfl, rfl⟩
  · exact ⟨rfl, rfl⟩

theorem advance_header_keeps (hs : ws.parseState ≠ .wsFramePayload)
    (h : advance env ignoreChar ws c = .ok (ws', b)) :
    ws'.upkeep = ws.upkeep ∧ ws'.rxUbuf = ws.rxUbuf := by
  cases hp : ws.parseState with
  | wsFramePayload => exact absurd hp hs
  | new =>
    rw [advance_new hp] at h
    obtain ⟨fin, rsv1, o, -, -, rfl⟩ := handleFirst_ok_iff.mp (map_spill_eq_ok h).1
    exact ⟨opened_upkeep ws _ _ _, opened_rxUbuf ws _ _ _⟩
  | frameHdrLen =>
    rw [advance_frameHdrLen hp] at h
    exact frameHdrLen_keeps h
  | frameHdrLen16 left =>
    rw [advance_frameHdrLen16 hp] at h
    obtain ⟨rfl, -⟩ := Prod.mk.inj (Except.ok.inj h)
    match left with
    | 0 | 1 => exact ⟨rfl, rfl⟩
  | frameHdrLen64 left =>
    rw [advance_frameHdrLen64 hp] at h
    exact frameHdrLen64_keeps (map_spill_eq_ok h).1
  | collectFrameKey i =>
    rw [advance_collectFrameKey hp] at h
    have he : (collectFrameKey ws c i).1 = ws' := congrArg Prod.fst (Except.ok.inj h)
    rw [← he]
    exact collectFrameKey_keeps ws c i

theorem storeByte_keeps (ws : WsRx) (c : Byte) :
    (ws.storeByte c).upkeep = ws.upkeep ∧ (ws.storeByte c).opcode = ws.opcode ∧
      (ws.storeByte c).parseState = ws.parseState := by
  rw [WsRx.storeByte]
  split_ifs <;> exact ⟨rfl, rfl, rfl⟩

theorem advance_payload_keeps (hs : ws.parseState = .wsFramePayload)
    (h : advance env ignoreChar ws c = .ok (ws', b)) :
    ws'.upkeep = ws.upkeep ∧ ws'.opcode = ws.opcode ∧
      (b = false → ws'.parseState = .wsFramePayload) ∧
      (ignoreChar = true → ws'.rxUbuf = ws.rxUbuf) := by
  obtain ⟨hu, ho, hp⟩ := storeByte_keeps ws c
  rw [advance_wsFramePayload hs] at h
  simp only [framePayload] at h
  split_ifs at h with hroom hic hlen hlen
  · exact absurd h (refuse_ne_ok _ _)
  all_goals obtain ⟨rfl, rfl⟩ := Prod.mk.inj (Except.ok.inj h)
  · exact ⟨rfl, rfl, fun hb => absurd hb (by simp), fun _ => rfl⟩
  · exact ⟨rfl, rfl, fun _ => hs, fun _ => rfl⟩
  · exact ⟨hu, ho, fun hb => absurd hb (by simp), fun hi => absurd hi hic⟩
  · exact ⟨hu, ho, fun _ => hp.trans hs, fun hi => absurd hi hic⟩

theorem advance_upkeep (h : advance env ignoreChar ws c = .ok (ws', b)) :
    ws'.upkeep = ws.upkeep := by
  by_cases hp : ws.parseState = .wsFramePayload
  · exact (advance_payload_keeps hp h).1
  · exact (advance_header_keeps hp h).1

theorem advance_payload_ignored (hs : ws.parseState = .wsFramePayload) (hu : ws.rxUbuf = []) :
    advance env true ws c =
      .ok (if ws.rxPacketLength = 0 then ({ ws with parseState := .new }, true)
        else (ws, false)) := by
  have hroom : ¬ rxUbufAlloc ≤ ws.rxUbuf.length + lwsPre := by rw [hu]; decide
  simp only [advance_wsFramePayload hs, framePayload, if_neg hroom, if_true]
  by_cases hl : ws.rxPacketLength = 0
  · rw [if_pos hl, if_pos hl]
  · rw [if_neg hl, if_neg hl, hu]
    rfl

end Advance

end Comlink
