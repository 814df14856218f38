import Comlink.Fragments
import Comlink.Ws.Utf8

/-! `lws_ws_rx_sm`: the receiver of a websocket server connection, one byte at a
time, in the build without extensions and for protocol version 13. -/

namespace Comlink

open CText

instance neZeroFour : NeZero 4 := ⟨by decide⟩

def lwsPre : Nat := 16

def rxUbufAlloc : Nat := rxBufferSize + lwsPre

/-- The room behind `LWS_PRE` in `ping_payload_buf`. -/
def pingPayloadRoom : Nat := 128 - 3

inductive Opcode where
  | continuation
  | text
  | binary
  | close
  | ping
  | pong
  deriving DecidableEq, Repr

def Opcode.code : Opcode → Byte
  | .continuation => 0
  | .text => 1
  | .binary => 2
  | .close => 8
  | .ping => 9
  | .pong => 0xa

def Opcode.ofCode (n : Byte) : Option Opcode :=
  if n = 0 then some .continuation
  else if n = 1 then some .text
  else if n = 2 then some .binary
  else if n = 8 then some .close
  else if n = 9 then some .ping
  else if n = 0xa then some .pong
  else none

def Opcode.isControl (o : Opcode) : Bool := o.code &&& 8 != 0

/-- `lws_rx_parse_state`. The states of the 04 draft's mask and header are left
out, as no transition enters them. `left` counts the length bytes behind the next
one: `FRAME_HDR_LEN64_8` has seven. `i` is the index of the next key byte. -/
inductive RxParseState where
  | new
  | frameHdrLen
  | frameHdrLen16 (left : Fin 2)
  | frameHdrLen64 (left : Fin 8)
  | collectFrameKey (i : Fin 4)
  | wsFramePayload
  deriving DecidableEq, Repr

inductive LwsiState where
  | established
  | waitingToSendClose
  | returnedClose
  | awaitingCloseAck
  | flushingBeforeClose
  | deadSocket
  deriving DecidableEq, Repr

/-- Where the receiver answers -1. -/
inductive Drop where
  | fragCtl
  | badCont
  | badOpc
  | badFin
  | rsvBits
  | badUtf8
  | partialUtf8
  | closeUtf8
  | lengthBit63
  | illegalCtlLength
  | attemptedOverflow
  | unusable
  | closeAck
  | secondClose
  | pendingTx
  deriving DecidableEq, Repr

/-- The status and the text handed to `lws_close_reason`, where it is called. -/
def Drop.closeReason : Drop → Option (Nat × List Byte)
  | .fragCtl => some (1002, lit "frag ctl")
  | .badCont => some (1002, lit "bad cont")
  | .badOpc => some (1002, lit "bad opc")
  | .badFin => some (1002, lit "bad fin")
  | .rsvBits => some (1002, lit "rsv bits")
  | .badUtf8 => some (1007, lit "bad utf8")
  | .partialUtf8 => some (1007, lit "partial utf8")
  | _ => none

/-- The fields of the connection that the receiver reads or writes. `rxUbuf` holds
the `rx_ubuf_head` bytes behind `LWS_PRE`, `pingPayloadBuf` those of the array of
that name. -/
structure WsRx where
  lwsiState : LwsiState
  unusable : Bool
  parseState : RxParseState
  opcode : Opcode
  final : Bool
  firstFragment : Bool
  continuationPossible : Bool
  owedAFin : Bool
  thisFrameMasked : Bool
  allZeroNonce : Bool
  mask : Fin 4 → Byte
  maskIdx : Nat
  rxPacketLength : Nat
  rxUbuf : List Byte
  checkUtf8 : Bool
  utf8 : Byte
  peerHasSentClose : Bool
  payloadIsClose : Bool
  pingPendingFlag : Bool
  pingPayloadBuf : List Byte
  pingPayloadLen : Nat
  closeInPingBufferLen : Nat
  deriving DecidableEq

/-- `lws_server_init_wsi_for_ws` on a zeroed structure. -/
def WsRx.init : WsRx where
  lwsiState := .established
  unusable := false
  parseState := .new
  opcode := .continuation
  final := false
  firstFragment := false
  continuationPossible := false
  owedAFin := false
  thisFrameMasked := false
  allZeroNonce := false
  mask := fun _ => 0
  maskIdx := 0
  rxPacketLength := 0
  rxUbuf := []
  checkUtf8 := false
  utf8 := 0
  peerHasSentClose := false
  payloadIsClose := false
  pingPendingFlag := false
  pingPayloadBuf := List.replicate pingPayloadRoom 0
  pingPayloadLen := 0
  closeInPingBufferLen := 0

def WsRx.storePing (ws : WsRx) (p : List Byte) : WsRx :=
  { ws with pingPayloadBuf := p ++ ws.pingPayloadBuf.drop p.length }

def lwsCloseReason (ws : WsRx) (status : Nat) (buf : List Byte) : WsRx :=
  let p := UInt8.ofNat (status >>> 8) :: UInt8.ofNat status :: buf.take (pingPayloadRoom - 2)
  { ws.storePing p with closeInPingBufferLen := p.length }

/-- The answer -1: the reason and what is left of the connection's fields. -/
def WsRx.refuse {α : Type} (ws : WsRx) (reason : Drop) : Except (Drop × WsRx) α :=
  match reason.closeReason with
  | some (status, buf) => .error (reason, lwsCloseReason ws status buf)
  | none => .error (reason, ws)

/-- What does not change while one read is parsed. -/
structure RxEnv where
  validateUtf8 : Bool
  partialBuffered : Bool
  preClose : Bool
  deriving DecidableEq, Repr

section Header

/-- The `switch` on the opcode of a new frame. -/
def openFrame (validateUtf8 : Bool) (ws : WsRx) : Except (Drop × WsRx) WsRx :=
  match ws.opcode with
  | .text =>
    let ws := { ws with checkUtf8 := validateUtf8 }
    if ws.continuationPossible then ws.refuse .badCont
    else .ok { ws with firstFragment := true, continuationPossible := !ws.final }
  | .binary =>
    let ws := { ws with checkUtf8 := false }
    if ws.continuationPossible then ws.refuse .badCont
    else .ok { ws with firstFragment := true, continuationPossible := !ws.final }
  | .continuation => if !ws.continuationPossible then ws.refuse .badCont else .ok ws
  | .close => .ok { ws with checkUtf8 := false, utf8 := 0 }
  | .ping | .pong => .ok ws

/-- The bookkeeping of fragments and the check of the reserved bits. -/
def closeFirst (ws : WsRx) (rsv : Byte) : Except (Drop × WsRx) WsRx :=
  if ws.owedAFin && (ws.opcode == .text || ws.opcode == .binary) then ws.refuse .badFin
  else
    let ws :=
      if !ws.opcode.isControl && ws.final then
        { ws with continuationPossible := false, owedAFin := false }
      else ws
    let ws := if !ws.final then { ws with owedAFin := true } else ws
    let ws := { ws with parseState := .frameHdrLen }
    if rsv &&& ~~~0x40 != 0 then ws.refuse .rsvBits else .ok ws

/-- The label `handle_first`. -/
def handleFirst (validateUtf8 : Bool) (ws : WsRx) (c : Byte) : Except (Drop × WsRx) WsRx :=
  let ws := { ws with final := (c >>> 7) &&& 1 != 0 }
  if (c &&& 0xf) &&& 8 != 0 && !ws.final then ws.refuse .fragCtl
  else
    match Opcode.ofCode (c &&& 0xf) with
    | none => ws.refuse .badOpc
    | some opcode =>
      match openFrame validateUtf8 { ws with opcode := opcode } with
      | .error e => .error e
      | .ok ws => closeFirst ws (c &&& 0x70)

/-- The state behind the last length byte. -/
def lengthDone (ws : WsRx) : WsRx :=
  { ws with parseState := if ws.thisFrameMasked then .collectFrameKey 0 else .wsFramePayload }

/-- The second answer tells that the code goes on at `spill`. -/
def frameHdrLen (ws : WsRx) (c : Byte) : Except (Drop × WsRx) (WsRx × Bool) :=
  let ws := { ws with thisFrameMasked := c &&& 0x80 != 0 }
  if c &&& 0x7f = 126 then
    if ws.opcode.isControl then ws.refuse .illegalCtlLength
    else .ok ({ ws with parseState := .frameHdrLen16 1 }, false)
  else if c &&& 0x7f = 127 then
    if ws.opcode.isControl then ws.refuse .illegalCtlLength
    else .ok ({ ws with parseState := .frameHdrLen64 7 }, false)
  else
    let ws := { ws with rxPacketLength := (c &&& 0x7f).toNat }
    if ws.thisFrameMasked || ws.rxPacketLength != 0 then .ok (lengthDone ws, false)
    else .ok ({ ws with parseState := .new }, true)

/-- The first length byte is stored, the others are added with `|=`. -/
def frameHdrLen16 (ws : WsRx) (c : Byte) : Fin 2 → WsRx
  | 1 => { ws with rxPacketLength := c.toNat <<< 8, parseState := .frameHdrLen16 0 }
  | 0 => lengthDone { ws with rxPacketLength := ws.rxPacketLength ||| c.toNat }

def frameHdrLen64 (ws : WsRx) (c : Byte) (left : Fin 8) : Except (Drop × WsRx) WsRx :=
  match left with
  | 7 =>
    if c &&& 0x80 != 0 then ws.refuse .lengthBit63
    else .ok { ws with rxPacketLength := c.toNat <<< 56, parseState := .frameHdrLen64 6 }
  | 0 => .ok (lengthDone { ws with rxPacketLength := ws.rxPacketLength ||| c.toNat })
  | left =>
    .ok { ws with
      rxPacketLength := ws.rxPacketLength ||| c.toNat <<< (8 * left.val)
      parseState := .frameHdrLen64 (left - 1) }

def collectFrameKey (ws : WsRx) (c : Byte) (i : Fin 4) : WsRx × Bool :=
  let ws := { ws with
    mask := Function.update ws.mask i c
    allZeroNonce := ws.allZeroNonce && c == 0 }
  match i with
  | 3 =>
    if ws.rxPacketLength = 0 then ({ ws with maskIdx := 0, parseState := .new }, true)
    else ({ ws with maskIdx := 0, parseState := .wsFramePayload }, false)
  | i => ({ ws with parseState := .collectFrameKey (i + 1) }, false)

end Header

/-- One byte of payload into `rx_ubuf`. `mask_idx` is an unsigned byte. -/
def WsRx.storeByte (ws : WsRx) (c : Byte) : WsRx :=
  if ws.allZeroNonce then
    { ws with rxUbuf := ws.rxUbuf ++ [c], rxPacketLength := ws.rxPacketLength - 1 }
  else
    { ws with
      rxUbuf := ws.rxUbuf ++ [c ^^^ ws.mask (Fin.ofNat 4 ws.maskIdx)]
      maskIdx := (ws.maskIdx + 1) % 256
      rxPacketLength := ws.rxPacketLength - 1 }

def framePayload (ignoreChar : Bool) (ws : WsRx) (c : Byte) :
    Except (Drop × WsRx) (WsRx × Bool) :=
  if rxUbufAlloc ≤ ws.rxUbuf.length + lwsPre then ws.refuse .attemptedOverflow
  else
    let ws := if ignoreChar then ws else ws.storeByte c
    if ws.rxPacketLength = 0 then .ok ({ ws with parseState := .new }, true)
    else .ok (ws, ws.rxUbuf.length == rxBufferSize)

/-- The `switch` on the parse state, up to the label `spill`. -/
def advance (env : RxEnv) (ignoreChar : Bool) (ws : WsRx) (c : Byte) :
    Except (Drop × WsRx) (WsRx × Bool) :=
  match ws.parseState with
  | .new => (handleFirst env.validateUtf8 { ws with allZeroNonce := true } c).map (·, false)
  | .frameHdrLen => frameHdrLen ws c
  | .frameHdrLen16 left => .ok (frameHdrLen16 ws c left, false)
  | .frameHdrLen64 left => (frameHdrLen64 ws c left).map (·, false)
  | .collectFrameKey i => .ok (collectFrameKey ws c i)
  | .wsFramePayload => framePayload ignoreChar ws c

section Spill

/-- A close code that is answered with 1002 in its place. -/
def badCloseCode (code : Nat) : Bool :=
  code < 1000 || code == 1004 || code == 1005 || code == 1006 || code == 1012 || code == 1013 ||
    code == 1014 || code == 1015 || (1016 ≤ code && code < 3000)

def closePayload : List Byte → List Byte
  | hi :: lo :: reason =>
    if badCloseCode (hi.toNat <<< 8 ||| lo.toNat) then
      UInt8.ofNat (1002 >>> 8) :: UInt8.ofNat 1002 :: reason
    else hi :: lo :: reason
  | p => p

/-- The label `process_as_ping`. -/
def processAsPing (ws : WsRx) : WsRx :=
  if pingPayloadRoom < ws.rxUbuf.length then { ws with rxUbuf := [] }
  else
    { ws.storePing ws.rxUbuf with
      pingPayloadLen := ws.rxUbuf.length
      pingPendingFlag := true
      rxUbuf := [] }

def spillClose (env : RxEnv) (ws : WsRx) : Except (Drop × WsRx) WsRx :=
  let ws := { ws with peerHasSentClose := true }
  let checked :=
    if env.validateUtf8 && 2 < ws.rxUbuf.length then lwsCheckUtf8 ws.utf8 (ws.rxUbuf.drop 2)
    else some ws.utf8
  match checked with
  | none => ws.refuse .closeUtf8
  | some utf8 =>
    let ws := { ws with utf8 := utf8 }
    if ws.lwsiState = .awaitingCloseAck then ws.refuse .closeAck
    else if ws.lwsiState = .returnedClose then ws.refuse .secondClose
    else if env.partialBuffered then { ws with unusable := true }.refuse .pendingTx
    else
      .ok (processAsPing { ws with
        rxUbuf := closePayload ws.rxUbuf
        lwsiState := .returnedClose
        payloadIsClose := true })

/-- The UTF-8 check of a piece of payload that has been taken in. The end of the
message is looked at only if the local variable `n` is 0. -/
def checkPayload (n : Nat) (ws : WsRx) (p : List Byte) : Except (Drop × WsRx) WsRx :=
  if ws.checkUtf8 then
    match lwsCheckUtf8 ws.utf8 p with
    | none => ws.refuse .badUtf8
    | some utf8 =>
      let ws := { ws with utf8 := utf8 }
      if ws.rxPacketLength = 0 ∧ ws.final ∧ utf8 ≠ 0 ∧ n = 0 then ws.refuse .partialUtf8 else .ok ws
  else .ok ws

variable {κ φ : Type}

/-- The user's `LWS_CALLBACK_RECEIVE`: from the payload and the bytes behind it in
memory, the user's state and what is left of those bytes. A callback that answers
another number than 0 is one that has an error. -/
abbrev Callback (κ φ : Type) := κ → List Byte → List Byte → Except φ (κ × List Byte)

/-- Why a read ends early: the receiver refuses, or the callback fails. -/
inductive Stop (κ φ : Type) where
  | refused (reason : Drop) (ws : WsRx) (user : κ)
  | failed (error : φ)

/-- The payload goes up to the user, with a NUL stored behind it. A pong takes
the same way, but the plugin does not handle its callback. -/
def passUp (env : RxEnv) (cb : Callback κ φ) (noCb : Bool) (ws : WsRx) (user : κ) :
    Except (Stop κ φ) (WsRx × κ) :=
  if ws.rxUbuf = [] ∨ ws.lwsiState = .returnedClose ∨ ws.lwsiState = .awaitingCloseAck then
    .ok ({ ws with rxUbuf := [] }, user)
  else
    match checkPayload 0 ws ws.rxUbuf with
    | .error (reason, ws) => .error (.refused reason ws user)
    | .ok ws =>
      if env.preClose then .ok ({ ws with rxUbuf := [] }, user)
      else if noCb || ws.opcode == .pong then
        .ok ({ ws with firstFragment := false, rxUbuf := [] }, user)
      else
        match cb user ws.rxUbuf [0] with
        | .error e => .error (.failed e)
        | .ok (user, _) => .ok ({ ws with firstFragment := false, rxUbuf := [] }, user)

def spill (env : RxEnv) (cb : Callback κ φ) (noCb : Bool) (ws : WsRx) (user : κ) :
    Except (Stop κ φ) (WsRx × κ) :=
  match ws.opcode with
  | .close =>
    if ws.peerHasSentClose then passUp env cb noCb ws user
    else
      match spillClose env ws with
      | .error (reason, ws) => .error (.refused reason ws user)
      | .ok ws => .ok (ws, user)
  | .ping =>
    if ws.pingPendingFlag then .ok ({ ws with rxUbuf := [] }, user)
    else .ok (processAsPing ws, user)
  | _ => passUp env cb noCb ws user

def lwsWsRxSm (env : RxEnv) (cb : Callback κ φ) (ignoreChar noCb : Bool) (ws : WsRx) (user : κ)
    (c : Byte) : Except (Stop κ φ) (WsRx × κ) :=
  if ws.unusable then .error (.refused .unusable ws user)
  else
    match advance env ignoreChar ws c with
    | .error (reason, ws) => .error (.refused reason ws user)
    | .ok (ws, false) => .ok (ws, user)
    | .ok (ws, true) => spill env cb noCb ws user

end Spill

end Comlink
