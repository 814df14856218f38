import Comlink.WireBytes
import Comlink.Ws.RxSm

/-! `lws_parse_ws`: what one read gives to the receiver. Header bytes and control
frames go through `lws_ws_rx_sm` one by one, the payload of data frames is unmasked
where it stands in the read buffer and handed up in pieces. -/

namespace Comlink

open CText WireBytes

variable {κ φ : Type}

/-- A read under way: the bytes not yet parsed, and what is behind them in the
buffer of the service thread. -/
structure Reading (κ : Type) where
  ws : WsRx
  user : κ
  buf : List Byte
  stale : List Byte

section Bulk

/-- Four bytes at a time, and the rest bytewise. -/
def unmaskLoop (mask : Fin 4 → Byte) : List Byte → List Byte
  | a :: b :: c :: d :: l =>
    (a ^^^ mask 0) :: (b ^^^ mask 1) :: (c ^^^ mask 2) :: (d ^^^ mask 3) :: unmaskLoop mask l
  | l => List.zipWith (· ^^^ ·) l [mask 0, mask 1, mask 2]

def WsRx.unmask (ws : WsRx) (p : List Byte) : List Byte :=
  if ws.allZeroNonce then p
  else unmaskLoop (fun n => ws.mask (Fin.ofNat 4 (ws.maskIdx + n))) p

/-- The fields behind a piece of `n` bytes. -/
def WsRx.consume (ws : WsRx) (n : Nat) : WsRx :=
  { ws with
    maskIdx := if ws.allZeroNonce then ws.maskIdx else (ws.maskIdx + n) % 4
    rxPacketLength := ws.rxPacketLength - n }

/-- What is in `n` behind a piece of so many bytes. -/
abbrev OddBytes := WsRx → Nat → Nat

def OddBytes.const (rem : Nat) : OddBytes := fun _ _ => rem

/-- The loops that unmask a piece leave in `n` the number of the bytes behind the
last four. Without a key nothing is unmasked. -/
def WsRx.oddBytes : OddBytes := fun ws avail => if ws.allZeroNonce then 0 else avail % 4

/-- No result stands for the answer 0, that nothing was consumed. The source has
`WsRx.oddBytes` for `odd`. -/
def lwsWsFrameRestIsPayload (odd : OddBytes) (env : RxEnv) (cb : Callback κ φ) (r : Reading κ) :
    Except (Stop κ φ) (Option (Reading κ)) :=
  let avail := min (min rxBufferSize r.ws.rxPacketLength) r.buf.length
  if avail = 0 then .ok none
  else
    let p := r.ws.unmask (r.buf.take avail)
    match checkPayload (odd r.ws avail) (r.ws.consume avail) p with
    | .error (reason, ws) => .error (.refused reason ws r.user)
    | .ok ws =>
      let ws := { ws with firstFragment := false }
      let rest := r.buf.drop avail
      if env.preClose then .ok (some ⟨ws, r.user, rest, r.stale⟩)
      else
        match cb r.user p (rest ++ r.stale) with
        | .error e => .error (.failed e)
        | .ok (user, behind) =>
          .ok (some ⟨ws, user, behind.take rest.length, behind.drop rest.length⟩)

/-- The frame is a data frame and its payload comes next. -/
def WsRx.inData (ws : WsRx) : Bool := ws.parseState == .wsFramePayload && !ws.opcode.isControl

/-- The inner loop. A turn consumes a byte or leaves the loop. -/
def bulkLoop (odd : OddBytes) (env : RxEnv) (cb : Callback κ φ) :
    Nat → Reading κ → Except (Stop κ φ) (Reading κ)
  | 0, r => .ok r
  | fuel + 1, r =>
    if r.ws.inData && r.buf != [] then
      match lwsWsFrameRestIsPayload odd env cb r with
      | .error e => .error e
      | .ok none => .ok r
      | .ok (some r) => bulkLoop odd env cb fuel r
    else .ok r

end Bulk

/-- The outer loop. Behind a bulk phase the receiver is called for the state
only, without a byte. -/
def parseLoop (odd : OddBytes) (env : RxEnv) (cb : Callback κ φ) :
    Nat → Reading κ → Except (Stop κ φ) (Reading κ)
  | 0, r => .ok r
  | fuel + 1, r =>
    match r.buf with
    | [] => .ok r
    | c :: rest =>
      if r.ws.inData then
        match bulkLoop odd env cb (r.buf.length + 1) r with
        | .error e => .error e
        | .ok r =>
          match lwsWsRxSm env cb true true r.ws r.user 0 with
          | .error e => .error e
          | .ok (ws, user) => parseLoop odd env cb fuel { r with ws := ws, user := user }
      else
        match lwsWsRxSm env cb false false r.ws r.user c with
        | .error e => .error e
        | .ok (ws, user) => parseLoop odd env cb fuel ⟨ws, user, rest, r.stale⟩

/-- A turn that consumes nothing leaves the payload, so two turns a byte are
enough. -/
def parseOver (odd : OddBytes) (env : RxEnv) (cb : Callback κ φ) (ws : WsRx) (user : κ)
    (buf stale : List Byte) : Except (Stop κ φ) (WsRx × κ) :=
  (parseLoop odd env cb (2 * buf.length + 1) ⟨ws, user, buf, stale⟩).map fun r => (r.ws, r.user)

def lwsParseWs (env : RxEnv) (cb : Callback κ φ) :
    WsRx → κ → List Byte → List Byte → Except (Stop κ φ) (WsRx × κ) :=
  parseOver WsRx.oddBytes env cb

section Unmask

def maskKey (mask : Fin 4 → Byte) (i : Nat) : Byte := mask (Fin.ofNat 4 i)

theorem maskKey_add_four (mask : Fin 4 → Byte) (i : Nat) :
    maskKey mask (i + 4) = maskKey mask i := by
  simp [maskKey, Fin.ofNat]

theorem maskKey_mod (mask : Fin 4 → Byte) (i j : Nat) :
    maskKey mask (i % 4 + j) = maskKey mask (i + j) := by
  simp [maskKey, Fin.ofNat]

theorem unmaskLoop_eq (mask : Fin 4 → Byte) (p : List Byte) :
    unmaskLoop mask p = maskFrom (maskKey mask) 0 p := by
  fun_induction unmaskLoop mask p with
  | case1 a b c d l ih =>
    have hshift : maskFrom (maskKey mask) 0 l = maskFrom (maskKey mask) 4 l :=
      maskFrom_congr l fun n => by rw [Nat.zero_add, Nat.add_comm 4, maskKey_add_four]
    rw [ih, hshift]
    rfl
  | case2 l h =>
    match l, h with
    | [], _ => rfl
    | [a], _ => rfl
    | [a, b], _ => rfl
    | [a, b, c], _ => rfl
    | a :: b :: c :: d :: l, h => exact absurd rfl (h a b c d l)

theorem WsRx.unmask_eq (ws : WsRx) (p : List Byte) :
    ws.unmask p = if ws.allZeroNonce then p else maskFrom (maskKey ws.mask) ws.maskIdx p := by
  rw [unmask, unmaskLoop_eq]
  refine if_congr Iff.rfl rfl (maskFrom_congr p fun n => ?_)
  simp [maskKey, Fin.ofNat]

theorem WsRx.unmask_append (ws : WsRx) (p q : List Byte) :
    ws.unmask (p ++ q) = ws.unmask p ++ (ws.consume p.length).unmask q := by
  rw [unmask_eq, unmask_eq, unmask_eq]
  by_cases hz : ws.allZeroNonce
  · simp [consume, hz]
  · have hm : maskFrom (maskKey ws.mask) (ws.maskIdx + p.length) q =
        maskFrom (maskKey ws.mask) ((ws.maskIdx + p.length) % 4) q :=
      maskFrom_congr q fun n => (maskKey_mod ws.mask _ n).symm
    simp [consume, hz, maskFrom_append, hm]

@[simp] theorem WsRx.length_unmask (ws : WsRx) (p : List Byte) :
    (ws.unmask p).length = p.length := by
  rw [unmask_eq]
  split_ifs <;> simp

end Unmask

end Comlink
