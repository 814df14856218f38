import Comlink.Ws.Output
import Comlink.Ws.TextMessage

/-! `rops_write_role_protocol_ws`: the frames that a connection writes, in either role, and
what the receiver makes of a client's. -/

namespace Comlink

open CText WireBytes CutStream SegmentQueue

/-- The bytes in front of the key and the payload. -/
def frameHeader (masked fin : Bool) (o : Opcode) (len : Nat) : List Byte :=
  let n : Byte := if fin then o.code ||| (1 : Byte) <<< 7 else o.code
  let isMaskedBit : Byte := if masked then 0x80 else 0
  if len < 126 then [n, UInt8.ofNat len ||| isMaskedBit]
  else if len < 65536 then
    [n, 126 ||| isMaskedBit, UInt8.ofNat (len >>> 8), UInt8.ofNat len]
  else
    [n, 127 ||| isMaskedBit, UInt8.ofNat (len >>> 56) &&& (0x7f : Byte),
      UInt8.ofNat (len >>> 48), UInt8.ofNat (len >>> 40), UInt8.ofNat (len >>> 32),
      UInt8.ofNat (len >>> 24), UInt8.ofNat (len >>> 16), UInt8.ofNat (len >>> 8), UInt8.ofNat len]

/-- A client masks the payload with a key it draws for the frame, a server does not. -/
def writeFrame (key : Option (Fin 4 → Byte)) (fin : Bool) (o : Opcode) (payload : List Byte) :
    List Byte :=
  frameHeader key.isSome fin o payload.length ++ keyBytes key ++ maskWith key payload

section Header

end Header

section Calls

/-- A connection as far as it writes. -/
structure WsTx where
  insideFrame : Bool
  out : Output

def WsTx.init : WsTx := ⟨false, .init⟩

/-- The answer of a call. -/
structure Written where
  ret : Int
  tx : WsTx

/-- Inside of a frame the payload goes out as it is, without a header, a key or a mask.
`len` bytes of payload and `pre` bytes in front of them are issued. -/
def ropsWriteRoleProtocolWs (key : Option (Fin 4 → Byte)) (fin : Bool) (o : Opcode) (tx : WsTx)
    (payload : List Byte) (answer : Sent) : Written :=
  let bytes := if tx.insideFrame then payload else writeFrame key fin o payload
  let pre := bytes.length - payload.length
  let issued := lwsIssueRaw false tx.out bytes answer
  if o.isControl then ⟨issued.ret, ⟨tx.insideFrame, issued.out⟩⟩
  else if issued.ret ≤ 0 then ⟨issued.ret, ⟨true, issued.out⟩⟩
  else if issued.ret = bytes.length then ⟨payload.length, ⟨false, issued.out⟩⟩
  else ⟨issued.ret - pre, ⟨true, issued.out⟩⟩

/-- A call of `lws_write`, with the key that is drawn for it. -/
structure WriteCall where
  key : Option (Fin 4 → Byte)
  fin : Bool
  opcode : Opcode
  payload : List Byte

def WriteCall.bytes (c : WriteCall) : List Byte := writeFrame c.key c.fin c.opcode c.payload

theorem WriteCall.bytes_ne_nil (c : WriteCall) : c.bytes ≠ [] := by
  rw [bytes, writeFrame, frameHeader]
  split_ifs <;> simp

/-- A call with nothing queued leaves the connection outside of a frame. -/
theorem write_fresh {tx : WsTx} (hin : tx.insideFrame = false) (hq : tx.out.buflist = [])
    (c : WriteCall) (answer : Sent) :
    (ropsWriteRoleProtocolWs c.key c.fin c.opcode tx c.payload answer).ret < 0 ∨
      ∃ ret out, ropsWriteRoleProtocolWs c.key c.fin c.opcode tx c.payload answer =
        ⟨ret, ⟨false, out⟩⟩ ∧ out.bytes = tx.out.bytes ++ c.bytes := by
  have hpos : 0 < (c.bytes.length : Int) := by
    exact_mod_cast List.length_pos_iff.mpr c.bytes_ne_nil
  simp only [ropsWriteRoleProtocolWs, hin, Bool.false_eq_true, if_false]
  rw [← WriteCall.bytes]
  rcases issueRaw_fresh hq c.bytes_ne_nil answer with h | ⟨q, -, sent, h, hbytes⟩
  · rw [h]
    refine .inl ?_
    by_cases hc : c.opcode.isControl = true
    · simp [hc]
    · simp [hc]
  · rw [h]
    refine .inr ?_
    by_cases hc : c.opcode.isControl = true
    · exact ⟨_, _, if_pos hc, hbytes⟩
    · rw [if_neg hc, if_neg (not_le.mpr hpos), if_pos rfl]
      exact ⟨_, _, rfl, hbytes⟩

/-- With a block queued, a call can leave the connection inside of a frame, and the next
text goes out bare. -/
example :
    let first := (ropsWriteRoleProtocolWs none true .text .init [1, 2] (.took 1)).tx
    let second := (ropsWriteRoleProtocolWs none true .text first [3] (.took 1)).tx
    (ropsWriteRoleProtocolWs none true .text second [4] (.took 1)).tx.out.bytes =
      writeFrame none true .text [1, 2] ++ writeFrame none true .text [3] ++ [4] := by
  decide

end Calls

section Writer

/-- A connection whose user writes one piece in each WRITEABLE callback. -/
structure Writer where
  tx : WsTx
  todo : List WriteCall

/-- `lws_handle_POLLOUT_event` where no control frame is due. What is queued goes first, and
the user is called back when nothing is. A negative answer ends the connection. -/
def Writer.pollout (w : Writer) (answer : Sent) : Option Writer :=
  if w.tx.out.buflist ≠ [] then
    let issued := lwsIssueRaw false w.tx.out [] answer
    if issued.ret < 0 then none else some ⟨⟨w.tx.insideFrame, issued.out⟩, w.todo⟩
  else
    match w.todo with
    | [] => some w
    | c :: todo =>
      let written := ropsWriteRoleProtocolWs c.key c.fin c.opcode w.tx c.payload answer
      if written.ret < 0 then none else some ⟨written.tx, todo⟩

/-- What is sent, queued and to be written is the stream. -/
structure Writer.Streams (w : Writer) (stream : List Byte) : Prop where
  outside : w.tx.insideFrame = false
  bytes : w.tx.out.bytes ++ w.todo.flatMap WriteCall.bytes = stream

variable {w w' : Writer} {stream : List Byte}

theorem Writer.Streams.pollout {answer : Sent} (hw : w.Streams stream)
    (h : w.pollout answer = some w') : w'.Streams stream := by
  rw [Writer.pollout] at h
  -- Only a call with nothing queued begins a frame, so no call is inside of one.
  cases hq : w.tx.out.buflist with
  | cons seg q =>
    rw [if_pos (by simp [hq])] at h
    rcases issueRaw_drain false hq answer with hx | ⟨ret, sent, q', hx, hbytes, -, -⟩
    · simp [hx] at h
    · simp only [hx] at h
      split_ifs at h
      obtain rfl := Option.some.inj h
      exact ⟨hw.outside, (congrArg (· ++ _) hbytes).trans hw.bytes⟩
  | nil =>
    rw [if_neg (by simp [hq])] at h
    cases ht : w.todo with
    | nil =>
      rw [ht] at h
      obtain rfl := Option.some.inj h
      exact hw
    | cons c todo =>
      rw [ht] at h
      simp only at h
      rcases write_fresh hw.outside hq c answer with hx | ⟨ret, out, hx, hbytes⟩
      · rw [if_pos hx] at h
        cases h
      · rw [hx] at h
        split_ifs at h
        obtain rfl := Option.some.inj h
        have hall := hw.bytes
        rw [ht, List.flatMap_cons, ← List.append_assoc, ← hbytes] at hall
        exact ⟨rfl, hall⟩

theorem Writer.Streams.run {answers : List Sent} (hw : w.Streams stream)
    (h : answers.foldlM Writer.pollout w = some w') : w'.Streams stream := by
  induction answers generalizing w with
  | nil =>
    obtain rfl := Option.some.inj h
    exact hw
  | cons answer answers ih =>
    rw [List.foldlM_cons, Option.bind_eq_bind, Option.bind_eq_some_iff] at h
    obtain ⟨w₁, hstep, hrest⟩ := h
    exact ih (hw.pollout hstep) hrest

theorem Writer.Streams.sent (hw : w.Streams stream) (ht : w.todo = [])
    (hq : w.tx.out.buflist = []) :
    w.tx.out.sent = stream := by
  have hall := hw.bytes
  rw [ht, Output.bytes, hq] at hall
  simpa using hall

end Writer

section Messages

/-- What a client may give in pieces: `lws_write` refuses a length that is negative as an
`int`, and the last piece is not empty. -/
structure Sendable (pieces : List ((Fin 4 → Byte) × List Byte)) : Prop where
  some : pieces ≠ []
  short : ∀ piece ∈ pieces, piece.2.length < 2 ^ 31
  last : ∀ piece, pieces.getLast? = .some piece → piece.2 ≠ []

variable {κ : Type} {pieces : List ((Fin 4 → Byte) × List Byte)} {key : Fin 4 → Byte}
  {p : List Byte}

theorem Sendable.tail (h : Sendable ((key, p) :: pieces)) (hne : pieces ≠ []) :
    Sendable pieces where
  some := hne
  short piece hp := h.short piece (List.mem_cons_of_mem _ hp)
  last piece hp := by
    refine h.last piece ?_
    obtain ⟨q, qs, rfl⟩ := List.exists_cons_of_ne_nil hne
    rwa [List.getLast?_cons_cons]

variable {env : RxEnv} {take : κ → List Byte → κ}

end Messages

end Comlink
