import Comlink.CommandBuffers
import Comlink.ReplyRoom
import Comlink.TrailerBuffer

/-! `LWS_CALLBACK_RECEIVE` with the arrays that it works in: the trailer and the
number on the stack, 20 bytes for the reply, the room behind `LWS_PRE`, 200 bytes
for each command. -/

namespace Comlink

open CText

/-- The local arrays of `isCRCValid` and of the functions that build a reply,
whatever they hold before. -/
structure Stack where
  str : Buffer 5
  packetType : Buffer 4
  chk_ : Buffer 5

def Stack.zero : Stack := ⟨.zero 5, .zero 4, .zero 5⟩

def filled {n : Nat} : Option (Buffer n) → Except Fault (List Byte)
  | none => .error .overflow
  | some b => .ok b.text

/-- The `memcpy` of the reply to the room behind `LWS_PRE`. -/
def copyReply (room : Nat) (reply : List Byte) : Except Fault Unit :=
  if reply.length ≤ room then .ok () else .error .overflow

def runCommand (system : SystemResult) (command : List Byte) : Except Fault Unit :=
  if system command = 0 then .ok () else .error .wildPointer

def handleTokensIn (stack : Stack) (system : SystemResult) (room : Nat) (tokens : List (List Byte))
    (packet : List Byte) : Except Fault Received :=
  match tokens[0]? with
  | none => .error .nullPointer
  | some first =>
    let packetNumber := atoi first
    match isCRCValidIn stack.str packetNumber packet with
    | none => .error .overflow
    | some true => do
      let ack ← filled (getACKIn stack.packetType stack.chk_ packetNumber)
      copyReply room ack
      match tokens[1]? with
      | none => .error .nullPointer
      | some device =>
        let key := concat device (lit "_PACKET")
        let redis ← filled (getRedisCommandIn redisHost redisPort key packet)
        runCommand system redis
        let http ← filled (getHttpCommandIn comlinkHost packet)
        runCommand system http
        .ok ⟨packetNumber, true, ack, some key, [redis, http]⟩
    | some false => do
      let nack ← filled (getNckIn stack.packetType stack.chk_ packetNumber)
      copyReply room nack
      .ok ⟨packetNumber, false, nack, none, []⟩

def receiveIn (stack : Stack) (ndebug : Bool) (system : SystemResult) (rx : RxBuffer) :
    Except Fault (Received × List Byte) :=
  match strSplit ndebug rx.mem comma with
  | .error fault => .error fault
  | .ok (tokens, mem') =>
    match handleTokensIn stack system rx.payload.length tokens (bufferData rx.payload) with
    | .error fault => .error fault
    | .ok out => .ok (out, mem')

section Arrays

theorem bind_eq_ok_iff {α β : Type} {x : Except Fault α} {f : α → Except Fault β} {b : β} :
    (x >>= f) = .ok b ↔ ∃ a, x = .ok a ∧ f a = .ok b := by
  cases x with
  | error fault => simp [bind, Except.bind]
  | ok a => simp [bind, Except.bind]

theorem filled_eq_ok_iff {n : Nat} {r : Option (Buffer n)} {t u : List Byte}
    (h : Buffer.Holds r t) : filled r = .ok u ↔ u = t ∧ t.length < n := by
  by_cases hlt : t.length < n
  · obtain ⟨b, rfl, ht⟩ := h.1 hlt
    simp [filled, ht, hlt, eq_comm]
  · rw [h.2 (not_lt.mp hlt)]
    simp [filled, hlt]

theorem filled_getReplyIn_eq_ok_iff {head tail u : List Byte} (hhead : 0 ∉ head) (htail : 0 ∉ tail)
    (hlen : head.length + tail.length ≤ 9) (packetType : Buffer 4) (chk_ : Buffer 5) (n : Int) :
    filled (getReplyIn head tail packetType chk_ n) = .ok u ↔
      u = getReply head tail n ∧ (sprintfInt n).length ≤ 3 := by
  by_cases hn : (sprintfInt n).length ≤ 3
  · obtain ⟨b, hb, ht⟩ := getReplyIn_of_le hhead htail packetType chk_ hn hlen
    simp [hb, filled, ht, hn, eq_comm]
  · rw [getReplyIn_of_lt packetType chk_ (not_le.mp hn)]
    simp [filled, hn]

theorem copyReply_eq_ok_iff {room : Nat} {reply : List Byte} {u : Unit} :
    copyReply room reply = .ok u ↔ reply.length ≤ room := by
  rw [copyReply]
  split_ifs with h <;> simp [h]

theorem runCommand_eq_ok_iff {system : SystemResult} {command : List Byte} {u : Unit} :
    runCommand system command = .ok u ↔ system command = 0 := by
  rw [runCommand]
  split_ifs with h <;> simp [h]

end Arrays

/-- No write of the handler falls outside of an array. -/
structure ArraysHold (tokens : List (List Byte)) (packet : List Byte) (room : Nat) : Prop where
  trailer : (afterLast comma (cstr packet)).length ≤ 4
  number : (sprintfInt (atoi (tokens.headD []))).length ≤ 3
  room : 13 + (sprintfInt (atoi (tokens.headD []))).length ≤ room
  commands : isCRCValid (atoi (tokens.headD [])) packet = true →
    (tokens.getD 1 []).length + (cstr packet).length ≤ 135 ∧ (cstr packet).length ≤ 85

section Handler

variable {stack : Stack} {system : SystemResult} {room : Nat} {tokens : List (List Byte)}
  {packet : List Byte} {out : Received}

theorem handleTokensIn_right_eq_ok_iff {first device : List Byte} {others : List (List Byte)}
    (hz : 0 ∉ device) (ht : (afterLast comma (cstr packet)).length ≤ 4)
    (hv : isCRCValid (atoi first) packet = true) :
    handleTokensIn stack system room (first :: device :: others) packet = .ok out ↔
      handleTokens system (first :: device :: others) packet = .ok out ∧
        ArraysHold (first :: device :: others) packet room := by
  have hack : (getACK (atoi first)).length = 13 + (sprintfInt (atoi first)).length :=
    length_reply (by decide) (by decide) (by decide) _
  have hkey : (cstr (concat device (lit "_PACKET"))).length = device.length + 7 := by
    rw [concat_packet hz, cstr_append_of_notMem hz, List.length_append]
    rfl
  rw [handleTokens_right others hv, runCommands_eq_ok_iff]
  simp only [handleTokensIn, List.getElem?_cons_zero, List.getElem?_cons_succ, isCRCValidIn_eq, hv,
    if_pos ht, bind_eq_ok_iff, getACKIn, copyReply_eq_ok_iff, runCommand_eq_ok_iff,
    filled_getReplyIn_eq_ok_iff (show 0 ∉ lit "11," by decide) (show 0 ∉ lit ",@~!11" by decide)
      (show (lit "11,").length + (lit ",@~!11").length ≤ 9 by decide),
    filled_eq_ok_iff (holds_getRedisCommandIn _ _ _ _),
    filled_eq_ok_iff (holds_getHttpCommandIn _ _),
    length_getRedisCommand, length_getHttpCommand, hkey]
  constructor
  · rintro ⟨_, ⟨rfl, hnum⟩, _, hroom, _, ⟨rfl, hredis⟩, _, hr, _, ⟨rfl, hhttp⟩, _, hh, hout⟩
    refine ⟨⟨Except.ok.inj hout, ?_⟩, ht, hnum, hack ▸ hroom, fun _ => ?_⟩
    · simpa [Received.ofRight] using ⟨hr, hh⟩
    · simp only [List.getD_cons_succ, List.getD_cons_zero]
      omega
  · rintro ⟨⟨rfl, hzero⟩, -, hnum, hroom, hcommands⟩
    obtain ⟨hr, hh⟩ : system _ = 0 ∧ system _ = 0 := by simpa [Received.ofRight] using hzero
    have hlen := hcommands hv
    simp only [List.getD_cons_succ, List.getD_cons_zero] at hlen
    exact ⟨_, ⟨rfl, hnum⟩, (), hack.symm ▸ hroom, _, ⟨rfl, by omega⟩, (), hr, _, ⟨rfl, by omega⟩,
      (), hh, rfl⟩

theorem handleTokensIn_bad_eq_ok_iff {first : List Byte} {others : List (List Byte)}
    (ht : (afterLast comma (cstr packet)).length ≤ 4)
    (hv : ¬ isCRCValid (atoi first) packet = true) :
    handleTokensIn stack system room (first :: others) packet = .ok out ↔
      handleTokens system (first :: others) packet = .ok out ∧
        ArraysHold (first :: others) packet room := by
  have hnack : (getNck (atoi first)).length = 13 + (sprintfInt (atoi first)).length :=
    length_reply (by decide) (by decide) (by decide) _
  rw [handleTokens_bad others hv]
  simp only [Bool.not_eq_true] at hv
  simp only [handleTokensIn, List.getElem?_cons_zero, isCRCValidIn_eq, hv, if_pos ht,
    bind_eq_ok_iff, getNckIn, copyReply_eq_ok_iff,
    filled_getReplyIn_eq_ok_iff (show 0 ∉ lit "16," by decide) (show 0 ∉ lit ",@~!16" by decide)
      (show (lit "16,").length + (lit ",@~!16").length ≤ 9 by decide)]
  constructor
  · rintro ⟨_, ⟨rfl, hnum⟩, _, hroom, hout⟩
    exact ⟨hout, ht, hnum, hnack ▸ hroom, fun h => by simp [hv] at h⟩
  · rintro ⟨hout, -, hnum, hroom, -⟩
    exact ⟨_, ⟨rfl, hnum⟩, (), hnack.symm ▸ hroom, hout⟩

theorem handleTokensIn_eq_ok_iff (hz : ∀ token ∈ tokens, 0 ∉ token) :
    handleTokensIn stack system room tokens packet = .ok out ↔
      handleTokens system tokens packet = .ok out ∧ ArraysHold tokens packet room := by
  match tokens with
  | [] => simp [handleTokensIn, handleTokens]
  | first :: others =>
    by_cases ht : (afterLast comma (cstr packet)).length ≤ 4
    · by_cases hv : isCRCValid (atoi first) packet = true
      · cases others with
        | nil => simp [handleTokensIn, handleTokens, isCRCValidIn_eq, ht, hv, bind_eq_ok_iff]
        | cons device others => exact handleTokensIn_right_eq_ok_iff (hz device (by simp)) ht hv
      · exact handleTokensIn_bad_eq_ok_iff ht hv
    · constructor
      · intro h
        simp [handleTokensIn, isCRCValidIn_eq, ht] at h
      · rintro ⟨-, h⟩
        exact absurd h.trailer ht

/-- The handler with its arrays returns exactly where the handler over texts
does and no array overflows, and then with the same result. -/
theorem receiveIn_eq_ok_iff {ndebug : Bool} {rx : RxBuffer} {mem' : List Byte} :
    receiveIn stack ndebug system rx = .ok (out, mem') ↔
      receive ndebug system rx = .ok (out, mem') ∧
        ArraysHold (nonEmptyFields comma (cstr rx.mem))
          (bufferData rx.payload) rx.payload.length := by
  cases hs : strSplit ndebug rx.mem comma with
  | error fault => simp [receiveIn, receive, hs]
  | ok result =>
    obtain ⟨tokens, mem''⟩ := result
    have hz : ∀ token ∈ tokens, 0 ∉ token := fun token ht => zero_notMem_of_token hs ht
    rw [← tokens_of_strSplit comma_ne_zero rx.zero_mem hs]
    simp only [receiveIn, receive, hs]
    constructor
    · intro h
      cases hx : handleTokensIn stack system rx.payload.length tokens (bufferData rx.payload) with
      | error fault => simp [hx] at h
      | ok out' =>
        simp only [hx, Except.ok.injEq, Prod.mk.injEq] at h
        obtain ⟨rfl, rfl⟩ := h
        obtain ⟨hy, ha⟩ := (handleTokensIn_eq_ok_iff hz).mp hx
        exact ⟨by rw [hy], ha⟩
    · rintro ⟨h, ha⟩
      cases hy : handleTokens system tokens (bufferData rx.payload) with
      | error fault => simp [hy] at h
      | ok out' =>
        simp only [hy, Except.ok.injEq, Prod.mk.injEq] at h
        obtain ⟨rfl, rfl⟩ := h
        rw [(handleTokensIn_eq_ok_iff hz).mpr ⟨hy, ha⟩]

end Handler

end Comlink
