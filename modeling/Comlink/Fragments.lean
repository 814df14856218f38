import Comlink.ReceiveBuffers

/-! A message that the library delivers in several calls. The handler keeps
nothing between the calls, so each chunk is a packet of its own. -/

namespace Comlink

open CText

structure Division (m : List Byte) where
  chunks : List (List Byte)
  flatten_chunks : chunks.flatten = m
  ne_nil : chunks ≠ []
  filled : ∀ c ∈ chunks, c ≠ []
  bounded : ∀ c ∈ chunks, c.length ≤ rxBufferSize

def callbackLwsWebsocketIn (stack : Stack) (ndebug : Bool) :
    Plugin → SessionId → Reason → Except Fault (Plugin × Effects) :=
  callbackOver (receiveIn stack ndebug)

/-- One call of the handler for each chunk, with a NUL behind the chunk. -/
def deliver (stack : Stack) (ndebug : Bool) (system : SystemResult) (s : SessionId) :
    Plugin → List (List Byte) → Except Fault (Plugin × List Received)
  | v, [] => .ok (v, [])
  | v, c :: cs =>
    match callbackLwsWebsocketIn stack ndebug v s (.receive (.ofText c) true system) with
    | .error fault => .error fault
    | .ok (v', eff) =>
      match deliver stack ndebug system s v' cs with
      | .error fault => .error fault
      | .ok (v'', outs) => .ok (v'', eff.received.toList ++ outs)

/-- The two command lines of an accepted packet. -/
def commandsOf (tokens : List (List Byte)) (packet : List Byte) : List (List Byte) :=
  [getRedisCommand redisHost redisPort (concat (tokens.getD 1 []) (lit "_PACKET")) packet,
    getHttpCommand comlinkHost packet]

/-- The handler returns on the text: no assertion stops it, there is a first
token, no array overflows; and if the packet is accepted, there is a second
token and `system` returns 0 for both commands. -/
structure Handled (ndebug : Bool) (system : SystemResult) (m : List Byte) : Prop where
  fields : ndebug = false → FieldsFilled comma (cstr m)
  first : nonEmptyFields comma (cstr m) ≠ []
  trailer : (afterLast comma (cstr m)).length ≤ 4
  number : -99 ≤ firstNumber (cstr m) ∧ firstNumber (cstr m) ≤ 999
  room : 13 + (sprintfInt (firstNumber (cstr m))).length ≤ m.length
  accepted : isCRCValid (firstNumber (cstr m)) (bufferData m) = true →
    2 ≤ (nonEmptyFields comma (cstr m)).length ∧
      ((nonEmptyFields comma (cstr m)).getD 1 []).length + (cstr m).length ≤ 135 ∧
      (cstr m).length ≤ 85 ∧
      ∀ command ∈ commandsOf (nonEmptyFields comma (cstr m)) (bufferData m), system command = 0

section Delivery

variable {stack : Stack} {ndebug : Bool} {system : SystemResult}

/-- The chunks cause one reply, one new message number and the commands of the
message taken as a whole. -/
def ProcessedAsWhole (stack : Stack) (ndebug : Bool) (system : SystemResult) (v : Plugin)
    (s : SessionId) (m : List Byte) (chunks : List (List Byte)) : Prop :=
  ∃ v' out mem', deliver stack ndebug system s v chunks = .ok (v', [out]) ∧
    receive ndebug system (.ofText m) = .ok (out, mem') ∧
    v'.amsg.payload = some out.reply ∧ v'.current = (v.current + 1).bmod (2 ^ 32)

theorem handleTokens_ok_iff (tokens : List (List Byte)) (packet : List Byte) :
    (∃ out, handleTokens system tokens packet = .ok out) ↔
      tokens ≠ [] ∧ (isCRCValid (atoi (tokens.headD [])) packet = true → 2 ≤ tokens.length ∧
        ∀ command ∈ commandsOf tokens packet, system command = 0) := by
  match tokens with
  | [] => simp [handleTokens]
  | [first] => by_cases hv : isCRCValid (atoi first) packet = true <;> simp [handleTokens, hv]
  | first :: second :: others =>
    by_cases hv : isCRCValid (atoi first) packet = true
    · simp [handleTokens_right others hv, runCommands_eq_ok_iff, Received.ofRight, commandsOf, hv]
    · simp [handleTokens_bad _ hv, hv]

theorem receive_ok_iff (m : List Byte) :
    (∃ out mem', receive ndebug system (.ofText m) = .ok (out, mem')) ↔
      (ndebug = false → FieldsFilled comma (cstr m)) ∧ nonEmptyFields comma (cstr m) ≠ [] ∧
        (isCRCValid (firstNumber (cstr m)) (bufferData m) = true →
          2 ≤ (nonEmptyFields comma (cstr m)).length ∧
            ∀ command ∈ commandsOf (nonEmptyFields comma (cstr m)) (bufferData m),
              system command = 0) := by
  rw [receive_ofText, firstNumber, ← handleTokens_ok_iff]
  by_cases hstop : ndebug = false ∧ ¬ FieldsFilled comma (cstr m)
  · simp [hstop.1, hstop.2]
  · have hgo : ndebug = false → FieldsFilled comma (cstr m) :=
      fun hd => by_contra (fun hn => hstop ⟨hd, hn⟩)
    rw [if_neg hstop, and_iff_right hgo]
    cases handleTokens system (nonEmptyFields comma (cstr m)) (bufferData m) <;> simp [Except.map]

theorem handled_iff (stack : Stack) (m : List Byte) :
    (∃ out mem', receiveIn stack ndebug system (.ofText m) = .ok (out, mem')) ↔
      Handled ndebug system m := by
  have hmem : cstr (RxBuffer.ofText m).mem = cstr m := cstr_bufferData m
  have hpay : (RxBuffer.ofText m).payload = m := rfl
  simp only [receiveIn_eq_ok_iff, hmem, hpay]
  constructor
  · rintro ⟨out, mem', hr, ha⟩
    obtain ⟨hfields, hfirst, hacc⟩ := (receive_ok_iff m).mp ⟨out, mem', hr⟩
    obtain ⟨ht, hnum, hroom, hlen⟩ := ha
    rw [cstr_bufferData] at ht hlen
    refine ⟨hfields, hfirst, ht, (length_sprintfInt_le_three_iff _).mp hnum, hroom, fun hv => ?_⟩
    exact ⟨(hacc hv).1, (hlen hv).1, (hlen hv).2, (hacc hv).2⟩
  · intro h
    obtain ⟨out, mem', hr⟩ := (receive_ok_iff m).mpr
      ⟨h.fields, h.first, fun hv => ⟨(h.accepted hv).1, (h.accepted hv).2.2.2⟩⟩
    refine ⟨out, mem', hr, ?_, (length_sprintfInt_le_three_iff _).mpr h.number, h.room,
      fun hv => ?_⟩
    · rw [cstr_bufferData]
      exact h.trailer
    · rw [cstr_bufferData]
      exact ⟨(h.accepted hv).2.1, (h.accepted hv).2.2.1⟩

theorem callback_receive_eq {c : List Byte} {out : Received} {mem' : List Byte} (v : Plugin)
    (s : SessionId) (hr : receiveIn stack ndebug system (.ofText c) = .ok (out, mem')) :
    callbackLwsWebsocketIn stack ndebug v s (.receive (.ofText c) true system) =
      .ok ({ v with
        amsg := ⟨some out.reply, c.length, out.reply.length⟩
        current := (v.current + 1).bmod (2 ^ 32) }, ⟨none, some out, true, 0⟩) := by
  simp only [callbackLwsWebsocketIn, callbackOver, hr, Bool.true_eq_false, if_false]
  rfl

theorem received_of_callback {v v' : Plugin} {s : SessionId} {c : List Byte} {eff : Effects}
    (h : callbackLwsWebsocketIn stack ndebug v s (.receive (.ofText c) true system) =
      .ok (v', eff)) : ∃ out, eff.received = some out := by
  cases hr : receiveIn stack ndebug system (.ofText c) with
  | error fault => simp [callbackLwsWebsocketIn, callbackOver, hr] at h
  | ok result =>
    obtain ⟨out, mem'⟩ := result
    rw [callback_receive_eq v s hr] at h
    simp only [Except.ok.injEq, Prod.mk.injEq] at h
    exact ⟨out, by rw [← h.2]⟩

theorem length_of_deliver {s : SessionId} {v v' : Plugin} {cs : List (List Byte)}
    {outs : List Received} (h : deliver stack ndebug system s v cs = .ok (v', outs)) :
    outs.length = cs.length := by
  induction cs generalizing v outs with
  | nil =>
    simp only [deliver, Except.ok.injEq, Prod.mk.injEq] at h
    simp [← h.2]
  | cons c cs ih =>
    rw [deliver] at h
    cases hc : callbackLwsWebsocketIn stack ndebug v s (.receive (.ofText c) true system) with
    | error fault => simp [hc] at h
    | ok result =>
      obtain ⟨w, eff⟩ := result
      obtain ⟨out, hout⟩ := received_of_callback hc
      cases hd : deliver stack ndebug system s w cs with
      | error fault => simp [hc, hd] at h
      | ok result =>
        obtain ⟨w', outs'⟩ := result
        simp only [hc, hd, Except.ok.injEq, Prod.mk.injEq] at h
        obtain ⟨rfl, rfl⟩ := h
        rw [hout, List.length_append, ih hd]
        simp [Nat.add_comm]

theorem processedAsWhole_single_iff (v : Plugin) (s : SessionId) (m : List Byte) :
    ProcessedAsWhole stack ndebug system v s m [m] ↔ Handled ndebug system m := by
  rw [← handled_iff stack]
  constructor
  · rintro ⟨v', out, mem', hd, -⟩
    cases hr : receiveIn stack ndebug system (.ofText m) with
    | error fault => simp [deliver, callbackLwsWebsocketIn, callbackOver, hr] at hd
    | ok result => exact ⟨result.1, result.2, rfl⟩
  · rintro ⟨out, mem', hr⟩
    have hd : deliver stack ndebug system s v [m] = .ok ({ v with
        amsg := ⟨some out.reply, m.length, out.reply.length⟩
        current := (v.current + 1).bmod (2 ^ 32) }, [out]) := by
      simp [deliver, callback_receive_eq v s hr]
    exact ⟨_, out, mem', hd, (receiveIn_eq_ok_iff.mp hr).1, rfl, rfl⟩

theorem Division.processedAsWhole_iff {m : List Byte} (d : Division m) (v : Plugin)
    (s : SessionId) :
    ProcessedAsWhole stack ndebug system v s m d.chunks ↔
      d.chunks.length = 1 ∧ Handled ndebug system m := by
  have hone : ∀ c, d.chunks = [c] → c = m := by
    intro c hc
    simpa [hc] using d.flatten_chunks
  constructor
  · intro h
    have hlen : d.chunks.length = 1 := by
      obtain ⟨v', out, mem', hd, -⟩ := h
      simpa using (length_of_deliver hd).symm
    obtain ⟨c, hc⟩ := List.length_eq_one_iff.mp hlen
    rw [hc, hone c hc] at h
    exact ⟨hlen, (processedAsWhole_single_iff v s m).mp h⟩
  · rintro ⟨hlen, hh⟩
    obtain ⟨c, hc⟩ := List.length_eq_one_iff.mp hlen
    rw [hc, hone c hc]
    exact (processedAsWhole_single_iff v s m).mpr hh

end Delivery

/-- Two divisions have the outcome of the whole message exactly when neither of
them cuts it and the handler returns on it. -/
theorem divisions_agree_iff (stack : Stack) (ndebug : Bool) (system : SystemResult) (v : Plugin)
    (s : SessionId) (m : List Byte) (d d' : Division m) :
    (ProcessedAsWhole stack ndebug system v s m d.chunks ∧
        ProcessedAsWhole stack ndebug system v s m d'.chunks) ↔
      d.chunks.length = 1 ∧ d'.chunks.length = 1 ∧ Handled ndebug system m := by
  rw [d.processedAsWhole_iff, d'.processedAsWhole_iff]
  tauto

def packetUncut : Division (lit "45,PIT905,01,01,00,05,04,4,4,4,0,0,0,071") :=
  ⟨[lit "45,PIT905,01,01,00,05,04,4,4,4,0,0,0,071"], rfl, by decide, by decide, by decide⟩

def packetCut : Division (lit "45,PIT905,01,01,00,05,04,4,4,4,0,0,0,071") :=
  ⟨[lit "45,PIT905,", lit "01,01,00,05,04,4,4,4,0,0,0,071"], rfl, by decide, by decide, by decide⟩

theorem divisions_disagree_controller_packet :
    ¬ ∀ (stack : Stack) (ndebug : Bool) (system : SystemResult) (v : Plugin) (s : SessionId)
      (m : List Byte) (d d' : Division m), ProcessedAsWhole stack ndebug system v s m d.chunks ∧
        ProcessedAsWhole stack ndebug system v s m d'.chunks := by
  intro h
  obtain ⟨v', out, mem', hd, -⟩ := (h .zero true statusZero .init 0 _ packetUncut packetCut).2
  have hlen := length_of_deliver hd
  simp [packetCut] at hlen

end Comlink
