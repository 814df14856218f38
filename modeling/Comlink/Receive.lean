import Comlink.Messages
import Comlink.Split

/-! `LWS_CALLBACK_RECEIVE` on one buffer of the library. The handler validates
a terminated copy of the payload and splits the buffer itself. -/

namespace Comlink

open CText

/-- The library's read buffer from `in` on: the `len` bytes of the payload and
whatever follows them. Nothing is known of the latter but that a NUL occurs. -/
structure RxBuffer where
  payload : List Byte
  after : List Byte
  terminated : 0 ∈ after

/-- The `rx_buffer_size` that the plugin declares. -/
def rxBufferSize : Nat := 128

def RxBuffer.mem (rx : RxBuffer) : List Byte := rx.payload ++ rx.after

def RxBuffer.ofText (m : List Byte) : RxBuffer := ⟨m, [0], by simp⟩

theorem RxBuffer.zero_mem (rx : RxBuffer) : 0 ∈ rx.mem :=
  List.mem_append_right _ rx.terminated

def bufferData (payload : List Byte) : List Byte := payload ++ [0]

/-- What `system` returns during one call of the handler, for each command line. -/
abbrev SystemResult := List Byte → Int

def statusZero : SystemResult := fun _ => 0

/-- What one received message makes the handler do. -/
structure Received where
  packetNumber : Int
  accepted : Bool
  reply : List Byte
  key : Option (List Byte)
  commands : List (List Byte)
  deriving DecidableEq, Repr

def Received.ofRight (packetNumber : Int) (key packet : List Byte) : Received :=
  ⟨packetNumber, true, getACK packetNumber, some key,
    [getRedisCommand redisHost redisPort key packet, getHttpCommand comlinkHost packet]⟩

def Received.ofBad (packetNumber : Int) : Received :=
  ⟨packetNumber, false, getNck packetNumber, none, []⟩

/-- `fprintf(stderr, (char *)system(command))` for each command. The status is
the format: `fprintf` returns at once on a NULL, any other status is no address. -/
def runCommands (system : SystemResult) (out : Received) : Except Fault Received :=
  if ∀ command ∈ out.commands, system command = 0 then .ok out else .error .wildPointer

/-- The part of the handler after the split. The vector of tokens ends in a
NULL pointer, which the handler dereferences where a token is missing. -/
def handleTokens (system : SystemResult) (tokens : List (List Byte)) (packet : List Byte) :
    Except Fault Received :=
  match tokens[0]? with
  | none => .error .nullPointer
  | some first =>
    let packetNumber := atoi first
    if isCRCValid packetNumber packet = true then
      match tokens[1]? with
      | none => .error .nullPointer
      | some device =>
        runCommands system (.ofRight packetNumber (concat device (lit "_PACKET")) packet)
    else .ok (.ofBad packetNumber)

def receive (ndebug : Bool) (system : SystemResult) (rx : RxBuffer) :
    Except Fault (Received × List Byte) :=
  match strSplit ndebug rx.mem comma with
  | .error fault => .error fault
  | .ok (tokens, mem') =>
    match handleTokens system tokens (bufferData rx.payload) with
    | .error fault => .error fault
    | .ok out => .ok (out, mem')

theorem comma_ne_zero : comma ≠ 0 := by decide

theorem receive_eq (ndebug : Bool) (system : SystemResult) (rx : RxBuffer) :
    receive ndebug system rx =
      if ndebug = false ∧ ¬ FieldsFilled comma (cstr rx.mem) then .error .assertion
      else (handleTokens system (nonEmptyFields comma (cstr rx.mem)) (bufferData rx.payload)).map
        (fun out => (out, cut comma false rx.mem)) := by
  rw [receive, strSplit_eq comma_ne_zero ndebug rx.zero_mem]
  split_ifs with h
  · rfl
  · dsimp only
    cases handleTokens system (nonEmptyFields comma (cstr rx.mem)) (bufferData rx.payload) <;> rfl

theorem mem_of_receive {ndebug : Bool} {system : SystemResult} {rx : RxBuffer} {out : Received}
    {mem' : List Byte} (h : receive ndebug system rx = .ok (out, mem')) :
    mem' = cut comma false rx.mem := by
  rw [receive_eq] at h
  split_ifs at h
  cases hh : handleTokens system (nonEmptyFields comma (cstr rx.mem)) (bufferData rx.payload) with
  | error fault => simp [hh, Except.map] at h
  | ok out' =>
    simp only [hh, Except.map, Except.ok.injEq, Prod.mk.injEq] at h
    exact h.2.symm

theorem cstr_bufferData (m : List Byte) : cstr (bufferData m) = cstr m :=
  cstr_append_zero m []

theorem strSplit_bufferData (ndebug : Bool) (m : List Byte) :
    strSplit ndebug (bufferData m) comma =
      if ndebug = false ∧ ¬ FieldsFilled comma (cstr m) then .error .assertion
      else .ok (nonEmptyFields comma (cstr m), cut comma false (bufferData m)) := by
  rw [strSplit_eq comma_ne_zero ndebug (by simp [bufferData]), cstr_bufferData]

theorem receive_ofText (ndebug : Bool) (system : SystemResult) (m : List Byte) :
    receive ndebug system (.ofText m) =
      if ndebug = false ∧ ¬ FieldsFilled comma (cstr m) then .error .assertion
      else (handleTokens system (nonEmptyFields comma (cstr m)) (bufferData m)).map
        (fun out => (out, cut comma false (bufferData m))) := by
  have hmem : (RxBuffer.ofText m).mem = bufferData m := rfl
  rw [receive_eq, hmem, cstr_bufferData]
  rfl

theorem runCommands_of_zero {system : SystemResult} {out : Received}
    (h : ∀ command ∈ out.commands, system command = 0) : runCommands system out = .ok out :=
  if_pos h

theorem runCommands_eq_ok_iff {system : SystemResult} {out out' : Received} :
    runCommands system out = .ok out' ↔
      out = out' ∧ ∀ command ∈ out.commands, system command = 0 := by
  rw [runCommands]
  split_ifs with h
  · rw [Except.ok.injEq, and_iff_left h]
  · simp [h]

section Tokens

variable {system : SystemResult} {first second packet : List Byte}

theorem handleTokens_right (others : List (List Byte))
    (h : isCRCValid (atoi first) packet = true) :
    handleTokens system (first :: second :: others) packet =
      runCommands system (.ofRight (atoi first) (concat second (lit "_PACKET")) packet) := by
  simp [handleTokens, h]

theorem handleTokens_bad (others : List (List Byte))
    (h : ¬ isCRCValid (atoi first) packet = true) :
    handleTokens system (first :: others) packet = .ok (.ofBad (atoi first)) := by
  simp [handleTokens, h]

theorem handleTokens_statusZero {tokens : List (List Byte)} (h : 2 ≤ tokens.length)
    (packet : List Byte) : ∃ out, handleTokens statusZero tokens packet = .ok out := by
  match tokens, h with
  | first :: second :: others, _ =>
    by_cases hv : isCRCValid (atoi first) packet = true
    · refine ⟨_, (handleTokens_right others hv).trans (runCommands_of_zero ?_)⟩
      exact fun _ _ => rfl
    · exact ⟨_, handleTokens_bad _ hv⟩

end Tokens

def firstNumber (p : List Byte) : Int := atoi ((nonEmptyFields comma p).headD [])

theorem firstNumber_eq {p first : List Byte} (h : (nonEmptyFields comma p)[0]? = some first) :
    firstNumber p = atoi first := by
  rw [firstNumber, List.headD_eq_head?_getD, List.head?_eq_getElem?, h]
  rfl

theorem zero_notMem_of_field {p f : List Byte} (hz : 0 ∉ p) (h : f ∈ p.splitOn comma) : 0 ∉ f :=
  fun hm => hz (subset_of_mem_splitOn h hm)

theorem concat_packet {f : List Byte} (hz : 0 ∉ f) :
    concat f (lit "_PACKET") = f ++ lit "_PACKET" := by
  rw [concat, strcat, cstr_eq_self hz, cstr_eq_self (by decide)]

end Comlink
