import Comlink.IntrusiveList
import Comlink.Receive
import Comlink.StepSystem

/-! The websocket plugin as a system: `callback_lws_websocket` over the data of
one vhost and its sessions, and the library that calls it. -/

namespace Comlink

open CText

abbrev SessionId := Nat

/-- `struct msg`: the text copied behind `LWS_PRE`, the number of bytes that
were allocated there, and the length that is handed to `lws_write`. -/
structure Msg where
  payload : Option (List Byte)
  room : Nat
  len : Nat
  deriving DecidableEq, Repr

/-- The data of the vhost and of its sessions. `sessions` joins `vhd->pss_list`
with the `pss_list` member of every session. `linked` counts the insertions and
bounds the walk of a removal. -/
structure Plugin where
  sessions : IntrusiveList SessionId
  linked : Nat
  last : SessionId → Int
  amsg : Msg
  current : Int

def Plugin.init : Plugin := ⟨⟨none, fun _ => none⟩, 0, fun _ => 0, ⟨none, 0, 0⟩, 0⟩

/-- The callback reasons that the plugin handles, with what the library
functions called there return. -/
inductive Reason where
  | established
  | closed
  -- `m` is the result of `lws_write`, should it be called.
  | serverWriteable (m : Int)
  -- `allocated` tells whether the payload of the reply could be allocated.
  | receive (rx : RxBuffer) (allocated : Bool) (system : SystemResult)

structure Effects where
  sent : Option (List Byte)
  received : Option Received
  asked : Bool
  ret : Int

def Effects.none : Effects := ⟨.none, .none, false, 0⟩

def destroyMessage (_ : Msg) : Msg := ⟨none, 0, 0⟩

/-- The callback over a handler of `LWS_CALLBACK_RECEIVE`. -/
def callbackOver (handler : SystemResult → RxBuffer → Except Fault (Received × List Byte))
    (v : Plugin) (s : SessionId) : Reason → Except Fault (Plugin × Effects)
  | .established =>
    .ok ({ v with
      sessions := v.sessions.insertFront s
      linked := v.linked + 1
      last := Function.update v.last s v.current }, .none)
  | .closed => .ok ({ v with sessions := v.sessions.remove (v.linked + 1) s }, .none)
  | .serverWriteable m =>
    match v.amsg.payload with
    | none => .ok (v, .none)
    | some payload =>
      if v.last s = v.current then .ok (v, .none)
      else
        let sent := payload.take v.amsg.len
        if m < v.amsg.len then .ok (v, ⟨some sent, none, false, -1⟩)
        else .ok ({ v with last := Function.update v.last s v.current },
          ⟨some sent, none, false, 0⟩)
  | .receive rx allocated system =>
    let amsg := if v.amsg.payload.isSome then destroyMessage v.amsg else v.amsg
    let amsg := { amsg with len := rx.payload.length }
    if allocated = false then .ok ({ v with amsg := { amsg with payload := none } }, .none)
    else
      match handler system rx with
      | .error fault => .error fault
      | .ok (out, _) =>
        .ok ({ v with
          amsg := ⟨some out.reply, rx.payload.length, out.reply.length⟩
          current := (v.current + 1).bmod (2 ^ 32) }, ⟨none, some out, true, 0⟩)

def callbackLwsWebsocket (ndebug : Bool) :
    Plugin → SessionId → Reason → Except Fault (Plugin × Effects) :=
  callbackOver (receive ndebug)

/-- The plugin, the library's view of the sessions, and the history of the run:
the replies computed, with the session whose packet caused them, and the
writes that succeeded, with their message number. -/
structure Server where
  plugin : Plugin
  live : List SessionId
  known : List SessionId
  asked : SessionId → Bool
  joined : SessionId → Int
  replies : List (SessionId × List Byte)
  writes : List (SessionId × Int × List Byte)

def Server.init : Server := ⟨.init, [], [], fun _ => false, fun _ => 0, [], []⟩

structure Event where
  session : SessionId
  reason : Reason

/-- A session is established once; every other callback is for a live one. -/
def Server.possible (σ : Server) (e : Event) : Bool :=
  match e.reason with
  | .established => e.session ∉ σ.known
  | _ => e.session ∈ σ.live

def Server.after (σ : Server) (e : Event) (v : Plugin) (eff : Effects) : Server where
  plugin := v
  live :=
    match e.reason with
    | .established => e.session :: σ.live
    | .closed => σ.live.erase e.session
    | _ => σ.live
  known :=
    match e.reason with
    | .established => e.session :: σ.known
    | _ => σ.known
  asked :=
    match e.reason with
    | .receive _ _ _ => if eff.asked then Function.update σ.asked e.session true else σ.asked
    | _ => Function.update σ.asked e.session false
  joined :=
    match e.reason with
    | .established => Function.update σ.joined e.session σ.plugin.current
    | _ => σ.joined
  replies :=
    match eff.received with
    | some out => σ.replies ++ [(e.session, out.reply)]
    | none => σ.replies
  writes :=
    match eff.sent with
    | some sent => if eff.ret = 0 then σ.writes ++ [(e.session, σ.plugin.current, sent)]
        else σ.writes
    | none => σ.writes

/-- One callback. There is no next state when the process dies in it. -/
def Server.step (ndebug : Bool) (σ : Server) (e : Event) : Option Server :=
  if σ.possible e then
    match callbackLwsWebsocket ndebug σ.plugin e.session e.reason with
    | .error _ => none
    | .ok (v, eff) => some (σ.after e v eff)
  else none

section Transitions

variable {ndebug : Bool} {σ τ : Server}

/-- Everything a step can do. -/
inductive Transition (ndebug : Bool) (σ : Server) : Event → Server → Prop
  | established (s : SessionId) (hs : s ∉ σ.known) :
    Transition ndebug σ ⟨s, .established⟩ { σ with
      plugin := { σ.plugin with
        sessions := σ.plugin.sessions.insertFront s
        linked := σ.plugin.linked + 1
        last := Function.update σ.plugin.last s σ.plugin.current }
      live := s :: σ.live
      known := s :: σ.known
      asked := Function.update σ.asked s false
      joined := Function.update σ.joined s σ.plugin.current }
  | closed (s : SessionId) (hs : s ∈ σ.live) :
    Transition ndebug σ ⟨s, .closed⟩ { σ with
      plugin := { σ.plugin with sessions := σ.plugin.sessions.remove (σ.plugin.linked + 1) s }
      live := σ.live.erase s
      asked := Function.update σ.asked s false }
  | quiet (s : SessionId) (m : Int) (hs : s ∈ σ.live)
      (hq : ∀ p, σ.plugin.amsg.payload = some p →
        σ.plugin.last s = σ.plugin.current ∨ m < σ.plugin.amsg.len) :
    Transition ndebug σ ⟨s, .serverWriteable m⟩ { σ with asked := Function.update σ.asked s false }
  | written (s : SessionId) (m : Int) (payload : List Byte) (hs : s ∈ σ.live)
      (hp : σ.plugin.amsg.payload = some payload) (hl : σ.plugin.last s ≠ σ.plugin.current)
      (hm : σ.plugin.amsg.len ≤ m) :
    Transition ndebug σ ⟨s, .serverWriteable m⟩ { σ with
      plugin := { σ.plugin with last := Function.update σ.plugin.last s σ.plugin.current }
      asked := Function.update σ.asked s false
      writes := σ.writes ++ [(s, σ.plugin.current, payload.take σ.plugin.amsg.len)] }
  | dropped (s : SessionId) (rx : RxBuffer) (system : SystemResult) (room : Nat)
      (hs : s ∈ σ.live) :
    Transition ndebug σ ⟨s, .receive rx false system⟩ { σ with
      plugin := { σ.plugin with amsg := ⟨none, room, rx.payload.length⟩ } }
  | answered (s : SessionId) (rx : RxBuffer) (system : SystemResult) (out : Received)
      (mem' : List Byte) (hs : s ∈ σ.live) (hr : receive ndebug system rx = .ok (out, mem')) :
    Transition ndebug σ ⟨s, .receive rx true system⟩ { σ with
      plugin := { σ.plugin with
        amsg := ⟨some out.reply, rx.payload.length, out.reply.length⟩
        current := (σ.plugin.current + 1).bmod (2 ^ 32) }
      asked := Function.update σ.asked s true
      replies := σ.replies ++ [(s, out.reply)] }

theorem transition_of_step {e : Event} (h : σ.step ndebug e = some τ) :
    Transition ndebug σ e τ := by
  obtain ⟨s, reason⟩ := e
  rw [Server.step] at h
  split_ifs at h with hpos
  cases reason with
  | established =>
    obtain rfl := Option.some.inj h
    exact .established s (by simpa [Server.possible] using hpos)
  | closed =>
    obtain rfl := Option.some.inj h
    exact .closed s (by simpa [Server.possible] using hpos)
  | serverWriteable m =>
    have hs : s ∈ σ.live := by simpa [Server.possible] using hpos
    cases hp : σ.plugin.amsg.payload with
    | none =>
      simp only [callbackLwsWebsocket, callbackOver, hp] at h
      obtain rfl := Option.some.inj h
      exact .quiet s m hs (by simp [hp])
    | some payload =>
      by_cases hl : σ.plugin.last s = σ.plugin.current
      · simp only [callbackLwsWebsocket, callbackOver, hp, hl, if_true] at h
        obtain rfl := Option.some.inj h
        exact .quiet s m hs (fun _ _ => Or.inl hl)
      · by_cases hm : m < σ.plugin.amsg.len
        · simp only [callbackLwsWebsocket, callbackOver, hp, hl, if_false, hm, if_true] at h
          obtain rfl := Option.some.inj h
          exact .quiet s m hs (fun _ _ => Or.inr hm)
        · simp only [callbackLwsWebsocket, callbackOver, hp, hl, if_false, hm] at h
          obtain rfl := Option.some.inj h
          exact .written s m payload hs hp hl (by omega)
  | receive rx allocated system =>
    have hs : s ∈ σ.live := by simpa [Server.possible] using hpos
    cases allocated with
    | false =>
      simp only [callbackLwsWebsocket, callbackOver, if_true] at h
      obtain rfl := Option.some.inj h
      exact .dropped s rx system _ hs
    | true =>
      cases hr : receive ndebug system rx with
      | error fault => simp [callbackLwsWebsocket, callbackOver, hr] at h
      | ok result =>
        obtain ⟨out, mem'⟩ := result
        simp only [callbackLwsWebsocket, callbackOver, hr, Bool.true_eq_false, if_false] at h
        obtain rfl := Option.some.inj h
        exact .answered s rx system out mem' hs hr

end Transitions

end Comlink
