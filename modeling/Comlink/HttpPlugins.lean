import Comlink.CText
import Comlink.StepSystem

/-! The two plugins that answer POST requests. They differ in the text of the
answer only, so one callback with this text as a parameter models both. -/

namespace Comlink

open CText

/-- The fields of `per_session_data` that the callbacks use. `result` is the
text behind `LWS_PRE`. -/
structure PerSession where
  result : List Byte
  resultLen : Nat
  justHeader : Int
  deriving DecidableEq, Repr

def PerSession.zero : PerSession := ⟨[], 0, 0⟩

inductive HttpWrite where
  | headers (contentLength : Nat)
  | body (bytes : List Byte)
  deriving DecidableEq, Repr

structure HeaderCalls where
  addStatus : Int
  addContentType : Int
  addContentLength : Int
  finalize : Int
  write : Int
  deriving DecidableEq, Repr

def createHeaders (pss : PerSession) (jsonText : List Byte) (calls : HeaderCalls) :
    PerSession × Option HttpWrite :=
  let pss := { pss with result := jsonText, resultLen := jsonText.length }
  if calls.addStatus ≠ 0 then (pss, none)
  else if calls.addContentType ≠ 0 then (pss, none)
  else if calls.addContentLength ≠ 0 then (pss, none)
  else if calls.finalize ≠ 0 then (pss, none)
  else if calls.write < 0 then (pss, none)
  else (pss, some (.headers pss.resultLen))

/-- The callback reasons that the plugins handle, with what the library
functions called there return. -/
inductive HttpReason where
  | http
  | httpBody
  | httpBodyCompletion
  | eventWaitCancelled
  -- `written` is the result of `lws_write` for the body and `completed` the one of
  -- `lws_http_transaction_completed`, should they be called.
  | httpWriteable (calls : HeaderCalls) (written completed : Int)
  deriving DecidableEq, Repr

structure HttpEffects where
  wrote : Option HttpWrite
  asked : Bool
  askedAll : Bool
  completed : Bool
  ret : Int

def HttpEffects.none : HttpEffects := ⟨.none, false, false, false, 0⟩

def callbackHttp (jsonText : List Byte) (pss : PerSession) : HttpReason → PerSession × HttpEffects
  | .http => (pss, .none)
  | .httpBody => ({ pss with justHeader := 0 }, .none)
  | .httpBodyCompletion => (pss, { HttpEffects.none with asked := true })
  | .eventWaitCancelled => (pss, { HttpEffects.none with askedAll := true })
  | .httpWriteable calls written completed =>
    if pss.justHeader = 0 then
      let (pss, wrote) := createHeaders pss jsonText calls
      ({ pss with justHeader := 1 }, { HttpEffects.none with wrote := wrote, asked := true })
    else if written < 0 then (pss, { HttpEffects.none with ret := 1 })
    else
      (pss, { HttpEffects.none with
        wrote := some (.body (pss.result.take pss.resultLen))
        completed := true
        ret := if completed ≠ 0 then -1 else 0 })

def callbackLwsPacket : PerSession → HttpReason → PerSession × HttpEffects :=
  callbackHttp (lit "\x7b \"id\":10 \x7d")

def callbackPostRequest : PerSession → HttpReason → PerSession × HttpEffects :=
  callbackHttp (lit "\x7b \"id\":1 \x7d")

inductive HttpPlugin where
  | lwsPacket
  | postRequest
  deriving DecidableEq, Repr

def HttpPlugin.callback : HttpPlugin → PerSession → HttpReason → PerSession × HttpEffects
  | .lwsPacket => callbackLwsPacket
  | .postRequest => callbackPostRequest

inductive RequestPhase where
  | connected
  | receiving
  | received
  deriving DecidableEq, Repr

/-- One transaction. The log holds the writes that succeeded, each with the
phase in which it was made. -/
structure Transaction where
  pss : PerSession
  phase : RequestPhase
  requested : Bool
  finished : Bool
  log : List (HttpWrite × RequestPhase)
  deriving DecidableEq, Repr

def Transaction.init : Transaction := ⟨.zero, .connected, false, false, []⟩

/-- The library's order of the callbacks of one transaction. The broadcast may
come at any time, a writeable callback any time after a request for it. -/
def Transaction.possible (σ : Transaction) : HttpReason → Bool
  | .http => σ.phase = .connected ∧ σ.finished = false
  | .httpBody => σ.phase = .receiving ∧ σ.finished = false
  | .httpBodyCompletion => σ.phase = .receiving ∧ σ.finished = false
  | .eventWaitCancelled => true
  | .httpWriteable _ _ _ => σ.requested = true ∧ σ.finished = false

def nextPhase (phase : RequestPhase) : HttpReason → RequestPhase
  | .http => .receiving
  | .httpBodyCompletion => .received
  | _ => phase

/-- One callback. A negative result of `HTTP_WRITEABLE` ends the transaction; the
other callbacks of the plugins return 0, and a failed write of the body returns 1. -/
def Transaction.step (plugin : HttpPlugin) (σ : Transaction) (e : HttpReason) :
    Option Transaction :=
  if σ.possible e then
    let (pss, eff) := plugin.callback σ.pss e
    some {
      pss := pss
      phase := nextPhase σ.phase e
      requested := σ.requested || eff.asked || eff.askedAll
      finished := σ.finished || eff.completed || eff.ret < 0
      log := σ.log ++ (eff.wrote.map (fun w => (w, σ.phase))).toList }
  else none

/-- Everything a callback can do, for the plugin with this text. -/
inductive HttpTransition (text : List Byte) (σ : Transaction) : HttpReason → Transaction → Prop
  | http (hphase : σ.phase = .connected) :
      HttpTransition text σ .http { σ with phase := .receiving }
  | httpBody (hphase : σ.phase = .receiving) :
    HttpTransition text σ .httpBody { σ with pss := { σ.pss with justHeader := 0 } }
  | httpBodyCompletion (hphase : σ.phase = .receiving) :
    HttpTransition text σ .httpBodyCompletion { σ with phase := .received, requested := true }
  | eventWaitCancelled : HttpTransition text σ .eventWaitCancelled { σ with requested := true }
  | headers (calls : HeaderCalls) (written completed : Int) (hflag : σ.pss.justHeader = 0)
      (hgoing : σ.finished = false) :
    HttpTransition text σ (.httpWriteable calls written completed) { σ with
      pss := ⟨text, text.length, 1⟩
      requested := true
      log := σ.log ++ ((createHeaders σ.pss text calls).2.map (fun w => (w, σ.phase))).toList }
  | failed (calls : HeaderCalls) (written completed : Int) (hflag : σ.pss.justHeader ≠ 0)
      (hw : written < 0) (hgoing : σ.finished = false) :
    HttpTransition text σ (.httpWriteable calls written completed) σ
  | body (calls : HeaderCalls) (written completed : Int) (hflag : σ.pss.justHeader ≠ 0)
      (hw : 0 ≤ written) (hgoing : σ.finished = false) :
    HttpTransition text σ (.httpWriteable calls written completed) { σ with
      finished := true
      log := σ.log ++ [(.body (σ.pss.result.take σ.pss.resultLen), σ.phase)] }

theorem HttpPlugin.exists_text (plugin : HttpPlugin) :
    ∃ text, plugin.callback = callbackHttp text := by
  cases plugin
  · exact ⟨_, rfl⟩
  · exact ⟨_, rfl⟩

theorem createHeaders_fst (pss : PerSession) (text : List Byte) (calls : HeaderCalls) :
    (createHeaders pss text calls).1 = { pss with result := text, resultLen := text.length } := by
  rw [createHeaders]
  split_ifs <;> rfl

theorem httpTransition_of_step {plugin : HttpPlugin} {text : List Byte} {σ τ : Transaction}
    {e : HttpReason} (hp : plugin.callback = callbackHttp text) (h : σ.step plugin e = some τ) :
    HttpTransition text σ e τ := by
  rw [Transaction.step, hp] at h
  split_ifs at h with hpos
  obtain rfl := Option.some.inj h
  cases e with
  | http =>
    have hh : σ.phase = .connected ∧ σ.finished = false := by
      simpa [Transaction.possible] using hpos
    simpa [callbackHttp, HttpEffects.none, nextPhase] using HttpTransition.http hh.1
  | httpBody =>
    have hh : σ.phase = .receiving ∧ σ.finished = false := by
      simpa [Transaction.possible] using hpos
    simpa [callbackHttp, HttpEffects.none, nextPhase] using HttpTransition.httpBody hh.1
  | httpBodyCompletion =>
    have hh : σ.phase = .receiving ∧ σ.finished = false := by
      simpa [Transaction.possible] using hpos
    simpa [callbackHttp, HttpEffects.none, nextPhase] using HttpTransition.httpBodyCompletion hh.1
  | eventWaitCancelled =>
    simpa [callbackHttp, HttpEffects.none, nextPhase] using HttpTransition.eventWaitCancelled
  | httpWriteable calls written completed =>
    have hh : σ.requested = true ∧ σ.finished = false := by simpa [Transaction.possible] using hpos
    by_cases hflag : σ.pss.justHeader = 0
    · simpa [callbackHttp, HttpEffects.none, nextPhase, hflag, createHeaders_fst] using
        HttpTransition.headers calls written completed hflag hh.2
    · by_cases hw : written < 0
      · simpa [callbackHttp, HttpEffects.none, nextPhase, hflag, hw] using
          HttpTransition.failed calls written completed hflag hw hh.2
      · simpa [callbackHttp, HttpEffects.none, nextPhase, hflag, hw] using
          HttpTransition.body calls written completed hflag (not_lt.mp hw) hh.2

end Comlink
