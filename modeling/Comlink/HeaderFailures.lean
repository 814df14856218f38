import Comlink.HttpPlugins

/-! Failures inside `CreateHeaders`. The function returns nothing, and its
caller marks the headers as sent in every case. -/

namespace Comlink

open CText StepSystem

/-- A session under callbacks in any order. `headersSent` tells whether headers
have gone out since the last `HTTP_BODY`. -/
structure HttpSession where
  pss : PerSession
  headersSent : Bool
  closed : Bool
  deriving DecidableEq, Repr

def HttpSession.init : HttpSession := ⟨.zero, false, false⟩

def HttpEffects.sendsHeaders (eff : HttpEffects) : Bool :=
  match eff.wrote with
  | some (.headers _) => true
  | _ => false

/-- A body write was made, and it succeeded or made the callback return 1. -/
def HttpEffects.triesBody (eff : HttpEffects) : Bool :=
  match eff.wrote with
  | some (.body _) => true
  | _ => eff.ret = 1

/-- One callback. The library closes the connection after a negative result of
`HTTP_WRITEABLE`, which a failed write of the body is not. -/
def HttpSession.step (plugin : HttpPlugin) (σ : HttpSession) (e : HttpReason) :
    Option HttpSession :=
  if σ.closed then none
  else
    let (pss, eff) := plugin.callback σ.pss e
    some {
      pss := pss
      headersSent := (e ≠ .httpBody && σ.headersSent) || eff.sendsHeaders
      closed := eff.ret < 0 }

def HeaderCalls.Bail (calls : HeaderCalls) : Prop :=
  calls.addStatus ≠ 0 ∨ calls.addContentType ≠ 0 ∨ calls.addContentLength ≠ 0 ∨
    calls.finalize ≠ 0 ∨ calls.write < 0

instance (calls : HeaderCalls) : Decidable calls.Bail := inferInstanceAs (Decidable (_ ∨ _))

/-- `CreateHeaders` is called and bails out. -/
def HttpSession.BailsOut (σ : HttpSession) : HttpReason → Prop
  | .httpWriteable calls _ _ => σ.closed = false ∧ σ.pss.justHeader = 0 ∧ calls.Bail
  | _ => False

def BodyAfterHeaders (plugin : HttpPlugin) (σ : HttpSession) (e : HttpReason) : Prop :=
  σ.closed = false → (plugin.callback σ.pss e).2.triesBody = true → σ.headersSent = true

def BailKeepsFlag (plugin : HttpPlugin) (σ : HttpSession) (e : HttpReason) : Prop :=
  σ.BailsOut e →
    (plugin.callback σ.pss e).1.justHeader = 0 ∨ (plugin.callback σ.pss e).2.ret ≠ 0

instance (σ : HttpSession) : (e : HttpReason) → Decidable (σ.BailsOut e)
  | .httpWriteable _ _ _ => inferInstanceAs (Decidable (_ ∧ _ ∧ _))
  | .http => inferInstanceAs (Decidable False)
  | .httpBody => inferInstanceAs (Decidable False)
  | .httpBodyCompletion => inferInstanceAs (Decidable False)
  | .eventWaitCancelled => inferInstanceAs (Decidable False)

instance (plugin : HttpPlugin) (σ : HttpSession) (e : HttpReason) :
    Decidable (BodyAfterHeaders plugin σ e) := inferInstanceAs (Decidable (_ → _ → _))

instance (plugin : HttpPlugin) (σ : HttpSession) (e : HttpReason) :
    Decidable (BailKeepsFlag plugin σ e) := inferInstanceAs (Decidable (_ → _))

theorem createHeaders_snd (pss : PerSession) (text : List Byte) (calls : HeaderCalls) :
    (createHeaders pss text calls).2 = if calls.Bail then none
      else some (.headers text.length) := by
  by_cases h : calls.Bail
  · rw [if_pos h]
    rcases h with h | h | h | h | h <;> simp [createHeaders, h]
  · rw [if_neg h]
    simp only [HeaderCalls.Bail, not_or, not_not] at h
    simp [createHeaders, h]

section Callback

variable {text : List Byte} {pss : PerSession} {calls : HeaderCalls} {written completed : Int}

theorem callbackHttp_headers (h : pss.justHeader = 0) :
    callbackHttp text pss (.httpWriteable calls written completed) =
      (⟨text, text.length, 1⟩, { HttpEffects.none with
        wrote := (createHeaders pss text calls).2, asked := true }) := by
  simp [callbackHttp, h, createHeaders_fst]

theorem justHeader_of_triesBody {e : HttpReason}
    (h : (callbackHttp text pss e).2.triesBody = true) : pss.justHeader ≠ 0 := by
  intro hflag
  cases e with
  | http | httpBody | httpBodyCompletion | eventWaitCancelled =>
    simp [callbackHttp, HttpEffects.none, HttpEffects.triesBody] at h
  | httpWriteable calls written completed =>
    rw [callbackHttp_headers hflag, HttpEffects.triesBody, createHeaders_snd] at h
    split_ifs at h <;> simp [HttpEffects.none] at h

end Callback

/-- The flag is set only after headers have gone out. -/
def HttpSession.Marked (σ : HttpSession) : Prop := σ.pss.justHeader ≠ 0 → σ.headersSent = true

section Steps

variable {plugin : HttpPlugin} {σ τ : HttpSession} {e : HttpReason}

theorem HttpSession.of_step (ht : σ.step plugin e = some τ) :
    σ.closed = false ∧ τ.pss = (plugin.callback σ.pss e).1 ∧
      τ.headersSent =
        ((e ≠ .httpBody && σ.headersSent) || (plugin.callback σ.pss e).2.sendsHeaders) := by
  rw [HttpSession.step] at ht
  split_ifs at ht with hclosed
  obtain rfl := Option.some.inj ht
  exact ⟨by simpa using hclosed, rfl, rfl⟩

theorem HttpSession.Marked.step (h : σ.Marked) (hb : ¬ σ.BailsOut e)
    (ht : σ.step plugin e = some τ) : τ.Marked := by
  obtain ⟨text, hp⟩ := plugin.exists_text
  obtain ⟨hopen, hpss, hsent⟩ := HttpSession.of_step ht
  rw [hp] at hpss hsent
  intro hflag
  rw [hpss] at hflag
  rw [hsent]
  cases e with
  | http | httpBodyCompletion | eventWaitCancelled => simp [h hflag]
  | httpBody => exact absurd rfl hflag
  | httpWriteable calls written completed =>
    by_cases hzero : σ.pss.justHeader = 0
    · have hok : ¬ calls.Bail := fun hbail => hb ⟨hopen, hzero, hbail⟩
      rw [callbackHttp_headers hzero, createHeaders_snd, if_neg hok]
      simp [HttpEffects.sendsHeaders]
    · simp [h hzero]

theorem demanded_iff (h : σ.Marked) :
    (BodyAfterHeaders plugin σ e ∧ BailKeepsFlag plugin σ e) ↔ ¬ σ.BailsOut e := by
  obtain ⟨text, hp⟩ := plugin.exists_text
  constructor
  · rintro ⟨-, hkeeps⟩ hbail
    have hk := hkeeps hbail
    cases e with
    | http | httpBody | httpBodyCompletion | eventWaitCancelled => exact hbail
    | httpWriteable calls written completed =>
      rw [hp, callbackHttp_headers hbail.2.1] at hk
      simp [HttpEffects.none] at hk
  · intro hb
    refine ⟨fun _ htries => ?_, fun hbail => absurd hbail hb⟩
    rw [hp] at htries
    exact h (justHeader_of_triesBody htries)

/-- After a failure the next writeable callback writes the body alone. -/
theorem bare_body_after_bail (hs : σ.headersSent = false) (hb : σ.BailsOut e)
    (ht : σ.step plugin e = some τ) (calls : HeaderCalls) (written completed : Int)
    (hopen : τ.closed = false) :
    ¬ BodyAfterHeaders plugin τ (.httpWriteable calls written completed) := by
  obtain ⟨text, hp⟩ := plugin.exists_text
  obtain ⟨-, hpss, hsent⟩ := HttpSession.of_step ht
  rw [hp] at hpss hsent
  cases e with
  | http | httpBody | httpBodyCompletion | eventWaitCancelled => exact absurd hb id
  | httpWriteable failing w d =>
    obtain ⟨-, hzero, hbail⟩ := hb
    rw [callbackHttp_headers hzero, createHeaders_snd, if_pos hbail] at hpss hsent
    have hnone : τ.headersSent = false := by simp [hsent, hs, HttpEffects.sendsHeaders]
    intro h
    have htries : (plugin.callback τ.pss (.httpWriteable calls written completed)).2.triesBody =
        true := by
      rw [hp, hpss]
      by_cases hw : written < 0 <;> simp [callbackHttp, HttpEffects.none, HttpEffects.triesBody, hw]
    rw [h hopen htries] at hnone
    cases hnone

end Steps

/-- Over every run a body is written only after headers, and a failure keeps
the flag or closes the connection, exactly when `CreateHeaders` never fails. -/
theorem bodies_follow_headers_iff (plugin : HttpPlugin) (es : List HttpReason) :
    AllSteps (HttpSession.step plugin)
        (fun σ e => BodyAfterHeaders plugin σ e ∧ BailKeepsFlag plugin σ e) .init es ↔
      AllSteps (HttpSession.step plugin) (fun σ e => ¬ σ.BailsOut e) .init es := by
  refine allSteps_congr (I := HttpSession.Marked) (fun σ e h => demanded_iff h)
    (fun σ e τ h hb ht => h.step hb ht) ?_
  intro hflag
  exact absurd rfl hflag

-- The status line cannot be added, and the session becomes writeable again.
def failedHeaders : List HttpReason :=
  [.httpBody, .httpBodyCompletion, .httpWriteable ⟨1, 0, 0, 0, 0⟩ 0 0,
    .httpWriteable ⟨0, 0, 0, 0, 0⟩ 0 0]

theorem bare_body_failed_headers :
    (¬ ∀ (plugin : HttpPlugin) (es : List HttpReason),
      AllSteps (HttpSession.step plugin) (BodyAfterHeaders plugin) .init es) ∧
    ¬ ∀ (plugin : HttpPlugin) (es : List HttpReason),
      AllSteps (HttpSession.step plugin) (BailKeepsFlag plugin) .init es := by
  constructor
  · intro h
    exact absurd (h .lwsPacket failedHeaders) (by decide)
  · intro h
    exact absurd (h .postRequest failedHeaders) (by decide)

end Comlink
