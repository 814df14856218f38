import Comlink.HttpPlugins

/-! The answer to one request. A broadcast makes every session writeable, also
one whose request is still being received. -/

namespace Comlink

open CText StepSystem

def HttpReason.Succeeds : HttpReason → Prop
  | .httpWriteable calls written completed =>
    calls.addStatus = 0 ∧ calls.addContentType = 0 ∧ calls.addContentLength = 0 ∧
      calls.finalize = 0 ∧ 0 ≤ calls.write ∧ 0 ≤ written ∧ completed = 0
  | _ => True

/-- One headers write after the request has been received, then one body write
of the length that the headers declare; or a beginning of this. -/
def AnsweredOnce (log : List (HttpWrite × RequestPhase)) : Prop :=
  log = [] ∨ ∃ n, log = [(.headers n, .received)] ∨
    ∃ bytes phase, bytes.length = n ∧ log = [(.headers n, .received), (.body bytes, phase)]

def WriteableWhenReceived (σ : Transaction) : HttpReason → Prop
  | .httpWriteable _ _ _ => σ.phase = .received
  | _ => True

instance : (e : HttpReason) → Decidable e.Succeeds
  | .httpWriteable _ _ _ => inferInstanceAs (Decidable (_ ∧ _))
  | .http => inferInstanceAs (Decidable True)
  | .httpBody => inferInstanceAs (Decidable True)
  | .httpBodyCompletion => inferInstanceAs (Decidable True)
  | .eventWaitCancelled => inferInstanceAs (Decidable True)

instance (σ : Transaction) : (e : HttpReason) → Decidable (WriteableWhenReceived σ e)
  | .httpWriteable _ _ _ => inferInstanceAs (Decidable (σ.phase = .received))
  | .http => inferInstanceAs (Decidable True)
  | .httpBody => inferInstanceAs (Decidable True)
  | .httpBodyCompletion => inferInstanceAs (Decidable True)
  | .eventWaitCancelled => inferInstanceAs (Decidable True)

/-- How far the answer has come in a run without an early writeable callback. -/
inductive Answering (σ : Transaction) : Prop
  | waiting (hlog : σ.log = []) (hflag : σ.pss.justHeader = 0)
  | headersSent (text : List Byte) (hlog : σ.log = [(.headers text.length, .received)])
      (hpss : σ.pss = ⟨text, text.length, 1⟩) (hphase : σ.phase = .received)
  | answered (text : List Byte) (phase : RequestPhase) (hover : σ.finished = true)
      (hlog : σ.log = [(.headers text.length, .received), (.body text, phase)])

def EarlyHeaders (σ : Transaction) : Prop :=
  ∃ n phase rest, phase ≠ RequestPhase.received ∧ σ.log = (.headers n, phase) :: rest

theorem answeredOnce_of_answering {σ : Transaction} (h : Answering σ) : AnsweredOnce σ.log := by
  cases h with
  | waiting hlog hflag => exact Or.inl hlog
  | headersSent text hlog hpss hphase => exact Or.inr ⟨_, Or.inl hlog⟩
  | answered text phase hover hlog => exact Or.inr ⟨_, Or.inr ⟨text, phase, rfl, hlog⟩⟩

theorem not_answeredOnce_of_early {σ : Transaction} (h : EarlyHeaders σ) :
    ¬ AnsweredOnce σ.log := by
  obtain ⟨n, phase, rest, hphase, hlog⟩ := h
  rintro (he | ⟨m, he | ⟨bytes, phase', -, he⟩⟩)
  · simp [hlog] at he
  all_goals
    rw [hlog, List.cons.injEq, Prod.mk.injEq] at he
    exact hphase he.1.2

section Steps

variable {text : List Byte} {σ τ : Transaction} {e : HttpReason}

theorem createHeaders_of_succeeds {calls : HeaderCalls} {written completed : Int}
    (h : (HttpReason.httpWriteable calls written completed).Succeeds) (pss : PerSession) :
    (createHeaders pss text calls).2 = some (.headers text.length) := by
  obtain ⟨h1, h2, h3, h4, h5, -⟩ := h
  simp [createHeaders, h1, h2, h3, h4, not_lt.mpr h5]

theorem answering_step (hs : e.Succeeds) (h : Answering σ) (hg : WriteableWhenReceived σ e)
    (ht : HttpTransition text σ e τ) : Answering τ := by
  cases ht with
  | http hphase =>
    cases h with
    | waiting hlog hflag => exact .waiting hlog hflag
    | headersSent _ _ _ hreceived => simp [hphase] at hreceived
    | answered body phase hover hlog => exact .answered body phase hover hlog
  | httpBody hphase =>
    cases h with
    | waiting hlog hflag => exact .waiting hlog rfl
    | headersSent _ _ _ hreceived => simp [hphase] at hreceived
    | answered body phase hover hlog => exact .answered body phase hover hlog
  | httpBodyCompletion hphase =>
    cases h with
    | waiting hlog hflag => exact .waiting hlog hflag
    | headersSent _ _ _ hreceived => simp [hphase] at hreceived
    | answered body phase hover hlog => exact .answered body phase hover hlog
  | eventWaitCancelled =>
    cases h with
    | waiting hlog hflag => exact .waiting hlog hflag
    | headersSent body hlog hpss hreceived => exact .headersSent body hlog hpss hreceived
    | answered body phase hover hlog => exact .answered body phase hover hlog
  | headers calls written completed hflag hgoing =>
    cases h with
    | waiting hlog _ =>
      refine .headersSent text ?_ rfl hg
      simp [createHeaders_of_succeeds hs, hlog, show σ.phase = .received from hg]
    | headersSent _ _ hpss _ => simp [hpss] at hflag
    | answered _ _ hover _ => simp [hgoing] at hover
  | failed calls written completed hflag hw hgoing =>
    obtain ⟨-, -, -, -, -, hwritten, -⟩ := hs
    omega
  | body calls written completed hflag hw hgoing =>
    cases h with
    | waiting _ hzero => exact absurd hzero hflag
    | headersSent body hlog hpss _ => exact .answered body σ.phase rfl (by simp [hlog, hpss])
    | answered _ _ hover _ => simp [hgoing] at hover

theorem early_of_step (hs : e.Succeeds) (h : Answering σ) (hg : ¬ WriteableWhenReceived σ e)
    (ht : HttpTransition text σ e τ) : EarlyHeaders τ := by
  cases ht with
  | http | httpBody | httpBodyCompletion | eventWaitCancelled => exact absurd trivial hg
  | headers calls written completed hflag hgoing =>
    cases h with
    | waiting hlog _ =>
      exact ⟨text.length, σ.phase, [], hg, by simp [createHeaders_of_succeeds hs, hlog]⟩
    | headersSent _ _ hpss _ => simp [hpss] at hflag
    | answered _ _ hover _ => simp [hgoing] at hover
  | failed calls written completed hflag hw hgoing =>
    obtain ⟨-, -, -, -, -, hwritten, -⟩ := hs
    omega
  | body calls written completed hflag hw hgoing =>
    cases h with
    | waiting _ hzero => exact absurd hzero hflag
    | headersSent _ _ _ hreceived => exact absurd hreceived hg
    | answered _ _ hover _ => simp [hgoing] at hover

theorem early_step (h : EarlyHeaders σ) (ht : HttpTransition text σ e τ) : EarlyHeaders τ := by
  obtain ⟨n, phase, rest, hphase, hlog⟩ := h
  cases ht with
  | headers calls written completed hflag hgoing =>
    exact ⟨n, phase, _, hphase, by rw [hlog, List.cons_append]⟩
  | body calls written completed hflag hw hgoing =>
    exact ⟨n, phase, _, hphase, by rw [hlog, List.cons_append]⟩
  | http | httpBody | httpBodyCompletion | eventWaitCancelled | failed =>
    exact ⟨n, phase, rest, hphase, hlog⟩

end Steps

/-- A transaction is answered once, in order and not early exactly when no
writeable callback comes before the request has been received. -/
theorem answeredOnce_iff (plugin : HttpPlugin) {es : List HttpReason} {σ : Transaction}
    (hs : ∀ e ∈ es, e.Succeeds) (hr : StepSystem.run (Transaction.step plugin) .init es = some σ) :
    AnsweredOnce σ.log ↔ AllSteps (Transaction.step plugin) WriteableWhenReceived .init es := by
  obtain ⟨text, hp⟩ := plugin.exists_text
  have hd := run_dichotomy (A := HttpReason.Succeeds) (G := WriteableWhenReceived) (I := Answering)
    (B := EarlyHeaders)
    (fun σ e τ he h hg ht => answering_step he h hg (httpTransition_of_step hp ht))
    (fun σ e τ he h hg ht => early_of_step he h hg (httpTransition_of_step hp ht))
    (fun σ e τ h ht => early_step h (httpTransition_of_step hp ht))
    hs (Answering.waiting rfl rfl) hr
  rcases hd with ⟨hall, h⟩ | ⟨hnot, h⟩
  · exact iff_of_true (answeredOnce_of_answering h) hall
  · exact iff_of_false (not_answeredOnce_of_early h) hnot

def HeaderCalls.ok : HeaderCalls := ⟨0, 0, 0, 0, 0⟩

def answeredRequest : List HttpReason :=
  [.http, .httpBody, .httpBody, .httpBodyCompletion, .httpWriteable .ok 0 0, .eventWaitCancelled,
    .httpWriteable .ok 0 0]

theorem answeredOnce_request :
    (∀ e ∈ answeredRequest, e.Succeeds) ∧
    ∃ σ, StepSystem.run (Transaction.step .postRequest) .init answeredRequest = some σ ∧
      σ.log.length = 2 ∧ AnsweredOnce σ.log := by
  have hs : ∀ e ∈ answeredRequest, e.Succeeds := by decide
  have hl : (StepSystem.run (Transaction.step .postRequest) .init answeredRequest).map
      (fun σ => σ.log.length) = some 2 := by decide
  obtain ⟨σ, hr, hσ⟩ := Option.map_eq_some_iff.mp hl
  exact ⟨hs, σ, hr, hσ, (answeredOnce_iff .postRequest hs hr).mpr (by decide)⟩

/-- Another connection is adopted while the request is being received. The
headers are sent at once, and sent again after the next chunk. -/
def interruptedRequest : List HttpReason :=
  [.http, .eventWaitCancelled, .httpWriteable .ok 0 0, .httpBody, .httpBodyCompletion,
    .httpWriteable .ok 0 0, .httpWriteable .ok 0 0]

theorem not_answeredOnce_interrupted :
    ¬ ∀ (plugin : HttpPlugin) (es : List HttpReason) (σ : Transaction), (∀ e ∈ es, e.Succeeds) →
      StepSystem.run (Transaction.step plugin) .init es = some σ → AnsweredOnce σ.log := by
  intro h
  have hl : (StepSystem.run (Transaction.step .lwsPacket) .init interruptedRequest).map
      Transaction.log = some [(.headers 11, .receiving), (.headers 11, .received),
        (.body (lit "\x7b \"id\":10 \x7d"), .received)] := by decide
  obtain ⟨σ, hr, hlog⟩ := Option.map_eq_some_iff.mp hl
  have ha := h .lwsPacket interruptedRequest σ (by decide) hr
  exact not_answeredOnce_of_early ⟨11, .receiving, _, by decide, hlog⟩ ha

end Comlink
