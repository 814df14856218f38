import Comlink.CutStream
import Comlink.Ws.Header

/-! The receiver on a stream of bytes. For a user that takes the payload as a
stream, the bulk path agrees with a receiver that takes every byte by itself, so
it does not matter how the stream is cut into reads. -/

namespace Comlink

open CText WireBytes CutStream

variable {κ φ : Type}

section Idle

/-- `rx_ubuf` holds nothing but the payload of a control frame. -/
structure WsRx.Idle (ws : WsRx) : Prop where
  usable : ws.unusable = false
  empty : ws.parseState ≠ .wsFramePayload ∨ ws.opcode.isControl = false → ws.rxUbuf = []

variable {env : RxEnv} {cb : Callback κ φ} {noCb ignoreChar : Bool} {ws ws' : WsRx}
  {user user' : κ} {c : Byte} {rem : Nat}

theorem checkPayload_ok_iff {p : List Byte} :
    checkPayload rem ws p = .ok ws' ↔
      (ws.checkUtf8 = false ∧ ws' = ws) ∨
      (ws.checkUtf8 = true ∧ ∃ u, lwsCheckUtf8 ws.utf8 p = some u ∧
        ¬ (ws.rxPacketLength = 0 ∧ ws.final = true ∧ u ≠ 0 ∧ rem = 0) ∧
        ws' = { ws with utf8 := u }) := by
  rw [checkPayload]
  cases hc : ws.checkUtf8 with
  | false => simp [eq_comm (a := ws')]
  | true =>
    cases hu : lwsCheckUtf8 ws.utf8 p with
    | none => simp
    | some u =>
      simp only [if_true, Bool.true_eq_false, false_and, true_and, false_or, Option.some.injEq,
        exists_eq_left']
      split_ifs with hp
      · simp [hp]
      · simp [hp, eq_comm (a := ws')]

theorem checkPayload_keeps {p : List Byte} (h : checkPayload rem ws p = .ok ws') :
    ∃ u, ws' = { ws with utf8 := u } := by
  rcases checkPayload_ok_iff.mp h with ⟨-, hw⟩ | ⟨-, u, -, -, hw⟩
  · exact ⟨ws.utf8, hw⟩
  · exact ⟨u, hw⟩

theorem passUp_ok (h : passUp env cb noCb ws user = .ok (ws', user')) :
    ∃ u first, ws' = { ws with utf8 := u, firstFragment := first, rxUbuf := [] } := by
  rw [passUp] at h
  by_cases hempty : ws.rxUbuf = [] ∨ ws.lwsiState = .returnedClose ∨
      ws.lwsiState = .awaitingCloseAck
  · rw [if_pos hempty] at h
    obtain ⟨rfl, -⟩ := Prod.mk.inj (Except.ok.inj h)
    exact ⟨ws.utf8, ws.firstFragment, rfl⟩
  rw [if_neg hempty] at h
  cases hc : checkPayload 0 ws ws.rxUbuf with
  | error e => simp [hc] at h
  | ok ws₁ =>
    obtain ⟨u, rfl⟩ := checkPayload_keeps hc
    simp only [hc] at h
    split_ifs at h with hpre hcb
    · obtain ⟨rfl, -⟩ := Prod.mk.inj (Except.ok.inj h)
      exact ⟨u, ws.firstFragment, rfl⟩
    · obtain ⟨rfl, -⟩ := Prod.mk.inj (Except.ok.inj h)
      exact ⟨u, false, rfl⟩
    · cases hcb' : cb user ws.rxUbuf [0] with
      | error e => simp [hcb'] at h
      | ok result =>
        simp only [hcb'] at h
        obtain ⟨rfl, -⟩ := Prod.mk.inj (Except.ok.inj h)
        exact ⟨u, false, rfl⟩

theorem processAsPing_keeps (ws : WsRx) :
    (processAsPing ws).rxUbuf = [] ∧ (processAsPing ws).unusable = ws.unusable ∧
      (processAsPing ws).parseState = ws.parseState ∧
      (processAsPing ws).rxPacketLength = ws.rxPacketLength := by
  rw [processAsPing]
  split_ifs <;> exact ⟨rfl, rfl, rfl, rfl⟩

theorem spillClose_ok (h : spillClose env ws = .ok ws') :
    ∃ u, ws' = processAsPing { ws with
      peerHasSentClose := true
      utf8 := u
      rxUbuf := closePayload ws.rxUbuf
      lwsiState := .returnedClose
      payloadIsClose := true } := by
  simp only [spillClose] at h
  generalize (if env.validateUtf8 && 2 < ws.rxUbuf.length then
    lwsCheckUtf8 ws.utf8 (ws.rxUbuf.drop 2) else some ws.utf8) = checked at h
  cases checked with
  | none => exact absurd h (refuse_ne_ok _ _)
  | some u =>
    simp only at h
    split_ifs at h
    · exact absurd h (refuse_ne_ok _ _)
    · exact absurd h (refuse_ne_ok _ _)
    · exact absurd h (refuse_ne_ok _ _)
    · exact ⟨u, (Except.ok.inj h).symm⟩

theorem spill_ok (h : spill env cb noCb ws user = .ok (ws', user')) :
    ws'.rxUbuf = [] ∧ ws'.unusable = ws.unusable ∧ ws'.parseState = ws.parseState ∧
      ws'.rxPacketLength = ws.rxPacketLength := by
  rw [spill] at h
  split at h
  · split_ifs at h
    · obtain ⟨u, first, rfl⟩ := passUp_ok h
      exact ⟨rfl, rfl, rfl, rfl⟩
    · cases hc : spillClose env ws with
      | error e => simp [hc] at h
      | ok ws₁ =>
        simp only [hc] at h
        obtain ⟨rfl, -⟩ := Prod.mk.inj (Except.ok.inj h)
        obtain ⟨u, rfl⟩ := spillClose_ok hc
        exact processAsPing_keeps _
  · split_ifs at h
    · obtain ⟨rfl, -⟩ := Prod.mk.inj (Except.ok.inj h)
      exact ⟨rfl, rfl, rfl, rfl⟩
    · obtain ⟨rfl, -⟩ := Prod.mk.inj (Except.ok.inj h)
      exact processAsPing_keeps _
  · obtain ⟨u, first, rfl⟩ := passUp_ok h
    exact ⟨rfl, rfl, rfl, rfl⟩

/-- The receiver stays idle, if data frames are left to the bulk path. -/
theorem WsRx.Idle.rxSm (hi : ws.Idle) (hd : ws.inData = true → ignoreChar = true)
    (h : lwsWsRxSm env cb ignoreChar noCb ws user c = .ok (ws', user')) : ws'.Idle := by
  rw [lwsWsRxSm, hi.usable, if_neg Bool.false_ne_true] at h
  cases ha : advance env ignoreChar ws c with
  | error e => simp [ha] at h
  | ok result =>
    obtain ⟨ws₁, spills⟩ := result
    have husable : ws₁.unusable = false :=
      (congrArg Upkeep.unusable (advance_upkeep ha)).trans hi.usable
    cases spills with
    | true =>
      simp only [ha] at h
      obtain ⟨hempty, hu, -⟩ := spill_ok h
      exact ⟨hu.trans husable, fun _ => hempty⟩
    | false =>
      simp only [ha] at h
      obtain ⟨rfl, -⟩ := Prod.mk.inj (Except.ok.inj h)
      refine ⟨husable, fun hout => ?_⟩
      by_cases hp : ws.parseState = .wsFramePayload
      · -- The state is still the payload of this frame, so it is a data frame.
        obtain ⟨-, ho, hstay, hkeep⟩ := advance_payload_keeps hp ha
        have hdata : ws.opcode.isControl = false :=
          ho ▸ hout.resolve_left (not_not_intro (hstay rfl))
        rw [hkeep (hd (by simp [WsRx.inData, hp, hdata])), hi.empty (Or.inr hdata)]
      · rw [(advance_header_keeps hp ha).2, hi.empty (Or.inl hp)]

end Idle

section Settle

/-- A data frame whose payload is complete is over. The bulk path says so after
the fact, or at the next byte. -/
def WsRx.settle (ws : WsRx) : WsRx :=
  if ws.inData = true ∧ ws.rxPacketLength = 0 then { ws with parseState := .new } else ws

variable {env : RxEnv} {cb : Callback κ φ} {ws : WsRx}

theorem WsRx.settle_of_pos (h : ws.rxPacketLength ≠ 0) : ws.settle = ws := if_neg fun hs => h hs.2

theorem WsRx.settle_of_not_inData (h : ws.inData = false) : ws.settle = ws :=
  if_neg fun hs => absurd hs.1 (by simp [h])

theorem WsRx.settle_settle (ws : WsRx) : ws.settle.settle = ws.settle := by
  by_cases h : ws.inData = true ∧ ws.rxPacketLength = 0
  · have hs : ws.settle = { ws with parseState := .new } := if_pos h
    rw [hs]
    exact settle_of_not_inData rfl
  · have hs : ws.settle = ws := if_neg h
    rw [hs, hs]

theorem WsRx.Idle.settle (hi : ws.Idle) : ws.settle.Idle := by
  rw [WsRx.settle]
  split_ifs with h
  · have hdata : ws.opcode.isControl = false := by
      simpa using (Bool.and_eq_true_iff.mp h.1).2
    exact ⟨hi.usable, fun _ => hi.empty (Or.inr hdata)⟩
  · exact hi

theorem WsRx.inData_iff : ws.inData = true ↔
    ws.parseState = .wsFramePayload ∧ ws.opcode.isControl = false := by
  simp [inData]

/-- The call behind a bulk phase only settles the state. -/
theorem rxSm_settle (hi : ws.Idle) (hd : ws.inData = true) (user : κ) (c : Byte) :
    lwsWsRxSm env cb true true ws user c = .ok (ws.settle, user) := by
  obtain ⟨hp, hdata⟩ := WsRx.inData_iff.mp hd
  have hempty := hi.empty (Or.inr hdata)
  rw [lwsWsRxSm, hi.usable, if_neg Bool.false_ne_true, advance_payload_ignored hp hempty]
  by_cases hl : ws.rxPacketLength = 0
  · have hs : ws.settle = { ws with parseState := .new } := if_pos ⟨hd, hl⟩
    rw [if_pos hl, hs]
    cases ho : ws.opcode <;> simp [ho] at hdata <;> simp [spill, passUp, hempty]
  · rw [if_neg hl, WsRx.settle_of_pos hl]

end Settle

section Reads

variable {odd : OddBytes} {env : RxEnv} {cb : Callback κ φ} {r r' : Reading κ}

/-- Everything the bulk path can do with a piece. -/
theorem frameRestIsPayload_ok (h : lwsWsFrameRestIsPayload odd env cb r = .ok (some r')) :
    ∃ n u, n ≠ 0 ∧ n ≤ rxBufferSize ∧ n ≤ r.ws.rxPacketLength ∧ n ≤ r.buf.length ∧
      r'.ws = { r.ws.consume n with utf8 := u, firstFragment := false } ∧
      ((env.preClose = true ∧ r'.user = r.user ∧ r'.buf = r.buf.drop n ∧ r'.stale = r.stale) ∨
        (env.preClose = false ∧ ∃ behind,
          cb r.user (r.ws.unmask (r.buf.take n)) (r.buf.drop n ++ r.stale) =
            .ok (r'.user, behind) ∧
          r'.buf = behind.take (r.buf.length - n) ∧
            r'.stale = behind.drop (r.buf.length - n))) := by
  rw [lwsWsFrameRestIsPayload] at h
  generalize hn : min (min rxBufferSize r.ws.rxPacketLength) r.buf.length = n at h
  simp only at h
  by_cases hz : n = 0
  · rw [if_pos hz] at h
    simp at h
  rw [if_neg hz] at h
  cases hc : checkPayload (odd r.ws n) (r.ws.consume n) (r.ws.unmask (r.buf.take n)) with
  | error e => simp [hc] at h
  | ok ws =>
    obtain ⟨u, rfl⟩ := checkPayload_keeps hc
    simp only [hc] at h
    refine ⟨n, u, hz, by omega, by omega, by omega, ?_⟩
    cases hpre : env.preClose with
    | true =>
      rw [hpre, if_pos rfl] at h
      obtain rfl := Option.some.inj (Except.ok.inj h)
      exact ⟨rfl, Or.inl ⟨rfl, rfl, rfl, rfl⟩⟩
    | false =>
      rw [hpre, if_neg Bool.false_ne_true] at h
      cases hcb : cb r.user (r.ws.unmask (r.buf.take n)) (r.buf.drop n ++ r.stale) with
      | error e => simp [hcb] at h
      | ok result =>
        simp only [hcb] at h
        obtain rfl := Option.some.inj (Except.ok.inj h)
        refine ⟨rfl, Or.inr ⟨rfl, result.2, rfl, ?_, ?_⟩⟩ <;> simp

theorem WsRx.Idle.frameRest (hi : r.ws.Idle)
    (h : lwsWsFrameRestIsPayload odd env cb r = .ok (some r')) : r'.ws.Idle := by
  obtain ⟨n, u, -, -, -, -, hw, -⟩ := frameRestIsPayload_ok h
  rw [hw]
  exact ⟨hi.usable, hi.empty⟩

theorem WsRx.Idle.bulkLoop {fuel : Nat} (hi : r.ws.Idle)
    (h : bulkLoop odd env cb fuel r = .ok r') : r'.ws.Idle := by
  induction fuel generalizing r with
  | zero => exact Except.ok.inj h ▸ hi
  | succ fuel ih =>
    rw [Comlink.bulkLoop] at h
    split_ifs at h
    · cases hf : lwsWsFrameRestIsPayload odd env cb r with
      | error e => simp [hf] at h
      | ok result =>
        simp only [hf] at h
        cases result with
        | none => exact Except.ok.inj h ▸ hi
        | some r₁ => exact ih (hi.frameRest hf) h
    · exact Except.ok.inj h ▸ hi

theorem WsRx.Idle.parseLoop {fuel : Nat} (hi : r.ws.Idle)
    (h : parseLoop odd env cb fuel r = .ok r') : r'.ws.Idle := by
  induction fuel generalizing r with
  | zero => exact Except.ok.inj h ▸ hi
  | succ fuel ih =>
    obtain ⟨ws, user, buf, stale⟩ := r
    cases buf with
    | nil => exact Except.ok.inj h ▸ hi
    | cons c rest =>
      simp only [Comlink.parseLoop] at h
      by_cases hd : ws.inData = true
      · rw [if_pos hd] at h
        cases hb : Comlink.bulkLoop odd env cb ((c :: rest).length + 1)
          ⟨ws, user, c :: rest, stale⟩ with
        | error e => simp only [hb, reduceCtorEq] at h
        | ok r₁ =>
          simp only [hb] at h
          cases hx : lwsWsRxSm env cb true true r₁.ws r₁.user 0 with
          | error e => simp [hx] at h
          | ok result =>
            simp only [hx] at h
            exact ih (WsRx.Idle.rxSm (hi.bulkLoop hb) (fun _ => rfl) hx) h
      · rw [if_neg hd] at h
        cases hx : lwsWsRxSm env cb false false ws user c with
        | error e => simp [hx] at h
        | ok result =>
          simp only [hx] at h
          exact ih (WsRx.Idle.rxSm hi (fun hd' => absurd hd' hd) hx) h

theorem WsRx.Idle.parseWs {ws ws' : WsRx} {user user' : κ} {buf stale : List Byte} (hi : ws.Idle)
    (h : parseOver odd env cb ws user buf stale = .ok (ws', user')) : ws'.Idle := by
  rw [parseOver] at h
  cases hp : Comlink.parseLoop odd env cb (2 * buf.length + 1) ⟨ws, user, buf, stale⟩ with
  | error e => simp [hp, Except.map] at h
  | ok r =>
    rw [hp] at h
    obtain ⟨rfl, -⟩ := Prod.mk.inj (Except.ok.inj h)
    exact WsRx.Idle.parseLoop (r := ⟨ws, user, buf, stale⟩) hi hp

end Reads

section Pieces

/-- A user that takes the payload as a stream of bytes, and leaves the memory
behind it alone. -/
def streamCallback (take : κ → List Byte → κ) : Callback κ Empty :=
  fun user p behind => .ok (take user p, behind)

/-- The outcome without what is left of a refused connection. -/
def outcome {α : Type} : Except (Stop κ Empty) α → Except Drop α
  | .ok a => .ok a
  | .error (.refused reason _ _) => .error reason
  | .error (.failed e) => e.elim

theorem outcome_eq_ok {α : Type} {x : Except (Stop κ Empty) α} {a : α} (h : outcome x = .ok a) :
    x = .ok a := by
  cases x with
  | ok b => rw [Except.ok.inj h]
  | error e =>
    cases e with
    | refused reason ws user => simp [outcome] at h
    | failed e => exact e.elim

theorem outcome_eq_error {α : Type} {x : Except (Stop κ Empty) α} {reason : Drop}
    (h : outcome x = .error reason) : ∃ ws user, x = .error (.refused reason ws user) := by
  cases x with
  | ok b => simp [outcome] at h
  | error e =>
    cases e with
    | refused reason' ws user =>
      rw [← Except.error.inj h]
      exact ⟨ws, user, rfl⟩
    | failed e => exact e.elim

theorem outcome_bind {α β : Type} (x : Except (Stop κ Empty) α) (f : α → Except (Stop κ Empty) β) :
    outcome (x.bind f) = (outcome x).bind fun a => outcome (f a) := by
  rcases x with (⟨reason, ws, user⟩ | e) | a
  · rfl
  · exact e.elim
  · rfl

variable {rem : Nat} {env : RxEnv} {take : κ → List Byte → κ} {ws : WsRx}

/-- The state of the UTF-8 check behind `p`, of which `left` bytes follow in the
frame. -/
def checkText (rem : Nat) (ws : WsRx) (left : Nat) (p : List Byte) : Except Drop Byte :=
  if ws.checkUtf8 then
    match lwsCheckUtf8 ws.utf8 p with
    | none => .error .badUtf8
    | some u => if left = 0 ∧ ws.final ∧ u ≠ 0 ∧ rem = 0 then .error .partialUtf8 else .ok u
  else .ok ws.utf8

theorem checkPayload_eq (rem : Nat) (ws : WsRx) (p : List Byte) :
    (checkPayload rem ws p).mapError Prod.fst =
      (checkText rem ws ws.rxPacketLength p).map fun u => { ws with utf8 := u } := by
  rw [checkPayload, checkText]
  by_cases hc : ws.checkUtf8 = true
  · rw [if_pos hc, if_pos hc]
    cases lwsCheckUtf8 ws.utf8 p with
    | none => rfl
    | some u =>
      by_cases hu : ws.rxPacketLength = 0 ∧ ws.final = true ∧ u ≠ 0 ∧ rem = 0
      · simp only [if_pos hu]
        rfl
      · simp only [if_neg hu]
        rfl
  · rw [if_neg hc, if_neg hc]
    rfl

/-- What the bulk path makes of a piece of raw payload of the frame. -/
def takePiece (rem : Nat) (env : RxEnv) (take : κ → List Byte → κ) (s : WsRx × κ) (p : List Byte) :
    Except Drop (WsRx × κ) :=
  if p = [] then .ok s
  else
    (checkText rem s.1 (s.1.rxPacketLength - p.length) (s.1.unmask p)).map fun u =>
      ({ s.1.consume p.length with utf8 := u, firstFragment := false },
        if env.preClose then s.2 else take s.2 (s.1.unmask p))

theorem takePiece_nil (s : WsRx × κ) : takePiece rem env take s [] = .ok s := if_pos rfl

theorem checkText_append {left left' : Nat} {p q : List Byte} (h : left ≠ 0) :
    checkText rem ws left' (p ++ q) =
      (checkText rem ws left p).bind fun u => checkText rem { ws with utf8 := u } left' q := by
  by_cases hc : ws.checkUtf8 = true
  · simp only [checkText, if_pos hc, lwsCheckUtf8_append]
    cases lwsCheckUtf8 ws.utf8 p with
    | none => rfl
    | some u =>
      have hmore : ¬ (left = 0 ∧ ws.final = true ∧ u ≠ 0 ∧ rem = 0) := fun hl => h hl.1
      simp only [Option.bind_some, if_neg hmore]
      rfl
  · simp only [checkText, if_neg hc]
    rfl

theorem WsRx.consume_consume (ws : WsRx) (a b : Nat) :
    (ws.consume a).consume b = ws.consume (a + b) := by
  cases hz : ws.allZeroNonce <;> simp [consume, hz, Nat.sub_sub, Nat.add_assoc]

theorem takePiece_append (htake : ∀ k a b, take k (a ++ b) = take (take k a) b) {s : WsRx × κ}
    {p q : List Byte} (hl : p.length + q.length ≤ s.1.rxPacketLength) :
    takePiece rem env take s (p ++ q) =
      (takePiece rem env take s p).bind (takePiece rem env take · q) := by
  by_cases hp : p = []
  · rw [hp, List.nil_append, takePiece_nil]
    rfl
  by_cases hq : q = []
  · subst hq
    rw [List.append_nil]
    cases takePiece rem env take s p <;> simp [Except.bind, takePiece_nil]
  have hpq : p ++ q ≠ [] := fun he => hp (List.append_eq_nil_iff.mp he).1
  have hleft : s.1.rxPacketLength - p.length ≠ 0 := by
    have := List.length_pos_iff.mpr hq
    omega
  have hsub : s.1.rxPacketLength - (p ++ q).length =
      s.1.rxPacketLength - p.length - q.length := by rw [List.length_append, Nat.sub_sub]
  rw [takePiece, if_neg hpq, takePiece, if_neg hp, s.1.unmask_append, checkText_append hleft]
  cases hc : checkText rem s.1 (s.1.rxPacketLength - p.length) (s.1.unmask p) with
  | error e => rfl
  | ok u =>
    have hcons := s.1.consume_consume p.length q.length
    rw [← List.length_append] at hcons
    simp only [Except.bind, Except.map]
    rw [takePiece, if_neg hq, hsub, ← hcons]
    change Except.map _ (checkText rem { s.1 with utf8 := u } _ _) =
      Except.map _ (checkText rem { s.1 with utf8 := u } _ _)
    refine congrFun (congrArg _ (funext fun u' => ?_)) _
    refine Prod.ext rfl ?_
    by_cases hpre : env.preClose = true
    · simp only [if_pos hpre]
    · simp only [if_neg hpre, htake]
      rfl

theorem takePiece_ok {s t : WsRx × κ} {p : List Byte} (h : takePiece rem env take s p = .ok t) :
    t.1.unusable = s.1.unusable ∧ t.1.parseState = s.1.parseState ∧ t.1.opcode = s.1.opcode ∧
      t.1.rxUbuf = s.1.rxUbuf ∧ t.1.rxPacketLength = s.1.rxPacketLength - p.length := by
  rw [takePiece] at h
  split_ifs at h with hp
  · obtain rfl := Except.ok.inj h
    simp [hp]
  all_goals
    cases hc : checkText rem s.1 (s.1.rxPacketLength - p.length) (s.1.unmask p) with
    | error e => simp [hc, Except.map] at h
    | ok u =>
      rw [hc] at h
      obtain rfl := Except.ok.inj h
      exact ⟨rfl, rfl, rfl, rfl, rfl⟩

theorem takePiece_nonce {s t : WsRx × κ} {p : List Byte} (h : takePiece rem env take s p = .ok t) :
    t.1.allZeroNonce = s.1.allZeroNonce := by
  rw [takePiece] at h
  split_ifs at h with hp
  · rw [← Except.ok.inj h]
  all_goals
    cases hc : checkText rem s.1 (s.1.rxPacketLength - p.length) (s.1.unmask p) with
    | error e => simp [hc, Except.map] at h
    | ok u =>
      rw [hc] at h
      obtain rfl := Except.ok.inj h
      rfl

theorem takePiece_inData {s t : WsRx × κ} {p : List Byte} (h : takePiece rem env take s p = .ok t) :
    t.1.inData = s.1.inData := by
  obtain ⟨-, hp, ho, -⟩ := takePiece_ok h
  rw [WsRx.inData, WsRx.inData, hp, ho]

theorem WsRx.Idle.takePiece {s t : WsRx × κ} {p : List Byte} (hi : s.1.Idle)
    (h : takePiece rem env take s p = .ok t) : t.1.Idle := by
  obtain ⟨hu, hp, ho, hb, -⟩ := takePiece_ok h
  refine ⟨hu.trans hi.usable, ?_⟩
  rw [hp, ho, hb]
  exact hi.empty

theorem takePiece_of_lt {s : WsRx × κ} {p : List Byte} (h : p.length < s.1.rxPacketLength)
    (rem' : Nat) : takePiece rem env take s p = takePiece rem' env take s p := by
  have hleft : s.1.rxPacketLength - p.length ≠ 0 := by omega
  have hcheck : checkText rem s.1 (s.1.rxPacketLength - p.length) (s.1.unmask p) =
      checkText rem' s.1 (s.1.rxPacketLength - p.length) (s.1.unmask p) := by
    simp only [checkText, hleft, false_and, if_false]
  rw [takePiece, takePiece, hcheck]

variable {odd : OddBytes}

theorem frameRestIsPayload_eq {r : Reading κ} {n : Nat}
    (hn : n = min (min rxBufferSize r.ws.rxPacketLength) r.buf.length) (hpos : n ≠ 0) :
    outcome (lwsWsFrameRestIsPayload odd env (streamCallback take) r) =
      (takePiece (odd r.ws n) env take (r.ws, r.user) (r.buf.take n)).map fun t =>
        some ⟨t.1, t.2, r.buf.drop n, r.stale⟩ := by
  have hlen : (r.buf.take n).length = n := by
    rw [List.length_take]
    omega
  have hne : r.buf.take n ≠ [] := fun he => hpos (by rw [← hlen, he]; rfl)
  rw [lwsWsFrameRestIsPayload, ← hn, takePiece, if_neg hne, hlen]
  simp only [if_neg hpos]
  generalize odd r.ws n = rem
  have hcheck := checkPayload_eq rem (r.ws.consume n) (r.ws.unmask (r.buf.take n))
  change _ = Except.map _ (checkText rem r.ws (r.ws.rxPacketLength - n) _) at hcheck
  cases hc : checkText rem r.ws (r.ws.rxPacketLength - n) (r.ws.unmask (r.buf.take n)) with
  | error reason =>
    cases hp : checkPayload rem (r.ws.consume n) (r.ws.unmask (r.buf.take n)) with
    | error e =>
      rw [hc, hp] at hcheck
      simp only [Except.mapError, Except.map, Except.error.injEq] at hcheck
      simp only [Except.map, outcome, hcheck]
    | ok ws =>
      rw [hc, hp] at hcheck
      simp [Except.mapError, Except.map] at hcheck
  | ok u =>
    cases hp : checkPayload rem (r.ws.consume n) (r.ws.unmask (r.buf.take n)) with
    | error e =>
      rw [hc, hp] at hcheck
      simp [Except.mapError, Except.map] at hcheck
    | ok ws =>
      rw [hc, hp] at hcheck
      obtain rfl := Except.ok.inj hcheck
      by_cases hpre : env.preClose = true
      · simp only [if_pos hpre]
        rfl
      · simp only [if_neg hpre, streamCallback, List.take_left, List.drop_left]
        rfl

/-- A full piece leaves nothing in `n`, so the number behind a piece is the one
behind all the pieces that a read has of the frame. -/
structure OddBytes.Regular (odd : OddBytes) : Prop where
  full : ∀ (ws ws' : WsRx) (n : Nat), ws'.allZeroNonce = ws.allZeroNonce →
    odd ws' n = odd ws (rxBufferSize + n)

theorem OddBytes.const_apply (rem : Nat) (ws : WsRx) (n : Nat) :
    OddBytes.const rem ws n = rem := rfl

theorem OddBytes.const_regular (rem : Nat) : (OddBytes.const rem).Regular := ⟨fun _ _ _ _ => rfl⟩

theorem oddBytes_regular : OddBytes.Regular WsRx.oddBytes := by
  refine ⟨fun ws ws' n h => ?_⟩
  have hmod : (rxBufferSize + n) % 4 = n % 4 := by
    simp only [rxBufferSize]
    omega
  rw [WsRx.oddBytes, WsRx.oddBytes, h, hmod]

/-- The inner loop takes what the read has of the frame. -/
theorem bulkLoop_eq (hodd : odd.Regular) (htake : ∀ k a b, take k (a ++ b) = take (take k a) b)
    (fuel : Nat) (r : Reading κ) (hd : r.ws.inData = true) (hf : r.buf.length < fuel) :
    outcome (bulkLoop odd env (streamCallback take) fuel r) =
      (takePiece (odd r.ws (min r.ws.rxPacketLength r.buf.length)) env take (r.ws, r.user)
        (r.buf.take r.ws.rxPacketLength)).map fun t =>
        ⟨t.1, t.2, r.buf.drop r.ws.rxPacketLength, r.stale⟩ := by
  induction fuel generalizing r with
  | zero => exact absurd hf (Nat.not_lt_zero _)
  | succ fuel ih =>
    obtain ⟨ws, user, buf, stale⟩ := r
    simp only at hd hf ⊢
    rw [bulkLoop]
    by_cases hb : buf = []
    · subst hb
      simp [takePiece_nil, outcome, Except.map]
    rw [if_pos (by simp [hd, hb])]
    by_cases hl : ws.rxPacketLength = 0
    · -- The answer 0: nothing is left of the frame.
      have hnone : lwsWsFrameRestIsPayload odd env (streamCallback take) ⟨ws, user, buf, stale⟩ =
          .ok none := by
        simp [lwsWsFrameRestIsPayload, hl]
      rw [hnone, hl]
      rfl
    generalize hn : min (min rxBufferSize ws.rxPacketLength) buf.length = n
    have hbuf := List.length_pos_iff.mpr hb
    have hsize : 0 < rxBufferSize := by decide
    have heq := @frameRestIsPayload_eq κ env take odd ⟨ws, user, buf, stale⟩ n hn.symm (by omega)
    have hsplit : buf.take ws.rxPacketLength =
        buf.take n ++ (buf.drop n).take (ws.rxPacketLength - n) := by
      rw [← List.take_add, Nat.add_sub_cancel' (by omega)]
    have hlen : (buf.take n).length = n := by
      rw [List.length_take]
      omega
    -- The number counts for the last piece only.
    have hrem : takePiece (odd ws n) env take (ws, user) (buf.take n) =
        takePiece (odd ws (min ws.rxPacketLength buf.length)) env take (ws, user) (buf.take n) := by
      by_cases hlast : n = min ws.rxPacketLength buf.length
      · rw [hlast]
      · exact takePiece_of_lt (by rw [hlen]; simp only; omega) _
    rw [hsplit, takePiece_append htake (by simp; omega), ← hrem]
    cases hp : takePiece (odd ws n) env take (ws, user) (buf.take n) with
    | error reason =>
      rw [hp] at heq
      obtain ⟨ws', user', heq⟩ := outcome_eq_error heq
      rw [heq]
      rfl
    | ok t =>
      rw [hp] at heq
      rw [outcome_eq_ok heq]
      have hrest : t.1.rxPacketLength = ws.rxPacketLength - n := by
        rw [(takePiece_ok hp).2.2.2.2, hlen]
      have hstep := ih ⟨t.1, t.2, buf.drop n, stale⟩ ((takePiece_inData hp).trans hd)
        (by simp only [List.length_drop]; omega)
      have hagain : takePiece (odd t.1 (min (ws.rxPacketLength - n) (buf.length - n))) env take t
            ((buf.drop n).take (ws.rxPacketLength - n)) =
          takePiece (odd ws (min ws.rxPacketLength buf.length)) env take t
            ((buf.drop n).take (ws.rxPacketLength - n)) := by
        by_cases hlast : n = min ws.rxPacketLength buf.length
        · have hnil : (buf.drop n).take (ws.rxPacketLength - n) = [] := by
            rw [← List.length_eq_zero_iff, List.length_take, List.length_drop]
            omega
          rw [hnil, takePiece_nil, takePiece_nil]
        · have hfull : rxBufferSize + min (ws.rxPacketLength - n) (buf.length - n) =
              min ws.rxPacketLength buf.length := by omega
          rw [hodd.full ws t.1 _ (takePiece_nonce hp), hfull]
      simp only [hrest, List.length_drop, List.drop_drop, hagain,
        Nat.add_sub_cancel' (show n ≤ ws.rxPacketLength by omega)] at hstep
      exact hstep

end Pieces

section Bytes

variable {rem : Nat} {env : RxEnv} {take : κ → List Byte → κ}

/-- The receiver without the bulk path: it takes every byte by itself, and a frame
is over with its last byte. -/
def byteStep (rem : Nat) (env : RxEnv) (take : κ → List Byte → κ) (s : WsRx × κ) (c : Byte) :
    Except Drop (WsRx × κ) :=
  (if s.1.inData then takePiece rem env take s [c]
    else outcome (lwsWsRxSm env (streamCallback take) false false s.1 s.2 c)).map fun t =>
      (t.1.settle, t.2)

theorem byteStep_ok {s t : WsRx × κ} {c : Byte} (hd : s.1.inData = false)
    (h : byteStep rem env take s c = .ok t) :
    ∃ u, lwsWsRxSm env (streamCallback take) false false s.1 s.2 c = .ok u ∧
      t = (u.1.settle, u.2) := by
  rw [byteStep, if_neg (by simp [hd])] at h
  cases hx : outcome (lwsWsRxSm env (streamCallback take) false false s.1 s.2 c) with
  | error reason => simp [hx, Except.map] at h
  | ok u =>
    rw [hx] at h
    exact ⟨u, outcome_eq_ok hx, (Except.ok.inj h).symm⟩

theorem byteStep_inData_ok {s t : WsRx × κ} {c : Byte} (hd : s.1.inData = true)
    (h : byteStep rem env take s c = .ok t) :
    ∃ u, takePiece rem env take s [c] = .ok u ∧ t = (u.1.settle, u.2) := by
  rw [byteStep, if_pos hd] at h
  cases hx : takePiece rem env take s [c] with
  | error reason => simp [hx, Except.map] at h
  | ok u =>
    rw [hx] at h
    exact ⟨u, rfl, (Except.ok.inj h).symm⟩

def feed (rem : Nat) (env : RxEnv) (take : κ → List Byte → κ) (s : WsRx × κ) (buf : List Byte) :
    Except Drop (WsRx × κ) :=
  buf.foldlM (byteStep rem env take) s

theorem feed_append (s : WsRx × κ) (a b : List Byte) :
    feed rem env take s (a ++ b) = (feed rem env take s a).bind (feed rem env take · b) :=
  List.foldlM_append

theorem feed_cons (s : WsRx × κ) (c : Byte) (b : List Byte) :
    feed rem env take s (c :: b) = (byteStep rem env take s c).bind (feed rem env take · b) :=
  List.foldlM_cons

theorem feed_piece (htake : ∀ k a b, take k (a ++ b) = take (take k a) b) {s : WsRx × κ}
    {p : List Byte} (hd : s.1.inData = true) (hpos : s.1.rxPacketLength ≠ 0)
    (hl : p.length ≤ s.1.rxPacketLength) :
    feed rem env take s p = (takePiece rem env take s p).map fun t => (t.1.settle, t.2) := by
  induction p generalizing s with
  | nil =>
    rw [takePiece_nil]
    simp only [Except.map, WsRx.settle_of_pos hpos]
    rfl
  | cons c p ih =>
    rw [List.length_cons] at hl
    rw [feed_cons, byteStep, if_pos hd, ← List.singleton_append (l := p),
      takePiece_append htake (by simp; omega)]
    cases hc : takePiece rem env take s [c] with
    | error e => rfl
    | ok t =>
      have hlen : t.1.rxPacketLength = s.1.rxPacketLength - 1 := (takePiece_ok hc).2.2.2.2
      have hdt : t.1.inData = true := (takePiece_inData hc).trans hd
      simp only [Except.bind, Except.map]
      by_cases hp : p = []
      · subst hp
        rw [takePiece_nil]
        rfl
      · have := List.length_pos_iff.mpr hp
        rw [WsRx.settle_of_pos (by omega)]
        exact ih (s := t) hdt (by omega) (by omega)

def Reading.settled (r : Reading κ) : WsRx × κ := (r.ws.settle, r.user)

/-- The turns the outer loop may still take. -/
def Reading.turns (r : Reading κ) : Nat := 2 * r.buf.length + if r.ws.inData then 1 else 0

theorem parseLoop_eq (htake : ∀ k a b, take k (a ++ b) = take (take k a) b) (fuel : Nat)
    (r : Reading κ) (hi : r.ws.Idle) (hf : r.turns ≤ fuel) :
    (outcome (parseLoop (.const rem) env (streamCallback take) fuel r)).map Reading.settled =
      feed rem env take r.settled r.buf := by
  induction fuel generalizing r with
  | zero =>
    have hb : r.buf = [] := by
      have : 2 * r.buf.length ≤ 0 := (Nat.le_add_right _ _).trans hf
      exact List.length_eq_zero_iff.mp (by omega)
    rw [hb]
    rfl
  | succ fuel ih =>
    obtain ⟨ws, user, buf, stale⟩ := r
    cases buf with
    | nil => rfl
    | cons c rest =>
      have hturns : 2 * (rest.length + 1) + (if ws.inData then 1 else 0) ≤ fuel + 1 := hf
      simp only [parseLoop]
      by_cases hd : ws.inData = true
      · rw [if_pos hd] at hturns ⊢
        have hbulk := @bulkLoop_eq κ env take (.const rem) (OddBytes.const_regular rem) htake
          ((c :: rest).length + 1) ⟨ws, user, c :: rest, stale⟩ hd (Nat.lt_succ_self _)
        rw [OddBytes.const_apply] at hbulk
        by_cases hl : ws.rxPacketLength = 0
        · simp only [hl, List.take_zero, List.drop_zero, takePiece_nil, Except.map] at hbulk
          rw [outcome_eq_ok hbulk]
          simp only [rxSm_settle hi hd]
          have hnot : ws.settle.inData = false := by
            rw [WsRx.settle, if_pos ⟨hd, hl⟩]
            rfl
          have hrec := ih ⟨ws.settle, user, c :: rest, stale⟩ hi.settle
            (by simp only [Reading.turns, hnot, List.length_cons, Bool.false_eq_true,
              if_false]; omega)
          simpa only [Reading.settled, WsRx.settle_settle] using hrec
        · have hset : (⟨ws, user, c :: rest, stale⟩ : Reading κ).settled = (ws, user) :=
            Prod.ext (WsRx.settle_of_pos hl) rfl
          have hpiece := @feed_piece κ rem env take htake (ws, user)
            ((c :: rest).take ws.rxPacketLength) hd hl (List.length_take_le _ _)
          rw [hset, ← List.take_append_drop ws.rxPacketLength (c :: rest), feed_append, hpiece,
            List.take_append_drop]
          cases hp : takePiece rem env take (ws, user) ((c :: rest).take ws.rxPacketLength) with
          | error reason =>
            simp only [hp, Except.map] at hbulk
            obtain ⟨ws', user', hbulk⟩ := outcome_eq_error hbulk
            rw [hbulk]
            rfl
          | ok t =>
            simp only [hp, Except.map] at hbulk
            rw [outcome_eq_ok hbulk]
            simp only [rxSm_settle (hi.takePiece hp) ((takePiece_inData hp).trans hd)]
            have hrec := ih ⟨t.1.settle, t.2, (c :: rest).drop ws.rxPacketLength, stale⟩
              (hi.takePiece hp).settle (by
                simp only [Reading.turns, List.length_drop, List.length_cons]
                split_ifs <;> omega)
            simp only [Reading.settled, WsRx.settle_settle] at hrec
            exact hrec
      · rw [if_neg hd] at hturns ⊢
        have hset : (⟨ws, user, c :: rest, stale⟩ : Reading κ).settled = (ws, user) :=
          Prod.ext (WsRx.settle_of_not_inData (by simpa using hd)) rfl
        rw [hset, feed_cons, byteStep, if_neg hd]
        cases hx : lwsWsRxSm env (streamCallback take) false false ws user c with
        | error e =>
          cases e with
          | refused reason ws' user' => rfl
          | failed e => exact e.elim
        | ok result =>
          have hrec := ih ⟨result.1, result.2, rest, stale⟩
            (hi.rxSm (fun h => absurd h hd) hx) (by
              simp only [Reading.turns]
              split_ifs <;> omega)
          exact hrec

theorem parseOver_eq (htake : ∀ k a b, take k (a ++ b) = take (take k a) b) {ws : WsRx}
    (hi : ws.Idle) (user : κ) (buf stale : List Byte) :
    (outcome (parseOver (.const rem) env (streamCallback take) ws user buf stale)).map
        (fun t => (t.1.settle, t.2)) =
      feed rem env take (ws.settle, user) buf := by
  have h := @parseLoop_eq κ rem env take htake (2 * buf.length + 1) ⟨ws, user, buf, stale⟩ hi (by
    simp only [Reading.turns]
    split_ifs <;> omega)
  rw [parseOver]
  change _ = feed rem env take (ws.settle, user) buf at h
  rw [← h]
  cases parseLoop (.const rem) env (streamCallback take) (2 * buf.length + 1)
    ⟨ws, user, buf, stale⟩ with
  | ok r => rfl
  | error e =>
    cases e with
    | refused reason ws' user' => rfl
    | failed e => exact e.elim

/-- The reads of a connection one after the other, each with what the buffer holds
behind it. -/
def readsOver (odd : OddBytes) (env : RxEnv) (cb : Callback κ φ) (s : WsRx × κ)
    (reads : List (List Byte × List Byte)) : Except (Stop κ φ) (WsRx × κ) :=
  reads.foldlM (fun s read => parseOver odd env cb s.1 s.2 read.1 read.2) s

def parseReads (env : RxEnv) (cb : Callback κ φ) :
    WsRx × κ → List (List Byte × List Byte) → Except (Stop κ φ) (WsRx × κ) :=
  readsOver WsRx.oddBytes env cb

theorem readsOver_eq (htake : ∀ k a b, take k (a ++ b) = take (take k a) b) {s : WsRx × κ}
    (hi : s.1.Idle) (reads : List (List Byte × List Byte)) :
    (outcome (readsOver (.const rem) env (streamCallback take) s reads)).map
        (fun t => (t.1.settle, t.2)) =
      feed rem env take (s.1.settle, s.2) (joined reads) := by
  induction reads generalizing s with
  | nil => rfl
  | cons read reads ih =>
    have hread := @parseOver_eq κ rem env take htake s.1 hi s.2 read.1 read.2
    rw [readsOver, List.foldlM_cons, joined_cons, feed_append, ← hread]
    cases hp : parseOver (.const rem) env (streamCallback take) s.1 s.2 read.1 read.2 with
    | ok t => exact ih (hi.parseWs hp)
    | error e =>
      cases e with
      | refused reason ws' user' => rfl
      | failed e => exact e.elim

end Bytes

end Comlink
