import Comlink.Ws.Conversation

/-! What one read makes of any user: the turns of `lws_parse_ws` one by one, and the
frames at the front of a read. -/

namespace Comlink

open CText WireBytes

variable {κ φ : Type}

section Turns

variable {odd : OddBytes} {env : RxEnv} {cb : Callback κ φ} {r r' : Reading κ} {fuel fuel' : Nat}

theorem frameRest_shorter (h : lwsWsFrameRestIsPayload odd env cb r = .ok (some r')) :
    r'.buf.length < r.buf.length := by
  obtain ⟨n, u, hn, -, -, hl, -, hrest⟩ := frameRestIsPayload_ok h
  rcases hrest with ⟨-, -, hb, -⟩ | ⟨-, behind, -, hb, -⟩
  · rw [hb, List.length_drop]
    omega
  · rw [hb, List.length_take]
    omega

theorem bulkLoop_stable (h : r.buf.length < fuel) (h' : r.buf.length < fuel') :
    bulkLoop odd env cb fuel r = bulkLoop odd env cb fuel' r := by
  induction fuel generalizing fuel' r with
  | zero => omega
  | succ fuel ih =>
    cases fuel' with
    | zero => omega
    | succ fuel' =>
      rw [bulkLoop, bulkLoop]
      split_ifs
      · cases hp : lwsWsFrameRestIsPayload odd env cb r with
        | error e => rfl
        | ok result =>
          cases result with
          | none => rfl
          | some r₁ =>
            have hlt := frameRest_shorter hp
            exact ih (by omega) (by omega)
      · rfl

/-- A piece: what is left of the frame, of the read and of the buffer's size bounds it. -/
theorem frameRest_eq {n : Nat} (hn : min (min rxBufferSize r.ws.rxPacketLength) r.buf.length = n)
    (hpos : n ≠ 0) :
    lwsWsFrameRestIsPayload odd env cb r =
      match checkPayload (odd r.ws n) (r.ws.consume n) (r.ws.unmask (r.buf.take n)) with
      | .error (reason, ws) => .error (.refused reason ws r.user)
      | .ok ws =>
        if env.preClose then
          .ok (some ⟨{ ws with firstFragment := false }, r.user, r.buf.drop n, r.stale⟩)
        else
          match cb r.user (r.ws.unmask (r.buf.take n)) (r.buf.drop n ++ r.stale) with
          | .error e => .error (.failed e)
          | .ok (user, behind) =>
            .ok (some ⟨{ ws with firstFragment := false }, user,
              behind.take (r.buf.drop n).length, behind.drop (r.buf.drop n).length⟩) := by
  subst hn
  exact if_neg hpos

theorem frameRest_none (h : lwsWsFrameRestIsPayload odd env cb r = .ok none) :
    r.ws.rxPacketLength = 0 ∨ r.buf = [] := by
  by_contra hno
  obtain ⟨hl, hb⟩ := not_or.mp hno
  have hpos := List.length_pos_iff.mpr hb
  have hsize : 0 < rxBufferSize := by decide
  rw [frameRest_eq rfl (by omega)] at h
  split at h
  · simp at h
  · split_ifs at h
    · simp at h
    · split at h <;> simp at h

theorem bulkLoop_le (h : bulkLoop odd env cb fuel r = .ok r') : r'.buf.length ≤ r.buf.length := by
  induction fuel generalizing r with
  | zero => rw [Except.ok.inj h]
  | succ fuel ih =>
    rw [bulkLoop] at h
    split_ifs at h
    · cases hp : lwsWsFrameRestIsPayload odd env cb r with
      | error e => simp [hp] at h
      | ok result =>
        simp only [hp] at h
        cases result with
        | none => rw [Except.ok.inj h]
        | some r₁ => exact (ih h).trans (frameRest_shorter hp).le
    · rw [Except.ok.inj h]

theorem bulkLoop_inData (h : bulkLoop odd env cb fuel r = .ok r') : r'.ws.inData = r.ws.inData := by
  induction fuel generalizing r with
  | zero => rw [Except.ok.inj h]
  | succ fuel ih =>
    rw [bulkLoop] at h
    split_ifs at h
    · cases hp : lwsWsFrameRestIsPayload odd env cb r with
      | error e => simp [hp] at h
      | ok result =>
        simp only [hp] at h
        cases result with
        | none => rw [Except.ok.inj h]
        | some r₁ =>
          obtain ⟨n, u, -, -, -, -, hw, -⟩ := frameRestIsPayload_ok hp
          rw [ih h, hw]
          rfl
    · rw [Except.ok.inj h]

theorem settle_inData_of_zero {ws : WsRx} (hd : ws.inData = true) (h0 : ws.rxPacketLength = 0) :
    ws.settle.inData = false := by
  rw [WsRx.settle, if_pos ⟨hd, h0⟩]
  rfl

theorem turns_of_bulkLoop (hd : r.ws.inData = true) (hb : r.buf ≠ [])
    (h : bulkLoop odd env cb (fuel + 1) r = .ok r') :
    ({ r' with ws := r'.ws.settle } : Reading κ).turns < r.turns := by
  rw [bulkLoop, if_pos (by simp [hd, hb])] at h
  cases hp : lwsWsFrameRestIsPayload odd env cb r with
  | error e => simp [hp] at h
  | ok result =>
    simp only [hp] at h
    cases result with
    | none =>
      obtain rfl := Except.ok.inj h
      have h0 := (frameRest_none hp).resolve_right hb
      simp only [Reading.turns, settle_inData_of_zero hd h0, hd, Bool.false_eq_true, if_false,
        if_true]
      omega
    | some r₁ =>
      have hlt := frameRest_shorter hp
      have hle := bulkLoop_le h
      simp only [Reading.turns, hd, if_true]
      split_ifs <;> omega

/-- More turns than there are to take do nothing. -/
theorem parseLoop_stable (hi : r.ws.Idle) (h : r.turns ≤ fuel) (h' : r.turns ≤ fuel') :
    parseLoop odd env cb fuel r = parseLoop odd env cb fuel' r := by
  induction fuel generalizing fuel' r with
  | zero =>
    have hb : r.buf = [] := by
      have : 2 * r.buf.length ≤ 0 := (Nat.le_add_right _ _).trans h
      exact List.length_eq_zero_iff.mp (by omega)
    cases fuel' with
    | zero => rfl
    | succ fuel' => simp only [parseLoop, hb]
  | succ fuel ih =>
    obtain ⟨ws, user, buf, stale⟩ := r
    cases buf with
    | nil => cases fuel' <;> rfl
    | cons c rest =>
      cases fuel' with
      | zero => simp [Reading.turns] at h'
      | succ fuel' =>
        simp only [parseLoop]
        by_cases hd : ws.inData = true
        · rw [if_pos hd, if_pos hd]
          cases hbulk : bulkLoop odd env cb ((c :: rest).length + 1)
            ⟨ws, user, c :: rest, stale⟩ with
          | error e => rfl
          | ok r₁ =>
            have hturns := turns_of_bulkLoop hd (by simp) hbulk
            have hi₁ := WsRx.Idle.bulkLoop (r := ⟨ws, user, c :: rest, stale⟩) hi hbulk
            have hd₁ : r₁.ws.inData = true := (bulkLoop_inData hbulk).trans hd
            simp only [rxSm_settle hi₁ hd₁]
            exact ih hi₁.settle (by omega) (by omega)
        · rw [if_neg hd, if_neg hd]
          cases hx : lwsWsRxSm env cb false false ws user c with
          | error e => rfl
          | ok t =>
            refine ih (WsRx.Idle.rxSm hi (fun hd' => absurd hd' hd) hx) ?_ ?_ <;>
            · simp only [Reading.turns, List.length_cons] at h h' ⊢
              split_ifs at h h' ⊢ <;> omega

variable {ws ws' : WsRx} {user user' : κ} {buf stale : List Byte}

theorem parseWs_eq (fuel : Nat) (hi : ws.Idle) (h : Reading.turns ⟨ws, user, buf, stale⟩ ≤ fuel) :
    parseOver odd env cb ws user buf stale =
      (parseLoop odd env cb fuel ⟨ws, user, buf, stale⟩).map fun r => (r.ws, r.user) := by
  have hf : Reading.turns ⟨ws, user, buf, stale⟩ ≤ 2 * buf.length + 1 := by
    simp only [Reading.turns]
    split_ifs <;> omega
  rw [parseOver, parseLoop_stable hi hf h]

/-- The state between two turns: a data frame without payload to come is over. -/
def settled (x : Except (Stop κ φ) (WsRx × κ)) : Except (Stop κ φ) (WsRx × κ) :=
  x.map fun t => (t.1.settle, t.2)

theorem parseWs_cons (hi : ws.Idle) (hd : ws.inData = false) (c : Byte) (rest : List Byte) :
    parseOver odd env cb ws user (c :: rest) stale =
      (lwsWsRxSm env cb false false ws user c).bind fun t =>
        parseOver odd env cb t.1 t.2 rest stale := by
  have hturns : Reading.turns ⟨ws, user, c :: rest, stale⟩ ≤ 2 * rest.length + 1 + 1 := by
    simp only [Reading.turns, hd, List.length_cons, Bool.false_eq_true, if_false]
    omega
  rw [parseWs_eq _ hi hturns]
  simp only [parseLoop, hd, Bool.false_eq_true, if_false]
  cases hx : lwsWsRxSm env cb false false ws user c with
  | error e => rfl
  | ok t =>
    have hi' := WsRx.Idle.rxSm hi (fun hd' => absurd hd' (by simp [hd])) hx
    have hrest : Reading.turns ⟨t.1, t.2, rest, stale⟩ ≤ 2 * rest.length + 1 := by
      simp only [Reading.turns]
      split_ifs <;> omega
    exact (parseWs_eq _ hi' hrest).symm

theorem parseWs_bulk (hi : ws.Idle) (hd : ws.inData = true) (hb : buf ≠ []) :
    parseOver odd env cb ws user buf stale =
      (bulkLoop odd env cb (buf.length + 1) ⟨ws, user, buf, stale⟩).bind fun r =>
        parseOver odd env cb r.ws.settle r.user r.buf r.stale := by
  cases buf with
  | nil => exact absurd rfl hb
  | cons c rest =>
    have hturns : Reading.turns ⟨ws, user, c :: rest, stale⟩ ≤ 2 * rest.length + 2 + 1 := by
      simp only [Reading.turns, hd, List.length_cons, if_true]
      omega
    rw [parseWs_eq _ hi hturns]
    simp only [parseLoop, hd, if_true]
    cases hbulk : bulkLoop odd env cb ((c :: rest).length + 1) ⟨ws, user, c :: rest, stale⟩ with
    | error e => rfl
    | ok r =>
      have hi' := WsRx.Idle.bulkLoop (r := ⟨ws, user, c :: rest, stale⟩) hi hbulk
      have hd' : r.ws.inData = true := (bulkLoop_inData hbulk).trans hd
      have hlt := turns_of_bulkLoop hd hb hbulk
      have hrest : Reading.turns ⟨r.ws.settle, r.user, r.buf, r.stale⟩ ≤ 2 * rest.length + 2 := by
        omega
      simp only [rxSm_settle hi' hd']
      exact (parseWs_eq _ hi'.settle hrest).symm

theorem parseWs_settle (hi : ws.Idle) :
    settled (parseOver odd env cb ws.settle user buf stale) =
      settled (parseOver odd env cb ws user buf stale) := by
  by_cases h : ws.inData = true ∧ ws.rxPacketLength = 0
  · by_cases hb : buf = []
    · subst hb
      simp only [settled, parseOver, parseLoop, Except.map, WsRx.settle_settle]
    · have hbulk : bulkLoop odd env cb (buf.length + 1) ⟨ws, user, buf, stale⟩ =
          .ok ⟨ws, user, buf, stale⟩ := by
        have hnone : lwsWsFrameRestIsPayload odd env cb ⟨ws, user, buf, stale⟩ = .ok none := by
          simp [lwsWsFrameRestIsPayload, h.2]
        rw [bulkLoop, if_pos (by simp [h.1, hb]), hnone]
      rw [parseWs_bulk hi h.1 hb, hbulk]
      rfl
  · rw [WsRx.settle, if_neg h]

theorem parseWs_piece (hi : ws.Idle) (hd : ws.inData = true) {r : Reading κ}
    (h : lwsWsFrameRestIsPayload odd env cb ⟨ws, user, buf, stale⟩ = .ok (some r)) :
    settled (parseOver odd env cb ws user buf stale) =
      settled (parseOver odd env cb r.ws r.user r.buf r.stale) := by
  have hb : buf ≠ [] := by
    rintro rfl
    exact absurd (frameRest_shorter h) (Nat.not_lt_zero _)
  have hlt := frameRest_shorter h
  have hi' : r.ws.Idle := WsRx.Idle.frameRest (r := ⟨ws, user, buf, stale⟩) hi h
  have hd' : r.ws.inData = true := by
    obtain ⟨n, u, -, -, -, -, hw, -⟩ := frameRestIsPayload_ok h
    rw [hw]
    exact hd
  rw [parseWs_bulk hi hd hb, bulkLoop, if_pos (by simp [hd, hb]), h]
  by_cases hr : r.buf = []
  · have hstop : bulkLoop odd env cb buf.length r = .ok r := by
      cases buf.length with
      | zero => rfl
      | succ n => rw [bulkLoop, if_neg (by simp [hr])]
    simp only [hstop, Except.bind, hr, parseWs_settle hi']
  · have hsame : bulkLoop odd env cb buf.length r = bulkLoop odd env cb (r.buf.length + 1) r :=
      bulkLoop_stable hlt (Nat.lt_succ_self _)
    rw [parseWs_bulk hi' hd' hr, ← hsame]

theorem parseWs_piece_error (hi : ws.Idle) (hd : ws.inData = true) (hb : buf ≠ []) {e : Stop κ φ}
    (h : lwsWsFrameRestIsPayload odd env cb ⟨ws, user, buf, stale⟩ = .error e) :
    parseOver odd env cb ws user buf stale = .error e := by
  rw [parseWs_bulk hi hd hb, bulkLoop, if_pos (by simp [hd, hb]), h]
  rfl

theorem settled_bind {x y : Except (Stop κ φ) (WsRx × κ)}
    {f : WsRx × κ → Except (Stop κ φ) (WsRx × κ)} (h : settled x = settled y)
    (hx : ∀ t, x = .ok t → settled (f (t.1.settle, t.2)) = settled (f t))
    (hy : ∀ t, y = .ok t → settled (f (t.1.settle, t.2)) = settled (f t)) :
    settled (x.bind f) = settled (y.bind f) := by
  cases x with
  | error e =>
    cases y with
    | error e' => rw [Except.error.inj h]
    | ok t' => simp [settled, Except.map] at h
  | ok t =>
    cases y with
    | error e' => simp [settled, Except.map] at h
    | ok t' =>
      have hsame : (t.1.settle, t.2) = (t'.1.settle, t'.2) := Except.ok.inj h
      change settled (f t) = settled (f t')
      rw [← hx t rfl, hsame, hy t' rfl]

theorem readsOver_cons {cb : Callback κ φ} (s : WsRx × κ) (read : List Byte × List Byte)
    (reads : List (List Byte × List Byte)) :
    readsOver odd env cb s (read :: reads) =
      (parseOver odd env cb s.1 s.2 read.1 read.2).bind (readsOver odd env cb · reads) :=
  List.foldlM_cons

theorem readsOver_settle {cb : Callback κ φ} (hi : ws.Idle) (reads : List (List Byte × List Byte)) :
    settled (readsOver odd env cb (ws.settle, user) reads) =
      settled (readsOver odd env cb (ws, user) reads) := by
  induction reads generalizing ws user with
  | nil => simp only [readsOver, List.foldlM_nil, settled, pure, Except.pure, Except.map,
      WsRx.settle_settle]
  | cons read reads ih =>
    rw [readsOver_cons, readsOver_cons]
    exact settled_bind (parseWs_settle hi) (fun t ht => ih (hi.settle.parseWs ht))
      (fun t ht => ih (hi.parseWs ht))

end Turns

section Silent

/-- The user would hear of nothing that is spilled. -/
structure WsRx.Quiet (ws : WsRx) : Prop extends WsRx.Idle ws where
  closing : ws.peerHasSentClose = true →
    ws.lwsiState = .returnedClose ∨ ws.lwsiState = .awaitingCloseAck

variable {κ' φ' : Type} {odd : OddBytes} {rem : Nat} {env : RxEnv} {cb : Callback κ φ}
  {ws ws' : WsRx} {user user' : κ} {c : Byte}

/-- A call of the receiver that does not reach the user. -/
def unheard (x : Except (Drop × WsRx) WsRx) (user : κ) : Except (Stop κ φ) (WsRx × κ) :=
  match x with
  | .error (reason, ws) => .error (.refused reason ws user)
  | .ok ws => .ok (ws, user)

theorem passUp_unheard (env : RxEnv) (hs : (ws.rxUbuf = [] ∨ ws.lwsiState = .returnedClose ∨
      ws.lwsiState = .awaitingCloseAck) ∨ ws.opcode = .pong) :
    ∃ x, ∀ {κ φ : Type} (cb : Callback κ φ) (user : κ),
      passUp env cb false ws user = unheard x user := by
  by_cases hskip : ws.rxUbuf = [] ∨ ws.lwsiState = .returnedClose ∨ ws.lwsiState = .awaitingCloseAck
  · refine ⟨.ok { ws with rxUbuf := [] }, fun cb user => ?_⟩
    rw [passUp, if_pos hskip]
    rfl
  · cases hc : checkPayload 0 ws ws.rxUbuf with
    | error e =>
      refine ⟨.error e, fun cb user => ?_⟩
      rw [passUp, if_neg hskip, hc]
      rfl
    | ok ws₁ =>
      obtain ⟨u, rfl⟩ := checkPayload_keeps hc
      have hpong : (false || ws.opcode == .pong) = true := by
        rw [hs.resolve_left hskip]
        rfl
      refine ⟨if env.preClose then .ok { ws with utf8 := u, rxUbuf := [] }
        else .ok { ws with utf8 := u, firstFragment := false, rxUbuf := [] }, fun cb user => ?_⟩
      rw [passUp, if_neg hskip, hc]
      simp only [hpong, if_true]
      split_ifs <;> rfl

/-- A frame that is over, unless it is a data frame with payload in `rx_ubuf`. -/
theorem spill_unheard (env : RxEnv) (hclosing : ws.peerHasSentClose = true →
      ws.lwsiState = .returnedClose ∨ ws.lwsiState = .awaitingCloseAck)
    (hdata : ws.opcode.isControl = false → ws.rxUbuf = []) :
    ∃ x, ∀ {κ φ : Type} (cb : Callback κ φ) (user : κ),
      spill env cb false ws user = unheard x user := by
  cases ho : ws.opcode with
  | close =>
    by_cases hp : ws.peerHasSentClose = true
    · obtain ⟨x, hx⟩ := passUp_unheard env (Or.inl (Or.inr (hclosing hp)))
      refine ⟨x, fun cb user => ?_⟩
      rw [← hx cb user, spill, ho]
      simp only [hp, if_true]
    · refine ⟨spillClose env ws, fun cb user => ?_⟩
      rw [spill, ho]
      simp only [if_neg hp]
      cases spillClose env ws <;> rfl
  | ping =>
    refine ⟨.ok (if ws.pingPendingFlag then { ws with rxUbuf := [] } else processAsPing ws),
      fun cb user => ?_⟩
    rw [spill, ho]
    simp only
    split_ifs <;> rfl
  | pong =>
    obtain ⟨x, hx⟩ := passUp_unheard env (Or.inr ho)
    refine ⟨x, fun cb user => ?_⟩
    rw [← hx cb user, spill, ho]
  | text | binary | continuation =>
    obtain ⟨x, hx⟩ := @passUp_unheard ws env (Or.inl (Or.inl (hdata (by simp [ho]))))
    refine ⟨x, fun cb user => ?_⟩
    rw [← hx cb user, spill, ho]

theorem processAsPing_closing (ws : WsRx) :
    (processAsPing ws).lwsiState = ws.lwsiState ∧
      (processAsPing ws).peerHasSentClose = ws.peerHasSentClose := by
  rw [processAsPing]
  split_ifs <;> exact ⟨rfl, rfl⟩

theorem spill_closing (hclosing : ws.peerHasSentClose = true →
      ws.lwsiState = .returnedClose ∨ ws.lwsiState = .awaitingCloseAck)
    (h : spill env cb false ws user = .ok (ws', user')) :
    ws'.peerHasSentClose = true →
      ws'.lwsiState = .returnedClose ∨ ws'.lwsiState = .awaitingCloseAck := by
  rw [spill] at h
  split at h
  · split_ifs at h
    · obtain ⟨u, first, rfl⟩ := passUp_ok h
      exact hclosing
    · cases hc : spillClose env ws with
      | error e => simp [hc] at h
      | ok ws₁ =>
        simp only [hc] at h
        obtain ⟨rfl, -⟩ := Prod.mk.inj (Except.ok.inj h)
        obtain ⟨u, rfl⟩ := spillClose_ok hc
        exact fun _ => Or.inl (processAsPing_closing _).1
  · split_ifs at h
    · obtain ⟨rfl, -⟩ := Prod.mk.inj (Except.ok.inj h)
      exact hclosing
    · obtain ⟨rfl, -⟩ := Prod.mk.inj (Except.ok.inj h)
      rw [(processAsPing_closing ws).1, (processAsPing_closing ws).2]
      exact hclosing
  · obtain ⟨u, first, rfl⟩ := passUp_ok h
    exact hclosing

theorem advance_closing (hq : ws.Quiet) {spills : Bool}
    (h : advance env false ws c = .ok (ws', spills)) : ws'.peerHasSentClose = true →
      ws'.lwsiState = .returnedClose ∨ ws'.lwsiState = .awaitingCloseAck := by
  have hkeep := advance_upkeep h
  rw [show ws'.peerHasSentClose = ws.peerHasSentClose from congrArg Upkeep.peerHasSentClose hkeep,
    show ws'.lwsiState = ws.lwsiState from congrArg Upkeep.lwsiState hkeep]
  exact hq.closing

theorem advance_spills (hq : ws.Quiet) (hd : ws.inData = false)
    (h : advance env false ws c = .ok (ws', true)) (hc : ws'.opcode.isControl = false) :
    ws'.rxUbuf = [] := by
  by_cases hp : ws.parseState = .wsFramePayload
  · have ho := (advance_payload_keeps hp h).2.1
    exact absurd (WsRx.inData_iff.mpr ⟨hp, ho ▸ hc⟩) (by simp [hd])
  · rw [(advance_header_keeps hp h).2, hq.empty (Or.inl hp)]

theorem WsRx.Quiet.rxSm (hq : ws.Quiet) (hd : ws.inData = false)
    (h : lwsWsRxSm env cb false false ws user c = .ok (ws', user')) : ws'.Quiet := by
  refine ⟨WsRx.Idle.rxSm hq.toIdle (fun hd' => absurd hd' (by simp [hd])) h, ?_⟩
  rw [lwsWsRxSm, hq.usable, if_neg Bool.false_ne_true] at h
  cases ha : advance env false ws c with
  | error e => simp [ha] at h
  | ok result =>
    obtain ⟨ws₁, spills⟩ := result
    cases spills with
    | false =>
      simp only [ha] at h
      obtain ⟨rfl, -⟩ := Prod.mk.inj (Except.ok.inj h)
      exact advance_closing hq ha
    | true =>
      simp only [ha] at h
      exact spill_closing (advance_closing hq ha) h

/-- No user hears of a byte outside the payload of a data frame. -/
theorem rxSm_unheard (env : RxEnv) (hq : ws.Quiet) (hd : ws.inData = false) (c : Byte) :
    ∃ x, ∀ {κ φ : Type} (cb : Callback κ φ) (user : κ),
      lwsWsRxSm env cb false false ws user c = unheard x user := by
  cases ha : advance env false ws c with
  | error e =>
    refine ⟨.error e, fun cb user => ?_⟩
    rw [lwsWsRxSm, hq.usable, if_neg Bool.false_ne_true, ha]
    rfl
  | ok result =>
    obtain ⟨ws₁, spills⟩ := result
    cases spills with
    | false =>
      refine ⟨.ok ws₁, fun cb user => ?_⟩
      rw [lwsWsRxSm, hq.usable, if_neg Bool.false_ne_true, ha]
      rfl
    | true =>
      obtain ⟨x, hx⟩ := spill_unheard env (advance_closing hq ha) (advance_spills hq hd ha)
      refine ⟨x, fun cb user => ?_⟩
      rw [lwsWsRxSm, hq.usable, if_neg Bool.false_ne_true, ha, ← hx cb user]

theorem unheard_eq_ok {x : Except (Drop × WsRx) WsRx}
    (h : (unheard x user : Except (Stop κ φ) (WsRx × κ)) = .ok (ws', user')) :
    x = .ok ws' ∧ user' = user := by
  cases x with
  | error e => simp [unheard] at h
  | ok ws =>
    obtain ⟨rfl, rfl⟩ := Prod.mk.inj (Except.ok.inj h)
    exact ⟨rfl, rfl⟩

theorem rxSm_silent (hq : ws.Quiet) (hd : ws.inData = false)
    (h : lwsWsRxSm env cb false false ws user c = .ok (ws', user')) (cb' : Callback κ' φ')
    (k : κ') :
    lwsWsRxSm env cb' false false ws k c = .ok (ws', k) := by
  obtain ⟨x, hx⟩ := rxSm_unheard env hq hd c
  rw [hx] at h ⊢
  rw [(unheard_eq_ok h).1]
  rfl

theorem takePiece_upkeep {take : κ → List Byte → κ} {s t : WsRx × κ} {p : List Byte} (hp : p ≠ [])
    (h : takePiece rem env take s p = .ok t) :
    t.1.upkeep = s.1.upkeep ∧ t.2 = if env.preClose then s.2 else take s.2 (s.1.unmask p) := by
  rw [takePiece, if_neg hp] at h
  cases hc : checkText rem s.1 (s.1.rxPacketLength - p.length) (s.1.unmask p) with
  | error e => simp [hc, Except.map] at h
  | ok u =>
    rw [hc] at h
    obtain rfl := Except.ok.inj h
    exact ⟨rfl, rfl⟩

/-- A user that only notes that it has been called. -/
def noticed (_ : Bool) (_ : List Byte) : Bool := true

theorem WsRx.Quiet.settle (hq : ws.Quiet) : ws.settle.Quiet := by
  refine ⟨hq.toIdle.settle, ?_⟩
  rw [WsRx.settle]
  split_ifs
  · exact hq.closing
  · exact hq.closing

/-- Everything a byte can do to a user that notes its calls. -/
theorem byteStep_noticed (hq : ws.Quiet) (hpre : env.preClose = false) {k : Bool} {t : WsRx × Bool}
    (h : byteStep rem env noticed (ws, k) c = .ok t) :
    t.1.Quiet ∧ ((ws.inData = true ∧ t.2 = true) ∨ (ws.inData = false ∧ t.2 = k ∧ ∃ ws₁ : WsRx,
      ws₁.Quiet ∧ t.1 = ws₁.settle ∧ ∀ {κ φ : Type} (cb : Callback κ φ) (user : κ),
        lwsWsRxSm env cb false false ws user c = .ok (ws₁, user))) := by
  cases hd : ws.inData with
  | true =>
    obtain ⟨u, hp, rfl⟩ := byteStep_inData_ok hd h
    obtain ⟨hkeep, huser⟩ := takePiece_upkeep (by simp) hp
    have hclose : u.1.peerHasSentClose = ws.peerHasSentClose :=
      congrArg Upkeep.peerHasSentClose hkeep
    have hstate : u.1.lwsiState = ws.lwsiState := congrArg Upkeep.lwsiState hkeep
    have hquiet : u.1.Quiet := by
      refine ⟨WsRx.Idle.takePiece (s := (ws, k)) hq.toIdle hp, ?_⟩
      rw [hclose, hstate]
      exact hq.closing
    rw [hpre, if_neg Bool.false_ne_true] at huser
    exact ⟨hquiet.settle, Or.inl ⟨rfl, huser⟩⟩
  | false =>
    obtain ⟨u, hx, rfl⟩ := byteStep_ok hd h
    have hquiet := hq.rxSm hd hx
    have hk := rxSm_silent hq hd hx (streamCallback noticed) k
    rw [hx] at hk
    exact ⟨hquiet.settle, Or.inr ⟨rfl, congrArg Prod.snd (Except.ok.inj hk), u.1, hquiet, rfl,
      fun cb user => rxSm_silent hq hd hx cb user⟩⟩

theorem feed_noticed (hq : ws.Quiet) (hpre : env.preClose = false) {l : List Byte} {k : Bool}
    (h : feed rem env noticed (ws, true) l = .ok (ws', k)) : k = true := by
  induction l generalizing ws with
  | nil => exact (Prod.mk.inj (Except.ok.inj h)).2.symm
  | cons c l ih =>
    obtain ⟨⟨w, k'⟩, hc, hl⟩ := feed_cons_ok h
    obtain ⟨hquiet, ⟨-, rfl⟩ | ⟨-, rfl, -⟩⟩ := byteStep_noticed hq hpre hc
    · exact ih hquiet hl
    · exact ih hquiet hl

/-- Bytes of which the user hears nothing, at the front of a read. -/
theorem parseWs_silent (hq : ws.Quiet) (hpre : env.preClose = false) {l : List Byte}
    (h : feed rem env noticed (ws, false) l = .ok (ws', false)) (rest stale : List Byte) :
    ws'.Quiet ∧ settled (parseOver odd env cb ws user (l ++ rest) stale) =
      settled (parseOver odd env cb ws' user rest stale) := by
  induction l generalizing ws with
  | nil =>
    obtain ⟨rfl, -⟩ := Prod.mk.inj (Except.ok.inj h)
    exact ⟨hq, rfl⟩
  | cons c l ih =>
    obtain ⟨⟨w, k⟩, hc, hl⟩ := feed_cons_ok h
    obtain ⟨hquiet, ⟨-, rfl⟩ | ⟨hd, rfl, ws₁, hq₁, rfl, hrun⟩⟩ := byteStep_noticed hq hpre hc
    · exact absurd (feed_noticed hquiet hpre hl) (by simp)
    · obtain ⟨hquiet', hrest⟩ := ih hquiet hl
      refine ⟨hquiet', ?_⟩
      rw [← hrest, parseWs_settle hq₁.toIdle, List.cons_append, parseWs_cons hq.toIdle hd, hrun]
      rfl

end Silent

section Frames

variable {odd : OddBytes} {rem : Nat} {env : RxEnv} {ws : WsRx} {f : Frame} {s : Session Bool}

theorem WsRx.Boundary.quiet (hb : ws.Boundary) : ws.Quiet := by
  refine ⟨⟨hb.usable, fun _ => hb.empty⟩, fun hp => Or.inl ?_⟩
  rw [hb.state, if_pos hp]

theorem WsRx.Boundary.settle_eq (hb : ws.Boundary) : ws.settle = ws :=
  WsRx.settle_of_not_inData (inData_of_parseState (by simp [hb.between]))

theorem noticed_append (k : Bool) (a b : List Byte) :
    noticed k (a ++ b) = noticed (noticed k a) b :=
  rfl

theorem feed_head {take : κ → List Byte → κ} {user : κ} (hb : ws.Boundary)
    (ha : ws.Allows f.fin f.opcode) (hne : f.payload ≠ []) :
    feed rem env take (ws, user) f.head =
      .ok ((ws.opened env.validateUtf8 f.fin f.opcode).ready f.key f.payload.length, user) := by
  have hc : (ws.opened env.validateUtf8 f.fin f.opcode).opcode.isControl = true →
    f.form = .seven := by
    rw [opened_opcode]
    exact fun h => (f.whole h).2
  have hhead := @feed_header κ rem env take (ws.opened env.validateUtf8 f.fin f.opcode) user
    (by simp [hb.usable]) (by simp) (opened_keeps ws _ _ _).1 (by simp [hb.empty]) f.form f.key
    f.payload.length f.fits hc
  rw [if_neg (fun h => hne (List.length_eq_zero_iff.mp h))] at hhead
  rw [Frame.head, feed_cons, byteStep_header hb.usable hb.between ha]
  exact hhead

theorem checkPayload_of_checkText {p : List Byte} {u : Byte}
    (h : checkText rem ws ws.rxPacketLength p = .ok u) :
    checkPayload rem ws p = .ok { ws with utf8 := u } := by
  have heq := checkPayload_eq rem ws p
  rw [h] at heq
  cases hc : checkPayload rem ws p with
  | error e => simp [hc, Except.mapError, Except.map] at heq
  | ok ws' =>
    rw [hc] at heq
    rw [Except.ok.inj heq]

theorem checkPayload_of_refused {p : List Byte} {reason : Drop}
    (h : checkText rem ws ws.rxPacketLength p = .error reason) :
    ∃ ws', checkPayload rem ws p = .error (reason, ws') := by
  have heq := checkPayload_eq rem ws p
  rw [h] at heq
  cases hc : checkPayload rem ws p with
  | error e =>
    rw [hc] at heq
    obtain rfl : e.1 = reason := Except.error.inj heq
    exact ⟨e.2, rfl⟩
  | ok ws' => simp [hc, Except.mapError, Except.map] at heq

theorem frameRest_whole {κ φ : Type} {cb : Callback κ φ} {user : κ} {raw rest stale : List Byte}
    {u : Byte} (hpre : env.preClose = false) (hraw : raw ≠ []) (hl : ws.rxPacketLength = raw.length)
    (hlen : raw.length ≤ rxBufferSize) (hrem : odd ws raw.length = rem)
    (hu : checkText rem ws 0 (ws.unmask raw) = .ok u) :
    lwsWsFrameRestIsPayload odd env cb ⟨ws, user, raw ++ rest, stale⟩ =
      match cb user (ws.unmask raw) (rest ++ stale) with
      | .error e => .error (.failed e)
      | .ok (user', behind) => .ok (some
        ⟨{ ws.consume raw.length with utf8 := u, firstFragment := false }, user',
          behind.take rest.length, behind.drop rest.length⟩) := by
  have hn : min (min rxBufferSize ws.rxPacketLength) (raw ++ rest).length = raw.length := by
    rw [hl, List.length_append]
    omega
  have hpos : raw.length ≠ 0 := fun h => hraw (List.length_eq_zero_iff.mp h)
  have hcheck : checkPayload rem (ws.consume raw.length) (ws.unmask raw) =
      .ok { ws.consume raw.length with utf8 := u } := by
    refine checkPayload_of_checkText ?_
    have hzero : (ws.consume raw.length).rxPacketLength = 0 := by simp [WsRx.consume, hl]
    rw [hzero]
    exact hu
  rw [frameRest_eq hn hpos]
  simp only [List.take_left, List.drop_left, hrem, hcheck, hpre, Bool.false_eq_true, if_false]

theorem data_of_step {take : κ → List Byte → κ} {user : κ} {s : Session κ} (hb : ws.Boundary)
    (hc : f.opcode.isControl = false) (hne : f.payload ≠ [])
    (hstep : (ws.session user).step rem env take f = .ok s) :
    ws.Allows f.fin f.opcode ∧
      ∃ u, checkText rem (ws.opened env.validateUtf8 f.fin f.opcode) 0 f.payload = .ok u ∧
        s = { (ws.opened env.validateUtf8 f.fin f.opcode).session user with
          utf8 := u, user := if env.preClose then user else take user f.payload } := by
  rw [step_data _ hc] at hstep
  by_cases ha : (ws.session user).fragmented = decide (f.opcode = .continuation)
  · refine ⟨(allows_data hb hc).mpr ha, ?_⟩
    obtain ⟨-, hfin, -⟩ := opened_keeps ws env.validateUtf8 f.fin f.opcode
    have hcheck := session_check rem (ws.opened env.validateUtf8 f.fin f.opcode) user f.payload
    rw [hfin] at hcheck
    rw [if_pos ha, ← session_opened ws user f.fin hc, Session.data, if_neg hne, hcheck] at hstep
    cases hu : checkText rem (ws.opened env.validateUtf8 f.fin f.opcode) 0 f.payload with
    | error e => simp [hu, Except.map] at hstep
    | ok u =>
      rw [hu] at hstep
      exact ⟨u, rfl, (Except.ok.inj hstep).symm⟩
  · rw [if_neg ha] at hstep
    simp at hstep

/-- A data frame that is refused for its text does not let the read come to its end. -/
theorem step_of_parseWs {κ φ : Type} {cb : Callback κ φ} {user : κ} {rest stale : List Byte}
    {t : WsRx × κ} (hb : ws.Boundary) (hpre : env.preClose = false)
    (hc : f.opcode.isControl = false)
    (ha : ws.Allows f.fin f.opcode) (hne : f.payload ≠ []) (hlen : f.payload.length ≤ rxBufferSize)
    (hrem : odd ((ws.opened env.validateUtf8 f.fin f.opcode).ready f.key f.payload.length)
      f.payload.length = rem)
    (h : settled (parseOver odd env cb ws user (f.encode ++ rest) stale) = .ok t) :
    ∃ s, (ws.session false).step rem env noticed f = .ok s := by
  have hfrag : (ws.session false).fragmented = decide (f.opcode = .continuation) :=
    (allows_data hb hc).mp ha
  have hhead := @feed_head _ rem env ws f noticed false hb ha hne
  have hopc := opened_opcode ws env.validateUtf8 f.fin f.opcode
  obtain ⟨-, hfin, -⟩ := opened_keeps ws env.validateUtf8 f.fin f.opcode
  rw [step_data _ hc, if_pos hfrag, ← session_opened ws false f.fin hc, Session.data, if_neg hne]
  generalize ws.opened env.validateUtf8 f.fin f.opcode = w at *
  rw [← hfin, session_check]
  cases hu : checkText rem w 0 f.payload with
  | ok u => exact ⟨_, rfl⟩
  | error reason =>
    obtain ⟨hquiet, hparse⟩ := @parseWs_silent κ φ odd rem env cb ws _ user hb.quiet hpre _ hhead
      (maskWith f.key f.payload ++ rest) stale
    have hlraw := length_maskWith f.key f.payload
    have hd : (w.ready f.key f.payload.length).inData = true :=
      WsRx.inData_iff.mpr ⟨rfl, by rw [← hc, ← hopc]; rfl⟩
    have hraw : maskWith f.key f.payload ++ rest ≠ [] := fun h =>
      hne (List.length_eq_zero_iff.mp (by rw [← hlraw, (List.append_eq_nil_iff.mp h).1]; rfl))
    have hn : min (min rxBufferSize f.payload.length) (maskWith f.key f.payload ++ rest).length =
        f.payload.length := by
      rw [List.length_append, hlraw]
      omega
    have hzero : ((w.ready f.key f.payload.length).consume f.payload.length).rxPacketLength = 0 :=
      Nat.sub_self _
    have hcheck : checkText rem ((w.ready f.key f.payload.length).consume f.payload.length)
        ((w.ready f.key f.payload.length).consume f.payload.length).rxPacketLength
        ((w.ready f.key f.payload.length).unmask (maskWith f.key f.payload)) = .error reason := by
      rw [hzero, ready_unmask]
      exact hu
    obtain ⟨w', hw'⟩ := checkPayload_of_refused hcheck
    have hpiece := @frameRest_eq κ φ odd env cb ⟨w.ready f.key f.payload.length, user,
      maskWith f.key f.payload ++ rest, stale⟩ f.payload.length hn
      (fun h => hne (List.length_eq_zero_iff.mp h))
    simp only [List.take_left' hlraw, hrem, hw'] at hpiece
    rw [Frame.encode, List.append_assoc, hparse,
      parseWs_piece_error hquiet.toIdle hd hraw hpiece] at h
    simp [settled, Except.map] at h

/-- A data frame that fits into the user's buffer. The user sees what is behind it in the
read, and the rest is parsed as the user leaves it. -/
theorem parseWs_dataFrame (hb : ws.Boundary) (hpre : env.preClose = false)
    (hc : f.opcode.isControl = false) (hne : f.payload ≠ [])
    (hlen : f.payload.length ≤ rxBufferSize)
    (hrem : odd ((ws.opened env.validateUtf8 f.fin f.opcode).ready f.key f.payload.length)
      f.payload.length = rem) (hstep : (ws.session false).step rem env noticed f = .ok s) :
    ∃ ws' : WsRx, ws'.Boundary ∧ ws'.session true = s ∧
      ∀ {κ φ : Type} (cb : Callback κ φ) (user : κ) (rest stale : List Byte),
        settled (parseOver odd env cb ws user (f.encode ++ rest) stale) =
          match cb user f.payload (rest ++ stale) with
          | .error e => .error (.failed e)
          | .ok (user', behind) => settled (parseOver odd env cb ws' user'
            (behind.take rest.length) (behind.drop rest.length)) := by
  obtain ⟨ha, u, hu, rfl⟩ := data_of_step hb hc hne hstep
  have hhead := @feed_head _ rem env ws f noticed false hb ha hne
  have howed : (ws.opened env.validateUtf8 f.fin f.opcode).owedAFin =
      (ws.opened env.validateUtf8 f.fin f.opcode).continuationPossible := by
    cases ho : f.opcode <;> simp [ho] at hc <;> rfl
  obtain ⟨hz, -, hstate, hpeer⟩ := opened_keeps ws env.validateUtf8 f.fin f.opcode
  have hopc := opened_opcode ws env.validateUtf8 f.fin f.opcode
  have husable := opened_unusable ws env.validateUtf8 f.fin f.opcode
  have hempty := opened_rxUbuf ws env.validateUtf8 f.fin f.opcode
  generalize ws.opened env.validateUtf8 f.fin f.opcode = w at *
  refine ⟨{ (w.ready f.key f.payload.length).consume f.payload.length with
    utf8 := u, firstFragment := false, parseState := .new },
    ⟨husable.trans hb.usable, rfl, hempty.trans hb.empty, howed, ?_⟩, ?_, ?_⟩
  · change w.lwsiState = if w.peerHasSentClose then _ else _
    rw [hstate, hpeer, hb.state]
  · simp only [hpre, Bool.false_eq_true, if_false]
    rfl
  · intro κ φ cb user rest stale
    have hsilent := @parseWs_silent κ φ odd rem env cb ws _ user hb.quiet hpre _ hhead
      (maskWith f.key f.payload ++ rest) stale
    obtain ⟨hquiet, hparse⟩ := hsilent
    have hlraw := length_maskWith f.key f.payload
    have hraw : maskWith f.key f.payload ≠ [] := fun h =>
      hne (List.length_eq_zero_iff.mp (by rw [← hlraw, h]; rfl))
    have hd : (w.ready f.key f.payload.length).inData = true :=
      WsRx.inData_iff.mpr ⟨rfl, by rw [← hc, ← hopc]; rfl⟩
    have hpiece := @frameRest_whole odd rem env (w.ready f.key f.payload.length) κ φ cb user
      (maskWith f.key f.payload) rest stale u hpre hraw hlraw.symm (hlraw ▸ hlen)
      (hlraw ▸ hrem) (by rw [ready_unmask]; exact hu)
    rw [ready_unmask, hlraw] at hpiece
    rw [Frame.encode, List.append_assoc, hparse]
    cases hcb : cb user f.payload (rest ++ stale) with
    | error e =>
      rw [hcb] at hpiece
      rw [parseWs_piece_error hquiet.toIdle hd (by simp [hraw]) hpiece]
      rfl
    | ok t =>
      rw [hcb] at hpiece
      rw [parseWs_piece hquiet.toIdle hd hpiece]
      have hidle := WsRx.Idle.frameRest (r := ⟨_, user, _, stale⟩) hquiet.toIdle hpiece
      rw [← parseWs_settle hidle, WsRx.settle, if_pos ⟨hd, Nat.sub_self _⟩]

end Frames

end Comlink
