import Comlink.Ws.Frame

/-! The conversation that a peer's frames make. The receiver accepts exactly the
bytes of the conversations that are allowed, in whatever reads they come. -/

namespace Comlink

open CText WireBytes

variable {κ : Type}

/-- A connection between two frames: whether a message is under way, the check of
its text, whether the peer has sent CLOSE, and the payload that is to be sent back. -/
structure Session (κ : Type) where
  fragmented : Bool
  checking : Bool
  utf8 : Byte
  closing : Bool
  pending : Option (List Byte)
  user : κ
  deriving DecidableEq

def Session.init (user : κ) : Session κ := ⟨false, false, 0, false, none, user⟩

/-- `rem` is what the receiver has in `n`. An end inside of a character is refused
only where this is 0. -/
def Session.check (rem : Nat) (s : Session κ) (fin : Bool) (p : List Byte) : Except Drop Byte :=
  if s.checking then
    match lwsCheckUtf8 s.utf8 p with
    | none => .error .badUtf8
    | some u => if fin = true ∧ u ≠ 0 ∧ rem = 0 then .error .partialUtf8 else .ok u
  else .ok s.utf8

/-- The payload of a data frame. An empty one is not looked at. -/
def Session.data (rem : Nat) (env : RxEnv) (take : κ → List Byte → κ) (fin : Bool) (p : List Byte)
    (s : Session κ) : Except Drop (Session κ) :=
  if p = [] then .ok s
  else (s.check rem fin p).map fun u =>
    { s with utf8 := u, user := if env.preClose then s.user else take s.user p }

def Session.ping (p : List Byte) (s : Session κ) : Session κ :=
  if s.pending.isSome then s else { s with pending := some p }

/-- The payload of a pong goes through the check of the message under way. -/
def Session.pong (p : List Byte) (s : Session κ) : Except Drop (Session κ) :=
  if p = [] ∨ s.closing = true then .ok s
  else (s.check 0 true p).map fun u => { s with utf8 := u }

/-- The first CLOSE takes the place of the pong that is owed. -/
def Session.close (env : RxEnv) (p : List Byte) (s : Session κ) : Except Drop (Session κ) :=
  if s.closing then .ok { s with checking := false, utf8 := 0 }
  else
    match if env.validateUtf8 && 2 < p.length then lwsCheckUtf8 0 (p.drop 2) else some 0 with
    | none => .error .closeUtf8
    | some u =>
      if env.partialBuffered then .error .pendingTx
      else
        .ok { s with
          checking := false
          utf8 := u
          closing := true
          pending := some (closePayload p) }

/-- What the first byte of a data frame makes of the conversation. -/
def Session.opened (env : RxEnv) (fin : Bool) (o : Opcode) (s : Session κ) : Session κ :=
  match o with
  | .text => { s with fragmented := !fin, checking := env.validateUtf8 }
  | .binary => { s with fragmented := !fin, checking := false }
  | .continuation => { s with fragmented := !fin }
  | _ => s

def Session.step (rem : Nat) (env : RxEnv) (take : κ → List Byte → κ) (s : Session κ) (f : Frame) :
    Except Drop (Session κ) :=
  match f.opcode with
  | .ping => .ok (s.ping f.payload)
  | .pong => s.pong f.payload
  | .close => s.close env f.payload
  | o =>
    if s.fragmented = decide (o = .continuation) then
      (s.opened env f.fin o).data rem env take f.fin f.payload
    else .error .badCont

/-- The receiver is between two frames. -/
structure WsRx.Boundary (ws : WsRx) : Prop where
  usable : ws.unusable = false
  between : ws.parseState = .new
  empty : ws.rxUbuf = []
  owed : ws.owedAFin = ws.continuationPossible
  state : ws.lwsiState = if ws.peerHasSentClose then .returnedClose else .established

def WsRx.session (ws : WsRx) (user : κ) : Session κ where
  fragmented := ws.continuationPossible
  checking := ws.checkUtf8
  utf8 := ws.utf8
  closing := ws.peerHasSentClose
  pending := if ws.pingPendingFlag then some (ws.pingPayloadBuf.take ws.pingPayloadLen) else none
  user := user

/-- The receiver and the conversation refuse for the same reason, or both go on. -/
inductive Matches : Except Drop (WsRx × κ) → Except Drop (Session κ) → Prop
  | refused (reason : Drop) : Matches (.error reason) (.error reason)
  | reached {ws : WsRx} (hb : ws.Boundary) (user : κ) :
    Matches (.ok (ws, user)) (.ok (ws.session user))

theorem Matches.of_ok {x : Except Drop (WsRx × κ)} {s : Session κ} (h : Matches x (.ok s)) :
    ∃ ws user, x = .ok (ws, user) ∧ ws.Boundary ∧ ws.session user = s := by
  cases h with
  | reached hb user => exact ⟨_, user, rfl, hb, rfl⟩

theorem Matches.of_error {x : Except Drop (WsRx × κ)} {reason : Drop}
    (h : Matches x (.error reason)) : x = .error reason := by
  cases h
  rfl

/-- The check of a whole frame, in the receiver's terms. -/
theorem session_check (rem : Nat) (ws : WsRx) (user : κ) (p : List Byte) :
    (ws.session user).check rem ws.final p = checkText rem ws 0 p := by
  rw [Session.check, checkText]
  by_cases hc : ws.checkUtf8 = true
  · have hs : (ws.session user).checking = true := hc
    have hu : (ws.session user).utf8 = ws.utf8 := rfl
    rw [if_pos hs, if_pos hc, hu]
    cases lwsCheckUtf8 ws.utf8 p with
    | none => rfl
    | some u => simp only [true_and]
  · have hs : ¬ (ws.session user).checking = true := hc
    rw [if_neg hs, if_neg hc]
    rfl

section Data

variable {rem : Nat} {env : RxEnv} {take : κ → List Byte → κ} {ws ws' : WsRx} {user : κ} {c : Byte}

theorem byteStep_of_refused {reason : Drop} (hu : ws.unusable = false) (hd : ws.inData = false)
    (ha : advance env false ws c = .error (reason, ws')) :
    byteStep rem env take (ws, user) c = .error reason := by
  simp only [byteStep, hd, Bool.false_eq_true, if_false, lwsWsRxSm, hu, ha]
  rfl

theorem byteStep_badFirst {reason : Drop} (hb : ws.Boundary) (hr : ∃ ws',
      handleFirst env.validateUtf8 { ws with allZeroNonce := true } c = .error (reason, ws')) :
    byteStep rem env take (ws, user) c = .error reason := by
  obtain ⟨ws', hr⟩ := hr
  have hadv : advance env false ws c = .error (reason, ws') := by
    rw [advance_new hb.between, hr]
    rfl
  exact byteStep_of_refused hb.usable (inData_of_parseState (by simp [hb.between])) hadv

theorem allows_data (hb : ws.Boundary) {fin : Bool} {o : Opcode} (hc : o.isControl = false) :
    ws.Allows fin o ↔ ws.continuationPossible = decide (o = .continuation) := by
  cases o <;> simp [WsRx.Allows, hb.owed] at hc ⊢

theorem byteStep_badCont (hb : ws.Boundary) {fin : Bool} {o : Opcode} (rsv1 : Bool)
    (hc : o.isControl = false) (ha : ¬ ws.Allows fin o) :
    byteStep rem env take (ws, user) (headerByte fin rsv1 o) = .error .badCont :=
  byteStep_badFirst hb (handleFirst_badCont (headerByte_fields fin rsv1 o).2.1 hc
    fun hs => ha ((allows_data hb hc).mpr hs))

theorem maskFrom_of_keyZero {key : Fin 4 → Byte} (hz : keyZero (some key) = true) (i : Nat)
    (p : List Byte) : maskFrom (maskKey key) i p = p := by
  have hkey : ∀ j, key j = 0 := by
    simp only [keyZero, Bool.and_eq_true, beq_iff_eq] at hz
    intro j
    fin_cases j
    · exact hz.1.1.1
    · exact hz.1.1.2
    · exact hz.1.2
    · exact hz.2
  induction p generalizing i with
  | nil => rfl
  | cons a p ih => simp [maskFrom, maskKey, hkey, ih]

theorem ready_unmask (ws : WsRx) (key : Option (Fin 4 → Byte)) (n : Nat) (p : List Byte) :
    (ws.ready key n).unmask (maskWith key p) = p := by
  rw [WsRx.unmask_eq]
  cases key with
  | none => rfl
  | some key =>
    simp only [WsRx.ready, maskWith, Option.isSome_some, if_true, Option.getD_some]
    split_ifs with hz
    · exact maskFrom_of_keyZero hz 0 p
    · exact maskFrom_maskFrom 0 p

theorem length_maskWith (key : Option (Fin 4 → Byte)) (p : List Byte) :
    (maskWith key p).length = p.length := by
  cases key <;> simp [maskWith]

theorem feed_data (htake : ∀ k a b, take k (a ++ b) = take (take k a) b) (hu : ws.unusable = false)
    (hs : ws.parseState = .frameHdrLen) (hz : ws.allZeroNonce = true) (he : ws.rxUbuf = [])
    (hc : ws.opcode.isControl = false) {form : LengthForm} (key : Option (Fin 4 → Byte))
    {p : List Byte} (hf : form.Fits p.length) :
    feed rem env take (ws, user)
        (form.bytes key.isSome p.length ++ keyBytes key ++ maskWith key p) =
      if p = [] then .ok ({ ws.ready key 0 with parseState := .new }, user)
      else (checkText rem ws 0 p).map fun u =>
        ({ (ws.ready key p.length).consume p.length with
            utf8 := u, firstFragment := false, parseState := .new },
          if env.preClose then user else take user p) := by
  have hhead := @feed_header κ rem env take ws user hu hs hz he form key p.length hf
    (fun h => absurd h (by simp [hc]))
  rw [feed_append, hhead]
  by_cases hp : p = []
  · subst hp
    have hmask : maskWith key [] = [] := List.length_eq_zero_iff.mp (length_maskWith key [])
    have hover : overAt env take (ws.ready key 0) user =
        .ok ({ ws.ready key 0 with parseState := .new }, user) := overAt_data he hc
    rw [List.length_nil, if_pos rfl, if_pos rfl, hover, hmask]
    rfl
  · have hn : p.length ≠ 0 := fun h => hp (List.length_eq_zero_iff.mp h)
    have hd : (ws.ready key p.length).inData = true := WsRx.inData_iff.mpr ⟨rfl, hc⟩
    have hlen := length_maskWith key p
    rw [if_neg hn, if_neg hp]
    change feed rem env take (ws.ready key p.length, user) (maskWith key p) = _
    rw [feed_piece htake hd hn (le_of_eq hlen), takePiece,
      if_neg (fun h => hp (List.length_eq_zero_iff.mp (by rw [← hlen, h]; rfl))), hlen,
      ready_unmask]
    have hcheck : checkText rem (ws.ready key p.length)
        ((ws.ready key p.length).rxPacketLength - p.length) p = checkText rem ws 0 p := by
      simp only [checkText, WsRx.ready, Nat.sub_self]
    rw [hcheck]
    cases checkText rem ws 0 p with
    | error e => rfl
    | ok u =>
      refine congrArg Except.ok (Prod.ext ?_ rfl)
      exact if_pos ⟨hd, Nat.sub_self _⟩

end Data

section Control

variable {rem : Nat} {env : RxEnv} {take : κ → List Byte → κ} {ws : WsRx} {user : κ} {p : List Byte}

/-- The state at the end of a control frame with the payload `p`. -/
def WsRx.collected (ws : WsRx) (key : Option (Fin 4 → Byte)) (m : Nat) (p : List Byte) : WsRx :=
  { ws.ready key 0 with maskIdx := m, rxUbuf := p }

theorem feed_controlFrame (hu : ws.unusable = false) (hs : ws.parseState = .frameHdrLen)
    (hz : ws.allZeroNonce = true) (he : ws.rxUbuf = []) (hc : ws.opcode.isControl = true)
    (key : Option (Fin 4 → Byte)) (hf : p.length < 126) :
    ∃ m, feed rem env take (ws, user)
        (LengthForm.seven.bytes key.isSome p.length ++ keyBytes key ++ maskWith key p) =
      overAt env take (ws.collected key m p) user := by
  have hhead := @feed_header κ rem env take ws user hu hs hz he .seven key p.length hf
    (fun _ => rfl)
  have hlen := length_maskWith key p
  by_cases hp : p = []
  · subst hp
    have hmask : maskWith key [] = [] := List.length_eq_zero_iff.mp hlen
    refine ⟨(ws.ready key 0).maskIdx, ?_⟩
    have hcol : ws.collected key (ws.ready key 0).maskIdx [] = ws.ready key 0 := by
      rw [← he]
      rfl
    rw [feed_append, hhead, hmask, hcol, List.length_nil, if_pos rfl]
    cases overAt env take (ws.ready key 0) user <;> rfl
  · have hn : p.length ≠ 0 := fun h => hp (List.length_eq_zero_iff.mp h)
    have hne : maskWith key p ≠ [] := fun h => hn (by rw [← hlen, h]; rfl)
    obtain ⟨m, hm⟩ := storeAll_eq (ws.ready key p.length) (maskWith key p)
    have hempty : (ws.ready key p.length).rxUbuf = [] := he
    rw [ready_unmask, hlen, hempty, List.nil_append] at hm
    have hcol : (ws.ready key p.length).storeAll (maskWith key p) = ws.collected key m p := by
      rw [hm]
      simp [WsRx.collected, WsRx.ready]
    refine ⟨m, ?_⟩
    rw [feed_append, hhead, if_neg hn]
    change feed rem env take (ws.ready key p.length, user) (maskWith key p) = _
    have hfeed := @feed_control κ rem env take (ws.ready key p.length) user hu rfl hc _ hne
      (le_of_eq hlen) (by rw [hempty, hlen, List.length_nil, rxBufferSize]; omega)
    have hleft : (ws.ready key p.length).rxPacketLength = p.length := rfl
    rw [hfeed, hlen, hleft, if_pos rfl, hcol]

theorem processAsPing_eq (h : ws.rxUbuf.length ≤ pingPayloadRoom) :
    processAsPing ws = { ws.storePing ws.rxUbuf with
      pingPayloadLen := ws.rxUbuf.length
      pingPendingFlag := true
      rxUbuf := [] } := if_neg (by omega)

theorem length_closePayload (p : List Byte) : (closePayload p).length = p.length := by
  match p with
  | [] | [_] => rfl
  | hi :: lo :: reason =>
    rw [closePayload]
    split_ifs <;> rfl

/-- Between two frames, but for the payload of a control frame that is complete. -/
structure WsRx.Ends (ws : WsRx) (p : List Byte) : Prop where
  usable : ws.unusable = false
  between : ws.parseState = .new
  collected : ws.rxUbuf = p
  whole : ws.rxPacketLength = 0
  fits : p.length < 126
  owed : ws.owedAFin = ws.continuationPossible
  state : ws.lwsiState = if ws.peerHasSentClose then .returnedClose else .established

/-- The end of a frame. -/
def settledSpill (env : RxEnv) (take : κ → List Byte → κ) (ws : WsRx) (user : κ) :
    Except Drop (WsRx × κ) :=
  (outcome (spill env (streamCallback take) false ws user)).map fun t => (t.1.settle, t.2)

theorem spill_ping (ho : ws.opcode = .ping) :
    spill env (streamCallback take) false ws user =
      if ws.pingPendingFlag then .ok ({ ws with rxUbuf := [] }, user)
      else .ok (processAsPing ws, user) := by
  rw [spill, ho]

theorem spill_pong (ho : ws.opcode = .pong) :
    spill env (streamCallback take) false ws user =
      passUp env (streamCallback take) false ws user := by
  rw [spill, ho]

theorem spill_close (ho : ws.opcode = .close) :
    spill env (streamCallback take) false ws user =
      if ws.peerHasSentClose then passUp env (streamCallback take) false ws user
      else
        match spillClose env ws with
        | .error (reason, ws) => .error (.refused reason ws user)
        | .ok ws => .ok (ws, user) := by
  cases ws
  cases ho
  rfl

theorem passUp_skip {cb : Callback κ Empty} {noCb : Bool}
    (hs : ws.rxUbuf = [] ∨ ws.lwsiState = .returnedClose ∨ ws.lwsiState = .awaitingCloseAck) :
    passUp env cb noCb ws user = .ok ({ ws with rxUbuf := [] }, user) := by
  rw [passUp, if_pos hs]

theorem passUp_pong (ho : ws.opcode = .pong) {ws' : WsRx}
    (hs : ¬ (ws.rxUbuf = [] ∨ ws.lwsiState = .returnedClose ∨ ws.lwsiState = .awaitingCloseAck))
    (hc : checkPayload 0 ws ws.rxUbuf = .ok ws') :
    ∃ first, passUp env (streamCallback take) false ws user =
      .ok ({ ws' with firstFragment := first, rxUbuf := [] }, user) := by
  obtain ⟨u, rfl⟩ := checkPayload_keeps hc
  rw [passUp, if_neg hs, hc]
  cases hp : env.preClose with
  | true => exact ⟨ws.firstFragment, rfl⟩
  | false =>
    refine ⟨false, ?_⟩
    have hpong : (false || ws.opcode == .pong) = true := by rw [ho]; rfl
    simp only [Bool.false_eq_true, if_false, hpong, if_true]

theorem matches_of_spill {ws' : WsRx} {s : Session κ}
    (h : spill env (streamCallback take) false ws user = .ok (ws', user)) (hb : ws'.Boundary)
    (hs : ws'.session user = s) : Matches (settledSpill env take ws user) (.ok s) := by
  have hset : ws'.settle = ws' :=
    WsRx.settle_of_not_inData (inData_of_parseState (by simp [hb.between]))
  rw [settledSpill, h, ← hs]
  simp only [outcome, Except.map, hset]
  exact .reached hb user

theorem matches_of_refused {ws' : WsRx} {user' : κ} {reason : Drop}
    (h : spill env (streamCallback take) false ws user = .error (.refused reason ws' user')) :
    Matches (settledSpill env take ws user) (.error reason) := by
  rw [settledSpill, h]
  exact .refused reason

theorem WsRx.Ends.emptied (he : ws.Ends p) : { ws with rxUbuf := [] }.Boundary :=
  ⟨he.usable, he.between, rfl, he.owed, he.state⟩

theorem WsRx.Ends.ping (he : ws.Ends p) (ho : ws.opcode = .ping) :
    Matches (settledSpill env take ws user) (.ok ((ws.session user).ping p)) := by
  have hspill := @spill_ping κ env take ws user ho
  by_cases hf : ws.pingPendingFlag = true
  · rw [if_pos hf] at hspill
    exact matches_of_spill hspill he.emptied (by simp [Session.ping, WsRx.session, hf])
  · have hfits : ws.rxUbuf.length ≤ pingPayloadRoom := by
      rw [he.collected]
      exact Nat.le_of_lt_succ he.fits
    rw [if_neg hf, processAsPing_eq hfits, he.collected] at hspill
    refine matches_of_spill hspill ⟨he.usable, he.between, rfl, he.owed, he.state⟩ ?_
    simp [Session.ping, WsRx.session, hf, WsRx.storePing]

theorem WsRx.Ends.returned_iff (he : ws.Ends p) :
    (ws.lwsiState = .returnedClose ∨ ws.lwsiState = .awaitingCloseAck) ↔
      ws.peerHasSentClose = true := by
  rw [he.state]
  split_ifs with h <;> simp [h]

theorem WsRx.Ends.pong (he : ws.Ends p) (ho : ws.opcode = .pong) (hf : ws.final = true) :
    Matches (settledSpill env take ws user) ((ws.session user).pong p) := by
  have hskip : (p = [] ∨ (ws.session user).closing = true) ↔
      (ws.rxUbuf = [] ∨ ws.lwsiState = .returnedClose ∨ ws.lwsiState = .awaitingCloseAck) := by
    rw [he.returned_iff, he.collected]
    rfl
  have hcheck : (ws.session user).check 0 true p = checkText 0 ws ws.rxPacketLength ws.rxUbuf := by
    rw [he.whole, he.collected, ← hf, session_check]
  have hpayload := checkPayload_eq 0 ws ws.rxUbuf
  rw [Session.pong, hcheck]
  by_cases hs : ws.rxUbuf = [] ∨ ws.lwsiState = .returnedClose ∨ ws.lwsiState = .awaitingCloseAck
  · have hspill := @passUp_skip κ env ws user (streamCallback take) false hs
    rw [← spill_pong ho] at hspill
    rw [if_pos (hskip.mpr hs)]
    exact matches_of_spill hspill he.emptied rfl
  · rw [if_neg (fun h => hs (hskip.mp h))]
    cases hc : checkPayload 0 ws ws.rxUbuf with
    | error e =>
      cases ht : checkText 0 ws ws.rxPacketLength ws.rxUbuf with
      | ok u => simp [hc, ht, Except.mapError, Except.map] at hpayload
      | error reason =>
        rw [hc, ht] at hpayload
        obtain rfl : e.1 = reason := Except.error.inj hpayload
        have hspill : spill env (streamCallback take) false ws user =
            .error (.refused e.1 e.2 user) := by
          rw [spill_pong ho, passUp, if_neg hs, hc]
        exact matches_of_refused hspill
    | ok ws₁ =>
      cases ht : checkText 0 ws ws.rxPacketLength ws.rxUbuf with
      | error reason => simp [hc, ht, Except.mapError, Except.map] at hpayload
      | ok u =>
        rw [hc, ht] at hpayload
        obtain rfl : ws₁ = { ws with utf8 := u } := Except.ok.inj hpayload
        obtain ⟨first, hspill⟩ := @passUp_pong κ env take ws user ho _ hs hc
        rw [← spill_pong ho] at hspill
        exact matches_of_spill hspill ⟨he.usable, he.between, rfl, he.owed, he.state⟩ rfl

theorem WsRx.Ends.close (he : ws.Ends p) (ho : ws.opcode = .close) (hu : ws.utf8 = 0)
    (hc : ws.checkUtf8 = false) :
    Matches (settledSpill env take ws user) ((ws.session user).close env p) := by
  have hspill := @spill_close κ env take ws user ho
  rw [Session.close]
  by_cases hp : ws.peerHasSentClose = true
  · have hclosing : (ws.session user).closing = true := hp
    rw [if_pos hp, passUp_skip (Or.inr (he.returned_iff.mpr hp))] at hspill
    rw [if_pos hclosing]
    exact matches_of_spill hspill he.emptied (by simp [WsRx.session, hu, hc])
  · have hclosing : ¬ (ws.session user).closing = true := hp
    have hstate : ws.lwsiState = .established := by rw [he.state, if_neg hp]
    rw [if_neg hp] at hspill
    rw [if_neg hclosing]
    simp only [spillClose, hu, he.collected] at hspill
    generalize hk : (if (env.validateUtf8 && decide (2 < p.length)) = true then
      lwsCheckUtf8 0 (p.drop 2) else some 0) = checked at hspill ⊢
    cases checked with
    | none => exact matches_of_refused hspill
    | some u =>
      simp only [hstate, reduceCtorEq, if_false] at hspill ⊢
      by_cases hpart : env.partialBuffered = true
      · rw [if_pos hpart] at hspill ⊢
        exact matches_of_refused hspill
      · rw [if_neg hpart] at hspill ⊢
        have hlen : (closePayload p).length ≤ pingPayloadRoom := by
          rw [length_closePayload]
          exact Nat.le_of_lt_succ he.fits
        rw [processAsPing_eq hlen] at hspill
        refine matches_of_spill hspill ⟨he.usable, he.between, rfl, he.owed, rfl⟩ ?_
        simp [WsRx.session, WsRx.storePing, hc]

end Control

section Conversation

variable {rem : Nat} {env : RxEnv} {take : κ → List Byte → κ} {ws ws' : WsRx} {user user' : κ}

theorem opened_keeps (ws : WsRx) (v fin : Bool) (o : Opcode) :
    (ws.opened v fin o).allZeroNonce = true ∧ (ws.opened v fin o).final = fin ∧
      (ws.opened v fin o).lwsiState = ws.lwsiState ∧
      (ws.opened v fin o).peerHasSentClose = ws.peerHasSentClose := by
  cases o <;> exact ⟨rfl, rfl, rfl, rfl⟩

theorem session_opened (ws : WsRx) (user : κ) (fin : Bool) {o : Opcode} (hc : o.isControl = false) :
    (ws.opened env.validateUtf8 fin o).session user = (ws.session user).opened env fin o := by
  cases o <;> first | rfl | simp at hc

theorem step_data (s : Session κ) {f : Frame} (hc : f.opcode.isControl = false) :
    s.step rem env take f =
      if s.fragmented = decide (f.opcode = .continuation) then
        (s.opened env f.fin f.opcode).data rem env take f.fin f.payload
      else .error .badCont := by
  cases ho : f.opcode <;> simp [ho] at hc <;> simp [Session.step, ho]

theorem encode_eq (f : Frame) :
    f.encode = headerByte f.fin f.rsv1 f.opcode ::
      (f.form.bytes f.key.isSome f.payload.length ++ keyBytes f.key ++
        maskWith f.key f.payload) := rfl

theorem feed_dataFrame (htake : ∀ k a b, take k (a ++ b) = take (take k a) b) (hb : ws.Boundary)
    (user : κ) {f : Frame} (hc : f.opcode.isControl = false) :
    Matches (feed rem env take (ws, user) f.encode) ((ws.session user).step rem env take f) := by
  have hallow : ws.Allows f.fin f.opcode ↔
      (ws.session user).fragmented = decide (f.opcode = .continuation) := allows_data hb hc
  rw [step_data _ hc, encode_eq, feed_cons]
  by_cases ha : ws.Allows f.fin f.opcode
  · have hstep := @byteStep_header κ rem env take ws user hb.usable hb.between f.fin f.opcode
      ha f.rsv1
    obtain ⟨hz, hfin, hstate, hpeer⟩ := opened_keeps ws env.validateUtf8 f.fin f.opcode
    have howed : (ws.opened env.validateUtf8 f.fin f.opcode).owedAFin =
        (ws.opened env.validateUtf8 f.fin f.opcode).continuationPossible := by
      cases ho : f.opcode <;> simp [ho] at hc <;> rfl
    have hdata := @feed_data κ rem env take (ws.opened env.validateUtf8 f.fin f.opcode) user htake
      (by simp [hb.usable]) (by simp) hz (by simp [hb.empty]) (by simp [hc]) f.form f.key f.payload
      f.fits
    have hcheck := session_check rem (ws.opened env.validateUtf8 f.fin f.opcode) user f.payload
    have husable := opened_unusable ws env.validateUtf8 f.fin f.opcode
    have hempty := opened_rxUbuf ws env.validateUtf8 f.fin f.opcode
    rw [hstep, if_pos (hallow.mp ha), ← session_opened ws user f.fin hc]
    generalize ws.opened env.validateUtf8 f.fin f.opcode = w at *
    change Matches (feed rem env take (w, user) _) _
    rw [hdata, Session.data, ← hfin, hcheck]
    have hstate' : w.lwsiState = if w.peerHasSentClose then .returnedClose else .established := by
      rw [hstate, hpeer, hb.state]
    by_cases hp : f.payload = []
    · rw [if_pos hp, if_pos hp]
      exact @Matches.reached κ { w.ready f.key 0 with parseState := .new }
        ⟨husable.trans hb.usable, rfl, hempty.trans hb.empty, howed, hstate'⟩ user
    · rw [if_neg hp, if_neg hp]
      cases checkText rem w 0 f.payload with
      | error reason => exact .refused reason
      | ok u =>
        exact @Matches.reached κ { (w.ready f.key f.payload.length).consume f.payload.length with
          utf8 := u, firstFragment := false, parseState := .new }
          ⟨husable.trans hb.usable, rfl, hempty.trans hb.empty, howed, hstate'⟩ _
  · rw [byteStep_badCont hb f.rsv1 hc ha, if_neg (fun h => ha (hallow.mpr h))]
    exact .refused .badCont

theorem opened_control (ws : WsRx) (v : Bool) {o : Opcode} (hc : o.isControl = true) :
    (ws.opened v true o).owedAFin = ws.owedAFin ∧
      (ws.opened v true o).continuationPossible = ws.continuationPossible := by
  cases o <;> first | exact ⟨rfl, rfl⟩ | simp at hc

theorem feed_controlFrame_matches (hb : ws.Boundary) (user : κ) {f : Frame}
    (hc : f.opcode.isControl = true) :
    Matches (feed rem env take (ws, user) f.encode) ((ws.session user).step rem env take f) := by
  obtain ⟨hfin, hform⟩ := f.whole hc
  have ha : ws.Allows f.fin f.opcode := by
    cases ho : f.opcode <;> first | exact hfin | simp [ho] at hc
  have hstep := @byteStep_header κ rem env take ws user hb.usable hb.between f.fin f.opcode
    ha f.rsv1
  have hfits : f.payload.length < 126 := by
    have h := f.fits
    rw [hform] at h
    exact h
  obtain ⟨hz, hfinal, hstate, hpeer⟩ := opened_keeps ws env.validateUtf8 f.fin f.opcode
  obtain ⟨m, hfeed⟩ := @feed_controlFrame κ rem env take
    (ws.opened env.validateUtf8 f.fin f.opcode) user
    f.payload (by simp [hb.usable]) (by simp) hz (by simp [hb.empty]) (by simp [hc]) f.key hfits
  obtain ⟨howed, hcont⟩ := opened_control ws env.validateUtf8 hc
  rw [← hfin] at howed hcont
  have hends : WsRx.Ends { (ws.opened env.validateUtf8 f.fin f.opcode).collected f.key m
    f.payload with
      parseState := .new } f.payload := by
    refine ⟨?_, rfl, rfl, rfl, hfits, ?_, ?_⟩
    · exact (opened_unusable _ _ _ _).trans hb.usable
    · exact howed.trans (hb.owed.trans hcont.symm)
    · change (ws.opened env.validateUtf8 f.fin f.opcode).lwsiState =
        if (ws.opened env.validateUtf8 f.fin f.opcode).peerHasSentClose then _ else _
      rw [hstate, hpeer, hb.state]
  rw [encode_eq, feed_cons, hstep, hform]
  change Matches (feed rem env take (ws.opened env.validateUtf8 f.fin f.opcode, user) _) _
  rw [hfeed]
  change Matches (settledSpill env take _ user) _
  cases ho : f.opcode with
  | ping =>
    rw [ho] at hends
    have := @WsRx.Ends.ping κ env take _ user _ hends rfl
    simp only [Session.step, ho]
    exact this
  | pong =>
    rw [ho] at hends
    have := @WsRx.Ends.pong κ env take _ user _ hends rfl hfin
    simp only [Session.step, ho]
    exact this
  | close =>
    rw [ho] at hends
    have := @WsRx.Ends.close κ env take _ user _ hends rfl rfl rfl
    simp only [Session.step, ho]
    exact this
  | text | binary | continuation => simp [ho] at hc

theorem feed_frame (htake : ∀ k a b, take k (a ++ b) = take (take k a) b) (hb : ws.Boundary)
    (user : κ) (f : Frame) :
    Matches (feed rem env take (ws, user) f.encode) ((ws.session user).step rem env take f) := by
  cases hc : f.opcode.isControl with
  | true => exact feed_controlFrame_matches hb user hc
  | false => exact feed_dataFrame htake hb user hc

end Conversation

section Soundness

variable {rem : Nat} {env : RxEnv} {take : κ → List Byte → κ} {ws ws' : WsRx} {user user' : κ}
  {c : Byte}

/-- A number of bytes that have to come before the frame can be over. -/
def WsRx.owes (ws : WsRx) : Nat :=
  match ws.parseState with
  | .new => 0
  | .frameHdrLen => 1
  | .frameHdrLen16 left => left + 1
  | .frameHdrLen64 left => left + 1
  | .collectFrameKey i => 4 - i
  | .wsFramePayload => ws.rxPacketLength

theorem owes_settle (ws : WsRx) : ws.owes ≤ ws.settle.owes := by
  rw [WsRx.settle]
  split_ifs with h
  · obtain ⟨hp, -⟩ := WsRx.inData_iff.mp h.1
    simp [WsRx.owes, hp, h.2]
  · exact le_refl _

theorem collectFrameKey_next (ws : WsRx) (c : Byte) {i : Fin 4} (h3 : i ≠ 3) :
    (collectFrameKey ws c i).1.parseState = .collectFrameKey (i + 1) := by
  fin_cases i
  · rfl
  · rfl
  · rfl
  · exact absurd rfl h3

/-- Each byte pays for one at most. -/
theorem owes_advance {b : Bool} (h : advance env false ws c = .ok (ws', b)) :
    ws.owes ≤ ws'.owes + 1 := by
  cases hp : ws.parseState with
  | new => simp [WsRx.owes, hp]
  | frameHdrLen => simp [WsRx.owes, hp]
  | frameHdrLen16 left =>
    rw [advance_frameHdrLen16 hp] at h
    obtain ⟨rfl, -⟩ := Prod.mk.inj (Except.ok.inj h)
    fin_cases left
    · simp [WsRx.owes, hp]
    · simp [WsRx.owes, hp, frameHdrLen16]
  | frameHdrLen64 left =>
    rw [advance_frameHdrLen64 hp] at h
    have hw := (map_spill_eq_ok h).1
    rw [frameHdrLen64.eq_def] at hw
    split at hw
    · split_ifs at hw
      · exact absurd hw (refuse_ne_ok _ _)
      · obtain rfl := Except.ok.inj hw
        simp [WsRx.owes, hp]
    · simp [WsRx.owes, hp]
    · obtain rfl := Except.ok.inj hw
      have hsub : left.val ≤ (left - 1).val + 1 := by
        rw [Fin.sub_def]
        simp only [Fin.val_one]
        omega
      simpa [WsRx.owes, hp] using hsub
  | collectFrameKey i =>
    rw [advance_collectFrameKey hp] at h
    have hw : (collectFrameKey ws c i).1 = ws' := congrArg Prod.fst (Except.ok.inj h)
    rw [← hw]
    by_cases h3 : i = 3
    · simp [WsRx.owes, hp, h3]
    · have hsucc : (i + 1).val ≤ i.val + 1 := by
        rw [Fin.val_add]
        exact Nat.mod_le _ _
      simp only [WsRx.owes, hp, collectFrameKey_next ws c h3]
      omega
  | wsFramePayload =>
    rw [advance_wsFramePayload hp] at h
    have hleft : (ws.storeByte c).rxPacketLength = ws.rxPacketLength - 1 := by rw [storeByte_eq]
    simp only [framePayload, Bool.false_eq_true, if_false] at h
    split_ifs at h with hroom hz
    · exact absurd h (refuse_ne_ok _ _)
    · simp only [WsRx.owes, hp]
      omega
    · obtain ⟨rfl, -⟩ := Prod.mk.inj (Except.ok.inj h)
      simp only [WsRx.owes, hp, (storeByte_keeps ws c).2.2, hleft]
      omega

/-- A spill leaves the state and the length as they are. -/
theorem rxSm_advance
    (h : lwsWsRxSm env (streamCallback take) false false ws user c = .ok (ws', user')) :
    ∃ ws₁ b, advance env false ws c = .ok (ws₁, b) ∧ ws'.parseState = ws₁.parseState ∧
      ws'.rxPacketLength = ws₁.rxPacketLength := by
  rw [lwsWsRxSm] at h
  split_ifs at h
  cases ha : advance env false ws c with
  | error e => simp [ha] at h
  | ok result =>
    obtain ⟨ws₁, spills⟩ := result
    simp only [ha] at h
    cases spills with
    | false =>
      obtain ⟨rfl, -⟩ := Prod.mk.inj (Except.ok.inj h)
      exact ⟨_, _, rfl, rfl, rfl⟩
    | true =>
      obtain ⟨-, -, hp, hl⟩ := spill_ok h
      exact ⟨_, _, rfl, hp, hl⟩

theorem owes_rxSm
    (h : lwsWsRxSm env (streamCallback take) false false ws user c = .ok (ws', user')) :
    ws.owes ≤ ws'.owes + 1 := by
  obtain ⟨ws₁, b, ha, hp, hl⟩ := rxSm_advance h
  have hadv := owes_advance ha
  simpa only [WsRx.owes, hp, hl] using hadv

theorem owes_byteStep (h : byteStep rem env take (ws, user) c = .ok (ws', user')) :
    ws.owes ≤ ws'.owes + 1 := by
  cases hd : ws.inData with
  | true =>
    obtain ⟨u, hx, hu⟩ := byteStep_inData_ok hd h
    obtain ⟨rfl, -⟩ := Prod.mk.inj hu
    obtain ⟨-, hp, -, -, hl⟩ := takePiece_ok hx
    have hs := owes_settle u.1
    have hone : ws.owes ≤ u.1.owes + 1 := by
      simp only [WsRx.owes, hp, (WsRx.inData_iff.mp hd).1, hl, List.length_singleton]
      omega
    omega
  | false =>
    obtain ⟨u, hx, hu⟩ := byteStep_ok hd h
    obtain ⟨rfl, -⟩ := Prod.mk.inj hu
    have hs := owes_settle u.1
    have hone : ws.owes ≤ u.1.owes + 1 := owes_rxSm hx
    omega

theorem feed_append_ok {s t : WsRx × κ} {a b : List Byte}
    (h : feed rem env take s (a ++ b) = .ok t) :
    ∃ u, feed rem env take s a = .ok u ∧ feed rem env take u b = .ok t := by
  rw [feed_append] at h
  cases ha : feed rem env take s a with
  | error e => simp [ha, Except.bind] at h
  | ok u =>
    rw [ha] at h
    exact ⟨u, rfl, h⟩

theorem feed_cons_ok {s t : WsRx × κ} {l : List Byte} (h : feed rem env take s (c :: l) = .ok t) :
    ∃ u, byteStep rem env take s c = .ok u ∧ feed rem env take u l = .ok t := by
  obtain ⟨u, hc, hl⟩ := feed_append_ok (a := [c]) h
  rw [feed_singleton] at hc
  exact ⟨u, hc, hl⟩

theorem refuse_eq {α : Type} (ws : WsRx) (reason : Drop) :
    ∃ ws', (ws.refuse reason : Except (Drop × WsRx) α) = .error (reason, ws') := by
  rw [WsRx.refuse]
  cases reason.closeReason with
  | none => exact ⟨_, rfl⟩
  | some r => exact ⟨_, rfl⟩

theorem byteStep_long {m : Bool} {n : Nat} (hu : ws.unusable = false)
    (hs : ws.parseState = .frameHdrLen) (hn : n = 126 ∨ n = 127) :
    byteStep rem env take (ws, user) (lenByte m n) =
      if ws.opcode.isControl then .error .illegalCtlLength
      else .ok ({ ws with
        thisFrameMasked := m
        parseState := if n = 126 then .frameHdrLen16 1 else .frameHdrLen64 7 }, user) := by
  have hd : ws.inData = false := inData_of_parseState (by simp [hs])
  have hlong := frameHdrLen_long ws m hn
  by_cases hc : ws.opcode.isControl = true
  · obtain ⟨ws', hrefuse⟩ := @refuse_eq (WsRx × Bool) { ws with thisFrameMasked := m }
      .illegalCtlLength
    rw [if_pos hc, hrefuse] at hlong
    rw [if_pos hc, byteStep_of_refused hu hd ((advance_frameHdrLen hs).trans hlong)]
  · rw [if_neg hc] at hlong
    rw [if_neg hc, byteStep_of_advance hu hd ((advance_frameHdrLen hs).trans hlong),
      WsRx.settle_of_not_inData (inData_of_parseState (by simp only; split_ifs <;> simp))]

theorem byteStep_length {form : LengthForm} {n : Nat} {m : Bool} (hu : ws.unusable = false)
    (hs : ws.parseState = .frameHdrLen) {t : WsRx × κ}
    (hn : n = 126 ∧ form = .sixteen ∨ n = 127 ∧ form = .sixtyFour)
    (h : byteStep rem env take (ws, user) (lenByte m n) = .ok t) :
    ws.opcode.isControl = false ∧ t = ({ ws with
      thisFrameMasked := m
      parseState := if form = .sixteen then .frameHdrLen16 1 else .frameHdrLen64 7 }, user) := by
  rw [byteStep_long hu hs (hn.imp And.left And.left)] at h
  by_cases hc : ws.opcode.isControl = true
  · simp [hc] at h
  · rw [if_neg hc] at h
    obtain rfl := Except.ok.inj h
    refine ⟨by simpa using hc, ?_⟩
    rcases hn with ⟨rfl, rfl⟩ | ⟨rfl, rfl⟩ <;> simp

theorem ok_of_settled {x : Except (Stop κ Empty) (WsRx × κ)} {t : WsRx × κ}
    (h : (outcome x).map (fun t => (t.1.settle, t.2)) = .ok t) :
    ∃ ws', x = .ok (ws', t.2) ∧ ws'.settle = t.1 := by
  cases hx : outcome x with
  | error e => simp [hx, Except.map] at h
  | ok u =>
    rw [hx] at h
    obtain rfl := Except.ok.inj h
    exact ⟨u.1, outcome_eq_ok hx, rfl⟩

theorem error_of_settled {x : Except (Stop κ Empty) (WsRx × κ)} {reason : Drop}
    (h : (outcome x).map (fun t => (t.1.settle, t.2)) = .error reason) :
    ∃ ws' user', x = .error (.refused reason ws' user') := by
  cases hx : outcome x with
  | error e =>
    rw [hx] at h
    exact outcome_eq_error (hx.trans h)
  | ok u => simp [hx, Except.map] at h

theorem init_boundary : WsRx.init.Boundary := ⟨rfl, rfl, rfl, rfl, rfl⟩

/-- The frame in which a client sends `p`, a text of at most 125 bytes. -/
def clientFrame (key : Fin 4 → Byte) (p : List Byte) (h : p.length < 126) : Frame where
  fin := true
  rsv1 := false
  opcode := .text
  key := some key
  form := .seven
  payload := p
  fits := h
  whole := by simp

end Soundness

end Comlink
