import Comlink.Ws.Simulation

/-! The calls that the frames of a peer cause. Whatever the reads are, the payload of
each data frame is divided, and each of its divisions is that of some reads. -/

namespace Comlink

open CText WireBytes CutStream

variable {κ κ' φ : Type}

section Boundaries

variable {odd : OddBytes} {rem : Nat} {env : RxEnv} {take : κ → List Byte → κ} {ws ws' : WsRx}
  {user : κ}

theorem feed_within {k k' : Bool} {p : List Byte} (hd : ws.inData = true)
    (hl : p.length < ws.rxPacketLength) (h : feed rem env noticed (ws, k) p = .ok (ws', k')) :
    ws'.inData = true := by
  rw [feed_piece noticed_append hd (by simp only; omega) hl.le] at h
  cases hp : takePiece rem env noticed (ws, k) p with
  | error e => simp [hp, Except.map] at h
  | ok t =>
    rw [hp] at h
    obtain ⟨rfl, -⟩ := Prod.mk.inj (Except.ok.inj h)
    have hleft : t.1.rxPacketLength = ws.rxPacketLength - p.length := (takePiece_ok hp).2.2.2.2
    rw [WsRx.settle_of_pos (by omega), takePiece_inData hp]
    exact hd

theorem takePiece_cases {p : List Byte} {t : WsRx × κ} (hp : p ≠ [])
    (h : takePiece rem env take (ws, user) p = .ok t) :
    ∃ u, checkText rem ws (ws.rxPacketLength - p.length) (ws.unmask p) = .ok u ∧
      t = ({ ws.consume p.length with utf8 := u, firstFragment := false },
        if env.preClose then user else take user (ws.unmask p)) := by
  rw [takePiece, if_neg hp] at h
  cases hc : checkText rem ws (ws.rxPacketLength - p.length) (ws.unmask p) with
  | error e => simp [hc, Except.map] at h
  | ok u =>
    rw [hc] at h
    exact ⟨u, rfl, (Except.ok.inj h).symm⟩

theorem frameRest_stream {p rest stale : List Byte} {u : Byte} (hpre : env.preClose = false)
    (hn : min (min rxBufferSize ws.rxPacketLength) (p ++ rest).length = p.length) (hp : p ≠ [])
    (hu : checkText rem ws (ws.rxPacketLength - p.length) (ws.unmask p) = .ok u) :
    lwsWsFrameRestIsPayload (.const rem) env (streamCallback take) ⟨ws, user, p ++ rest, stale⟩ =
      .ok (some ⟨{ ws.consume p.length with utf8 := u, firstFragment := false },
        take user (ws.unmask p), rest, stale⟩) := by
  have hpos : p.length ≠ 0 := fun h => hp (List.length_eq_zero_iff.mp h)
  have hc : checkPayload rem (ws.consume p.length) (ws.unmask p) =
      .ok { ws.consume p.length with utf8 := u } := checkPayload_of_checkText hu
  rw [frameRest_eq hn hpos]
  simp only [OddBytes.const_apply, List.take_left, List.drop_left, hc, hpre, Bool.false_eq_true,
    if_false, streamCallback]

/-- A read may be cut at the end of a frame. -/
theorem parseWs_append (hq : ws.Quiet) (hpre : env.preClose = false) {a : List Byte} {k k' : Bool}
    (hf : feed rem env noticed (ws.settle, k) a = .ok (ws', k')) (hd : ws'.inData = false)
    (user : κ)
    (b stale : List Byte) :
    settled (parseOver (.const rem) env (streamCallback take) ws user (a ++ b) stale) =
      (settled (parseOver (.const rem) env (streamCallback take) ws user a (b ++ stale))).bind
        fun t =>
        settled (parseOver (.const rem) env (streamCallback take) t.1 t.2 b stale) := by
  induction hn : a.length using Nat.strong_induction_on generalizing ws user a k with
  | _ n ih =>
    rw [← parseWs_settle hq.toIdle, ← parseWs_settle hq.toIdle]
    have hqs := hq.settle
    have hss := ws.settle_settle
    generalize ws.settle = w at *
    cases a with
    | nil =>
      simp only [parseOver, parseLoop, settled, Except.map, Except.bind, hss, List.nil_append]
    | cons c a =>
      cases hdata : w.inData with
      | false =>
        obtain ⟨t, hbyte, hrest⟩ := feed_cons_ok hf
        obtain ⟨-, ⟨hdata', -⟩ | ⟨-, -, ws₁, hq₁, ht, hrun⟩⟩ := byteStep_noticed hqs hpre hbyte
        · simp [hdata] at hdata'
        · rw [List.cons_append, parseWs_cons hqs.toIdle hdata, parseWs_cons hqs.toIdle hdata, hrun]
          simp only [List.length_cons] at hn
          have hrest' : feed rem env noticed (ws₁.settle, t.2) a = .ok (ws', k') := ht ▸ hrest
          exact ih a.length (by omega) hq₁ hrest' user rfl
      | true =>
        have hpos : w.rxPacketLength ≠ 0 := by
          intro h0
          have hover := settle_inData_of_zero hdata h0
          rw [hss, hdata] at hover
          simp at hover
        have hlong : min rxBufferSize w.rxPacketLength ≤ (c :: a).length := by
          by_contra hshort
          have := feed_within hdata (by omega) hf
          simp [hd] at this
        -- The piece ends inside of `a`, so the read behind it does not matter.
        obtain ⟨p, rest, hsplit, hp⟩ : ∃ p rest, c :: a = p ++ rest ∧
            p.length = min rxBufferSize w.rxPacketLength :=
          ⟨_, _, (List.take_append_drop _ _).symm, List.length_take_of_le hlong⟩
        have hsize : 0 < rxBufferSize := by decide
        have hne : p ≠ [] := fun h => by simp only [h, List.length_nil] at hp; omega
        rw [hsplit] at hf hn ⊢
        obtain ⟨t, hpiece, hrest⟩ := feed_append_ok hf
        rw [feed_piece noticed_append hdata hpos (by simp only; omega)] at hpiece
        cases ht : takePiece rem env noticed (w, k) p with
        | error e => simp [ht, Except.map] at hpiece
        | ok t₁ =>
          rw [ht] at hpiece
          obtain rfl := Except.ok.inj hpiece
          obtain ⟨u, hu, rfl⟩ := takePiece_cases hne ht
          have hstep : ∀ rest stale, lwsWsFrameRestIsPayload (.const rem) env (streamCallback take)
              ⟨w, user, p ++ rest, stale⟩ = _ := fun rest stale =>
            frameRest_stream hpre (by rw [List.length_append]; omega) hne hu
          rw [List.append_assoc, parseWs_piece hqs.toIdle hdata (hstep _ _),
            parseWs_piece hqs.toIdle hdata (hstep _ _)]
          rw [List.length_append] at hn
          have := List.length_pos_iff.mpr hne
          exact ih rest.length (by omega) (hqs.piece _ u false) hrest _ rfl

theorem streamCallback_keeps {take' : κ' → List Byte → κ'} {R : κ → κ' → Prop}
    (h : ∀ u u' p, R u u' → p ≠ [] → p.length ≤ rxBufferSize → R (take u p) (take' u' p)) :
    CallsKeep (fun u u' _ => R u u') (streamCallback take) (streamCallback take') := by
  intro u u' p rest stale next behind hR hp hl hcall
  obtain ⟨rfl, rfl⟩ := Prod.mk.inj (Except.ok.inj hcall)
  exact ⟨take' u' p, rfl, h u u' p hR hp hl⟩

theorem readsOver_append (hq : ws.Quiet) (hpre : env.preClose = false) {k k' : Bool}
    (front : List (List Byte × List Byte)) {x : List Byte} (hd : ws'.inData = false)
    (hf : feed rem env noticed (ws.settle, k) (joined front ++ x) = .ok (ws', k'))
    (y stale : List Byte) (back : List (List Byte × List Byte)) :
    settled (readsOver (.const rem) env (streamCallback take) (ws, user)
      (front ++ (x ++ y, stale) :: back)) =
      settled ((readsOver (.const rem) env (streamCallback take) (ws, user)
        (front ++ [(x, y ++ stale)])).bind
        (readsOver (.const rem) env (streamCallback take) · ((y, stale) :: back))) := by
  induction front generalizing ws user k with
  | nil =>
    have hone := @parseWs_append κ rem env take ws ws' hq hpre x k k' hf hd user y stale
    rw [List.nil_append, List.nil_append, readsOver_cons, readsOver_cons]
    cases hx : parseOver (.const rem) env (streamCallback take) ws user x (y ++ stale) with
    | error e =>
      rw [hx] at hone
      cases hw : parseOver (.const rem) env (streamCallback take) ws user (x ++ y) stale with
      | error e' =>
        rw [hw] at hone
        exact hone
      | ok t => simp [hw, settled, Except.map, Except.bind] at hone
    | ok t =>
      have hi : t.1.Idle := hq.toIdle.parseWs hx
      rw [hx] at hone
      change _ = settled (parseOver (.const rem) env
        (streamCallback take) t.1.settle t.2 y stale) at hone
      rw [parseWs_settle hi] at hone
      change _ = settled ((parseOver (.const rem) env (streamCallback take) t.1 t.2 y stale).bind
        (readsOver (.const rem) env (streamCallback take) · back))
      exact settled_bind hone (fun t' ht => readsOver_settle (hq.toIdle.parseWs ht) back)
        (fun t' ht => readsOver_settle (hi.parseWs ht) back)
  | cons read front ih =>
    rw [joined_cons, List.append_assoc] at hf
    obtain ⟨⟨w, k₁⟩, hread, hrest⟩ := feed_append_ok hf
    rw [← parseOver_eq noticed_append hq.toIdle k read.1 read.2] at hread
    obtain ⟨w₁, hx, rfl⟩ := ok_of_settled hread
    have hagree := @parseWs_agree κ Bool Empty Empty (fun _ _ _ => True) (streamCallback take)
      (streamCallback noticed) (.const rem) env ws user k read.1 read.2
      (streamCallback_keeps fun _ _ _ _ _ _ => trivial) hq trivial
    rw [List.cons_append, List.cons_append, readsOver_cons, readsOver_cons]
    rw [hx] at hagree
    generalize parseOver (.const rem) env (streamCallback take) ws user read.1 read.2 =
      z at hagree ⊢
    cases hagree with
    | failed => rfl
    | @ok t t' h =>
      obtain ⟨rfl, hq₁, -⟩ := h
      exact ih hq₁ hrest

end Boundaries

section Frames

/-- A user that keeps the calls. -/
def record (calls : List (List Byte)) (p : List Byte) : List (List Byte) := calls ++ [p]

/-- What a frame brings to a user. -/
def Frame.heard (f : Frame) : List Byte := if f.opcode.isControl then [] else f.payload

def Frame.Delivers (f : Frame) (calls : List (List Byte)) : Prop :=
  if f.heard = [] then calls = [] else ∃ d : Division f.heard, d.chunks = calls

theorem eq_nil_of_pieces {pieces : List (List Byte)}
    (hgood : ∀ c ∈ pieces, c ≠ [] ∧ c.length ≤ rxBufferSize) (h : pieces.flatten = []) :
    pieces = [] :=
  List.eq_nil_iff_forall_not_mem.mpr fun c hc =>
    (hgood c hc).1 (List.flatten_eq_nil_iff.mp h c hc)

theorem delivers_iff (f : Frame) (calls : List (List Byte)) :
    f.Delivers calls ↔
      calls.flatten = f.heard ∧ ∀ c ∈ calls, c ≠ [] ∧ c.length ≤ rxBufferSize := by
  rw [Frame.Delivers]
  by_cases hnil : f.heard = []
  · rw [if_pos hnil, hnil]
    constructor
    · rintro rfl
      simp
    · rintro ⟨hflat, hgood⟩
      exact eq_nil_of_pieces hgood hflat
  · rw [if_neg hnil]
    constructor
    · rintro ⟨d, rfl⟩
      exact ⟨d.flatten_chunks, fun c hc => ⟨d.filled c hc, d.bounded c hc⟩⟩
    · rintro ⟨hflat, hgood⟩
      refine ⟨⟨calls, hflat, ?_, fun c hc => (hgood c hc).1, fun c hc => (hgood c hc).2⟩, rfl⟩
      rintro rfl
      exact hnil hflat.symm

variable {rem : Nat} {env : RxEnv} {ws ws' : WsRx}

def Session.withUser (s : Session κ) (user : κ') : Session κ' :=
  ⟨s.fragmented, s.checking, s.utf8, s.closing, s.pending, user⟩

theorem withUser_ping (s : Session κ) (user : κ') (p : List Byte) :
    (s.withUser user).ping p = (s.ping p).withUser user := by
  by_cases h : s.pending.isSome = true <;> simp [Session.ping, Session.withUser, h]

theorem withUser_pong (s : Session κ) (user : κ') (p : List Byte) :
    (s.withUser user).pong p = (s.pong p).map (·.withUser user) := by
  have hcheck : (s.withUser user).check 0 true p = s.check 0 true p := rfl
  by_cases h : p = [] ∨ s.closing = true
  · have h' : p = [] ∨ (s.withUser user).closing = true := h
    rw [Session.pong, Session.pong, if_pos h, if_pos h']
    rfl
  · have h' : ¬ (p = [] ∨ (s.withUser user).closing = true) := h
    rw [Session.pong, Session.pong, if_neg h, if_neg h', hcheck]
    cases s.check 0 true p <;> rfl

theorem withUser_close (s : Session κ) (user : κ') (p : List Byte) :
    (s.withUser user).close env p = (s.close env p).map (·.withUser user) := by
  cases h : s.closing with
  | true =>
    have h' : (s.withUser user).closing = true := h
    rw [Session.close, Session.close, if_pos h, if_pos h']
    rfl
  | false =>
    have h' : (s.withUser user).closing = false := h
    simp only [Session.close, h, h', Bool.false_eq_true, if_false]
    generalize (if env.validateUtf8 && 2 < p.length then lwsCheckUtf8 0 (p.drop 2) else some 0) =
      checked
    cases checked with
    | none => rfl
    | some u => by_cases hp : env.partialBuffered = true <;> simp [hp, Except.map, Session.withUser]

theorem withUser_data (hpre : env.preClose = false) (take : κ → List Byte → κ)
    (take' : κ' → List Byte → κ') (s : Session κ) (user : κ') (fin : Bool) (p : List Byte) :
    (s.withUser user).data rem env take' fin p =
      (s.data rem env take fin p).map (·.withUser (if p = [] then user else take' user p)) := by
  have hcheck : (s.withUser user).check rem fin p = s.check rem fin p := rfl
  by_cases h : p = []
  · rw [Session.data, Session.data, if_pos h, if_pos h, if_pos h]
    rfl
  · rw [Session.data, Session.data, if_neg h, if_neg h, if_neg h, hcheck]
    cases s.check rem fin p with
    | error e => rfl
    | ok u => simp [Except.map, hpre, Session.withUser]

/-- The conversation does not depend on its user. -/
theorem step_withUser (hpre : env.preClose = false) (take : κ → List Byte → κ)
    (take' : κ' → List Byte → κ') (s : Session κ) (user : κ') (f : Frame) :
    (s.withUser user).step rem env take' f =
      (s.step rem env take f).map
        (·.withUser (if f.heard = [] then user else take' user f.heard)) := by
  cases hc : f.opcode.isControl with
  | true =>
    have hheard : f.heard = [] := if_pos hc
    rw [if_pos hheard]
    cases ho : f.opcode with
    | ping =>
      simp only [Session.step, ho, withUser_ping]
      rfl
    | pong => simp only [Session.step, ho, withUser_pong]
    | close => simp only [Session.step, ho, withUser_close]
    | text | binary | continuation => simp [ho] at hc
  | false =>
    have hheard : f.heard = f.payload := if_neg (by simp [hc])
    have hopen : (s.withUser user).opened env f.fin f.opcode =
        (s.opened env f.fin f.opcode).withUser user := by
      cases ho : f.opcode <;> rfl
    rw [step_data _ hc, step_data _ hc, hheard, hopen, withUser_data hpre take take']
    by_cases h : s.fragmented = decide (f.opcode = .continuation)
    · rw [if_pos h]
      exact if_pos h
    · rw [if_neg h]
      exact if_neg h

theorem readsOver_pieces (hq : ws.Quiet) {reads : List (List Byte × List Byte)} {k : List Byte}
    (h : feed rem env (· ++ ·) (ws.settle, []) (joined reads) = .ok (ws', k))
    (calls : List (List Byte)) :
    ∃ w pieces, readsOver (.const rem) env (streamCallback record) (ws, calls) reads =
        .ok (w, calls ++ pieces) ∧ w.Quiet ∧ w.settle = ws' ∧ pieces.flatten = k ∧
      ∀ c ∈ pieces, c ≠ [] ∧ c.length ≤ rxBufferSize := by
  rw [← @readsOver_eq _ rem env (· ++ ·) (fun k a b => (List.append_assoc k a b).symm) (ws, [])
    hq.toIdle] at h
  obtain ⟨w, hx, rfl⟩ := ok_of_settled h
  have hagree := @readsOver_agree (List (List Byte)) (List Byte) Empty Empty
    (streamCallback record) (streamCallback (· ++ ·)) (.const rem) env ws calls []
    (fun ps k => ∃ pieces, ps = calls ++ pieces ∧ pieces.flatten = k ∧
      ∀ c ∈ pieces, c ≠ [] ∧ c.length ≤ rxBufferSize)
    (streamCallback_keeps ?_) hq ⟨[], by simp⟩ reads
  · rw [hx] at hagree
    generalize readsOver (.const rem) env (streamCallback record) (ws, calls) reads = y at hagree ⊢
    cases hagree with
    | @ok t _ hok =>
      obtain ⟨hw, hq', pieces, hcalls, hflat, hgood⟩ := hok
      exact ⟨t.1, pieces, by rw [← hcalls], hq', congrArg WsRx.settle hw.symm, hflat, hgood⟩
    | @failed e => exact e.elim
  · rintro _ _ p ⟨pieces, rfl, rfl, hgood⟩ hp hl
    refine ⟨pieces ++ [p], by simp [record], by simp, ?_⟩
    simpa [or_imp, forall_and, hp, hl] using hgood

/-- A conversation for its own sake. -/
def heedless (_ : Unit) (_ : List Byte) : Unit := ()

theorem feed_heard (hpre : env.preClose = false) (hb : ws.Boundary) {f : Frame} {s : Session Unit}
    (hstep : (ws.session ()).step rem env heedless f = .ok s) :
    ∃ ws', feed rem env (· ++ ·) (ws, []) f.encode = .ok (ws', f.heard) ∧ ws'.Boundary ∧
      ws'.session () = s := by
  have hconcat := @step_withUser _ _ rem env hpre heedless (· ++ ·) (ws.session ())
    ([] : List Byte) f
  have hheard : (if f.heard = [] then [] else [] ++ f.heard) = f.heard := by
    split_ifs with h
    · exact h.symm
    · rfl
  rw [hstep, hheard] at hconcat
  have hmatch := @feed_frame _ rem env (· ++ ·) ws
    (fun k a b => (List.append_assoc k a b).symm) hb [] f
  rw [show ws.session ([] : List Byte) = (ws.session ()).withUser [] from rfl, hconcat] at hmatch
  obtain ⟨ws', k, hfeed, hb', hsame⟩ := hmatch.of_ok
  obtain rfl : k = f.heard := congrArg Session.user hsame
  exact ⟨ws', hfeed, hb', congrArg (·.withUser ()) hsame⟩

theorem feed_noticed_frame (hpre : env.preClose = false) (hb : ws.Boundary) {f : Frame}
    {s : Session Unit} (hstep : (ws.session ()).step rem env heedless f = .ok s) :
    ∃ ws' k, feed rem env noticed (ws, false) f.encode = .ok (ws', k) ∧ ws'.inData = false := by
  have hnoticed := @step_withUser _ _ rem env hpre heedless noticed (ws.session ()) false f
  have hmatch := @feed_frame _ rem env noticed ws noticed_append hb false f
  rw [hstep] at hnoticed
  rw [show ws.session false = (ws.session ()).withUser false from rfl, hnoticed] at hmatch
  obtain ⟨ws', k, hfeed, hb', -⟩ := hmatch.of_ok
  exact ⟨ws', k, hfeed, inData_of_parseState (by simp [hb'.between])⟩

theorem readsOver_frames (hpre : env.preClose = false) (hq : ws.Quiet) (hb : ws.settle.Boundary)
    {frames : List Frame} {s : Session Unit}
    (hs : frames.foldlM (Session.step rem env heedless) (ws.settle.session ()) = .ok s)
    {reads : List (List Byte × List Byte)}
    (hbytes : joined reads = frames.flatMap Frame.encode) (before : List (List Byte)) :
    ∃ ws' calls, settled (readsOver (.const rem) env (streamCallback record) (ws, before) reads) =
        .ok (ws', before ++ calls.flatten) ∧ List.Forall₂ Frame.Delivers frames calls := by
  induction frames generalizing ws reads before with
  | nil =>
    have hfeed : feed rem env (· ++ ·) (ws.settle, []) (joined reads) =
        .ok (ws.settle, []) := by
      rw [hbytes]
      rfl
    obtain ⟨w, pieces, hw, -, -, hflat, hgood⟩ := readsOver_pieces hq hfeed before
    obtain rfl := eq_nil_of_pieces hgood hflat
    exact ⟨w.settle, [], by rw [hw]; rfl, .nil⟩
  | cons f frames ih =>
    rw [List.foldlM_cons] at hs
    cases hstep : (ws.settle.session ()).step rem env heedless f with
    | error e => simp [hstep, bind, Except.bind] at hs
    | ok s₁ =>
      rw [hstep] at hs
      obtain ⟨ws₁, hfeed, hb₁, rfl⟩ := feed_heard hpre hb hstep
      obtain ⟨ws₂, k, hnoticed, hd⟩ := feed_noticed_frame hpre hb hstep
      rw [List.flatMap_cons] at hbytes
      obtain ⟨front, x, y, stale, back, rfl, hx, hy⟩ := split_joined (by simp [encode_eq]) hbytes
      have hfirst : joined (front ++ [(x, y ++ stale)]) = f.encode := by
        simpa using hx
      rw [← hfirst] at hfeed
      obtain ⟨w, pieces, hw, hqw, rfl, hflat, hgood⟩ := readsOver_pieces hq hfeed before
      rw [← hx] at hnoticed
      rw [readsOver_append hq hpre front hd hnoticed, hw]
      have hback : joined ((y, stale) :: back) = frames.flatMap Frame.encode := hy
      obtain ⟨ws', calls, hrest, hall⟩ := ih hqw hb₁ hs hback (before ++ pieces)
      refine ⟨ws', pieces :: calls, ?_, .cons ((delivers_iff f pieces).mpr ⟨hflat, hgood⟩) hall⟩
      rw [List.flatten_cons, ← List.append_assoc]
      exact hrest

end Frames

section Reads

variable {odd : OddBytes} {rem : Nat} {env : RxEnv} {take : κ → List Byte → κ} {ws w : WsRx}
  {user user' : κ} {u : Byte}

theorem readsOver_cons_settled {cb : Callback κ φ} (hi : ws.Idle) {read : List Byte × List Byte}
    (h : settled (parseOver odd env cb ws user read.1 read.2) = .ok (w, user'))
    (reads : List (List Byte × List Byte)) :
    settled (readsOver odd env cb (ws, user) (read :: reads)) =
      settled (readsOver odd env cb (w, user') reads) := by
  rw [readsOver_cons]
  cases hx : parseOver odd env cb ws user read.1 read.2 with
  | error e => simp [hx, settled, Except.map] at h
  | ok t =>
    rw [hx] at h
    obtain ⟨rfl, rfl⟩ := Prod.mk.inj (Except.ok.inj h)
    exact (readsOver_settle (hi.parseWs hx) reads).symm

theorem parseWs_onePiece (hpre : env.preClose = false) (hq : ws.Quiet) (hd : ws.inData = true)
    {p : List Byte} (hp : p ≠ []) (hsize : p.length ≤ rxBufferSize)
    (hl : p.length ≤ ws.rxPacketLength)
    (hu : checkText rem ws (ws.rxPacketLength - p.length) (ws.unmask p) = .ok u)
    (stale : List Byte) :
    settled (parseOver (.const rem) env (streamCallback take) ws user p stale) =
      .ok ({ ws.consume p.length with utf8 := u, firstFragment := false : WsRx }.settle,
        take user (ws.unmask p)) := by
  have hpiece := @frameRest_stream κ rem env take ws user p [] stale u hpre
    (by rw [List.append_nil]; omega) hp hu
  rw [List.append_nil] at hpiece
  rw [parseWs_piece hq.toIdle hd hpiece]
  rfl

/-- The raw payload of a frame, one read for each piece. -/
theorem exists_piece_reads (hpre : env.preClose = false) (hq : ws.Quiet) (hd : ws.inData = true)
    {pieces : List (List Byte)} (hne : pieces ≠ [])
    (hgood : ∀ c ∈ pieces, c ≠ [] ∧ c.length ≤ rxBufferSize) {raw : List Byte}
    (hl : ws.rxPacketLength = raw.length) (hraw : ws.unmask raw = pieces.flatten)
    (hu : checkText rem ws 0 pieces.flatten = .ok u) :
    ∃ r back, r ++ joined back = raw ∧
      (∀ read ∈ (r, []) :: back, read.1.length ≤ rxBufferSize) ∧
      ∀ before, ∃ ws', settled
        (readsOver (.const rem) env (streamCallback record) (ws, before) ((r, []) :: back)) =
        .ok (ws', before ++ pieces) := by
  induction pieces generalizing ws raw with
  | nil => exact absurd rfl hne
  | cons c pieces ih =>
    obtain ⟨hc, hsize⟩ := hgood c (List.mem_cons_self ..)
    have hlen : raw.length = c.length + pieces.flatten.length := by
      rw [← ws.length_unmask raw, hraw, List.flatten_cons, List.length_append]
    obtain ⟨r, raw', rfl, hr⟩ : ∃ r raw', raw = r ++ raw' ∧ r.length = c.length :=
      ⟨_, _, (List.take_append_drop c.length raw).symm, List.length_take_of_le (by omega)⟩
    rw [List.length_append] at hlen hl
    rw [ws.unmask_append, List.flatten_cons] at hraw
    obtain ⟨hpiece, hrest⟩ := List.append_inj hraw (by rw [WsRx.length_unmask, hr])
    have hrne : r ≠ [] := fun h => hc (List.length_eq_zero_iff.mp (by rw [← hr, h]; rfl))
    by_cases hlast : pieces = []
    · subst hlast
      obtain rfl : raw' = [] := List.length_eq_zero_iff.mp (by simp at hlen; omega)
      refine ⟨r, [], by simp, by simp; omega, fun before => ?_⟩
      have hu' : checkText rem ws (ws.rxPacketLength - r.length) (ws.unmask r) = .ok u := by
        rw [hl, hpiece, List.length_nil, Nat.add_zero, Nat.sub_self]
        simpa using hu
      rw [readsOver_cons_settled hq.toIdle
        (parseWs_onePiece hpre hq hd hrne (by omega) (by omega) hu' []), hpiece]
      exact ⟨_, rfl⟩
    · have hmore : raw'.length ≠ 0 := fun h0 =>
        hlast (eq_nil_of_pieces (fun d hdm => hgood d (List.mem_cons_of_mem _ hdm))
          (List.length_eq_zero_iff.mp (by omega)))
      have hleft : ws.rxPacketLength - r.length = raw'.length := by omega
      rw [List.flatten_cons, @checkText_append rem ws raw'.length 0 c _ hmore] at hu
      cases hu₁ : checkText rem ws raw'.length c with
      | error e => simp [hu₁, Except.bind] at hu
      | ok u₁ =>
        rw [hu₁] at hu
        obtain ⟨r', back, hback, hbound, hrun⟩ := @ih
          { ws.consume r.length with utf8 := u₁, firstFragment := false }
            (hq.piece _ u₁ false) hd hlast
          (fun d hdm => hgood d (List.mem_cons_of_mem _ hdm)) raw' hleft hrest hu
        refine ⟨r, (r', []) :: back, ?_, ?_, fun before => ?_⟩
        · rw [joined_cons, hback]
        · rintro read (_ | ⟨_, hmem⟩)
          · simp only
            omega
          · exact hbound read hmem
        · obtain ⟨ws', hws'⟩ := hrun (record before c)
          refine ⟨ws', ?_⟩
          have hu' : checkText rem ws (ws.rxPacketLength - r.length) (ws.unmask r) = .ok u₁ := by
            rw [hleft, hpiece, hu₁]
          rw [readsOver_cons_settled hq.toIdle
            (parseWs_onePiece hpre hq hd hrne (by omega) (by omega) hu' []), hpiece,
            WsRx.settle_of_pos (by rw [← hleft] at hmore; exact hmore), hws', record,
              List.append_assoc]
          rfl

theorem length_head_le (f : Frame) : f.head.length ≤ 14 := by
  have hkey : (keyBytes f.key).length ≤ 4 := by
    cases f.key <;> simp [keyBytes]
  cases hf : f.form <;> simp [Frame.head, LengthForm.bytes, hf] <;> omega

theorem length_unheard_le {f : Frame} (h : f.heard = []) : f.encode.length ≤ rxUbufAlloc := by
  have hhead := length_head_le f
  have hpayload : f.payload.length < 126 := by
    cases hc : f.opcode.isControl with
    | true =>
      have hfits := f.fits
      rw [(f.whole hc).2] at hfits
      exact hfits
    | false =>
      have hheard : f.heard = f.payload := if_neg (by simp [hc])
      simp [← hheard, h]
  simp only [Frame.encode, List.length_append, length_maskWith, rxUbufAlloc, rxBufferSize, lwsPre]
  omega

variable {f : Frame} {s : Session Unit} {pieces : List (List Byte)}

theorem feed_head_of_payload (hb : ws.Boundary) (hc : f.opcode.isControl = false)
    (hne : f.payload ≠ []) (hstep : (ws.session ()).step rem env heedless f = .ok s) :
    ∃ w : WsRx, feed rem env noticed (ws, false) f.head = .ok (w, false) ∧ w.inData = true ∧
      w.rxPacketLength = f.payload.length ∧ w.unmask (maskWith f.key f.payload) = f.payload ∧
      ∃ u, checkText rem w 0 f.payload = .ok u := by
  obtain ⟨ha, u, hu, -⟩ := data_of_step hb hc hne hstep
  refine ⟨_, feed_head hb ha hne, WsRx.inData_iff.mpr ⟨rfl, ?_⟩, rfl, ready_unmask .., u, hu⟩
  change (ws.opened env.validateUtf8 f.fin f.opcode).opcode.isControl = false
  rw [opened_opcode, hc]

theorem exists_frame_reads (hpre : env.preClose = false) (hb : ws.Boundary)
    (hstep : (ws.session ()).step rem env heedless f = .ok s) (hdel : f.Delivers pieces) :
    ∃ reads, joined reads = f.encode ∧
      (∀ read ∈ reads, read.1.length ≤ rxUbufAlloc) ∧
      ∀ before, ∃ ws', settled
        (readsOver (.const rem) env (streamCallback record) (ws, before) reads) =
        .ok (ws', before ++ pieces) := by
  obtain ⟨hflat, hgood⟩ := (delivers_iff f pieces).mp hdel
  by_cases hnil : f.heard = []
  · refine ⟨[(f.encode, [])], by simp, ?_, fun before => ?_⟩
    · simpa using length_unheard_le hnil
    · obtain ⟨ws₁, hfeed, -⟩ := feed_heard hpre hb hstep
      rw [← hb.settle_eq] at hfeed
      obtain ⟨w, pieces', hw, -, -, hflat', hgood'⟩ := @readsOver_pieces rem env ws ws₁ hb.quiet
        [(f.encode, [])] f.heard (by simpa using hfeed) before
      rw [hnil] at hflat hflat'
      rw [hw, eq_nil_of_pieces hgood hflat, eq_nil_of_pieces hgood' hflat']
      exact ⟨w.settle, rfl⟩
  · have hc : f.opcode.isControl = false := by
      by_contra hc
      exact hnil (if_pos (by simpa using hc))
    have hheard : f.heard = f.payload := if_neg (by simp [hc])
    rw [hheard] at hflat hnil
    obtain ⟨w, hhead, hd, hl, hraw, u, hu⟩ := feed_head_of_payload hb hc hnil hstep
    have hq := (@parseWs_silent _ Empty (.const rem) rem env (streamCallback record) ws w []
      hb.quiet hpre _ hhead [] []).1
    have hpne : pieces ≠ [] := by
      rintro rfl
      exact hnil hflat.symm
    obtain ⟨r, back, hback, hbound, hrun⟩ := exists_piece_reads hpre hq hd hpne hgood
      (hl.trans (length_maskWith f.key f.payload).symm) (hraw.trans hflat.symm) (hflat ▸ hu)
    refine ⟨(f.head ++ r, []) :: back, ?_, ?_, fun before => ?_⟩
    · rw [joined_cons, List.append_assoc, hback]
      rfl
    · have hhead := length_head_le f
      have hr := hbound (r, []) (List.mem_cons_self ..)
      rintro read (_ | ⟨_, hmem⟩)
      · simp only [List.length_append, rxUbufAlloc, lwsPre]
        simp only at hr
        omega
      · exact (hbound read (List.mem_cons_of_mem _ hmem)).trans (Nat.le_add_right _ _)
    · obtain ⟨ws', hws'⟩ := hrun before
      refine ⟨ws', ?_⟩
      rw [← hws', readsOver_cons, readsOver_cons]
      have hsame := (@parseWs_silent _ Empty (.const rem) rem env (streamCallback record) ws w
        before hb.quiet hpre _ hhead r []).2
      exact settled_bind hsame (fun t ht => readsOver_settle (hb.quiet.toIdle.parseWs ht) back)
        (fun t ht => readsOver_settle (hq.toIdle.parseWs ht) back)

theorem exists_frames_reads (hpre : env.preClose = false) (hb : ws.Boundary) {frames : List Frame}
    (hs : frames.foldlM (Session.step rem env heedless) (ws.session ()) = .ok s)
    {calls : List (List (List Byte))} (hdel : List.Forall₂ Frame.Delivers frames calls) :
    ∃ reads, joined reads = frames.flatMap Frame.encode ∧
      (∀ read ∈ reads, read.1.length ≤ rxUbufAlloc) ∧
      ∀ before, ∃ ws', settled
        (readsOver (.const rem) env (streamCallback record) (ws, before) reads) =
        .ok (ws', before ++ calls.flatten) := by
  induction hdel generalizing ws with
  | nil =>
    refine ⟨[], rfl, by simp, fun before => ⟨ws.settle, ?_⟩⟩
    simp [readsOver, settled, pure, Except.pure, Except.map]
  | @cons f pieces frames calls hf _ ih =>
    rw [List.foldlM_cons] at hs
    cases hstep : (ws.session ()).step rem env heedless f with
    | error e => simp [hstep, bind, Except.bind] at hs
    | ok s₁ =>
      rw [hstep] at hs
      obtain ⟨reads, hbytes, hbound, hrun⟩ := exists_frame_reads hpre hb hstep hf
      obtain ⟨ws₁, hfeed, hb₁, rfl⟩ := feed_heard hpre hb hstep
      obtain ⟨reads', hbytes', hbound', hrun'⟩ := ih hb₁ hs
      refine ⟨reads ++ reads', by simp [hbytes, hbytes'], ?_, fun before => ?_⟩
      · intro read hmem
        exact (List.mem_append.mp hmem).elim (hbound read) (hbound' read)
      · rw [← hb.settle_eq, ← hbytes] at hfeed
        obtain ⟨w, pieces', hw, hq, rfl, -, -⟩ := readsOver_pieces hb.quiet hfeed before
        obtain ⟨ws', hws'⟩ := hrun before
        rw [hw] at hws'
        have hsame : pieces' = pieces :=
          List.append_cancel_left (congrArg Prod.snd (Except.ok.inj hws'))
        obtain ⟨ws'', hws''⟩ := hrun' (before ++ pieces)
        refine ⟨ws'', ?_⟩
        rw [readsOver_settle hq.toIdle] at hws''
        rw [List.flatten_cons, ← List.append_assoc, ← hws'', ← hsame]
        have happ : readsOver (.const rem) env (streamCallback record) (ws, before)
          (reads ++ reads') =
            (readsOver (.const rem) env (streamCallback record) (ws, before) reads).bind
              (readsOver (.const rem) env (streamCallback record) · reads') := List.foldlM_append
        rw [happ, hw]
        rfl

end Reads

theorem parseReads_of_strict {cb : Callback κ φ} {env : RxEnv} {t t' : WsRx × κ}
    {reads : List (List Byte × List Byte)}
    (h : settled (readsOver (.const 0) env cb t reads) = .ok t') :
    ∃ ws, parseReads env cb t reads = .ok (ws, t'.2) := by
  cases hx : readsOver (.const 0) env cb t reads with
  | error e => simp [hx, settled, Except.map] at h
  | ok w =>
    rw [hx] at h
    obtain rfl := Except.ok.inj h
    exact ⟨w.1, (readsOver_stricter (OddBytes.const_zero_stricter _) t reads).eq_of_ok hx⟩

/-- The calls that a user gets for the frames of an allowed conversation. Whatever the
reads are, the payload of each data frame is divided, and no call has bytes of two frames.
Reads of the size of the library's buffer give all the divisions there are. -/
theorem calls_iff_divided {env : RxEnv} (hpre : env.preClose = false) {frames : List Frame}
    {s : Session Unit} (hs : frames.foldlM (Session.step 0 env heedless) (.init ()) = .ok s)
    (calls : List (List Byte)) :
    (∃ reads ws', joined reads = frames.flatMap Frame.encode ∧
        (∀ read ∈ reads, read.1.length ≤ rxUbufAlloc) ∧
        parseReads env (streamCallback record) (.init, []) reads = .ok (ws', calls)) ↔
      ∃ groups, List.Forall₂ Frame.Delivers frames groups ∧ groups.flatten = calls := by
  constructor
  · rintro ⟨reads, ws', hbytes, -, hrun⟩
    obtain ⟨ws'', groups, hsettled, hall⟩ := readsOver_frames hpre init_boundary.quiet
      init_boundary hs hbytes []
    obtain ⟨w, hstrict⟩ := parseReads_of_strict hsettled
    rw [hstrict] at hrun
    exact ⟨groups, hall, congrArg Prod.snd (Except.ok.inj hrun)⟩
  · rintro ⟨groups, hall, rfl⟩
    obtain ⟨reads, hbytes, hbound, hrun⟩ := exists_frames_reads hpre init_boundary hs hall
    obtain ⟨ws', hws'⟩ := hrun []
    obtain ⟨w, hstrict⟩ := parseReads_of_strict hws'
    exact ⟨reads, w, hbytes, hbound, hstrict⟩

theorem calls_behind_ping :
    ∃ reads ws', joined reads =
        [0x89, 1, 7, 0x81, 0x89, 1, 2, 3, 4, 0x35, 0x37, 0x2f, 0x54, 0x48, 0x56, 0x3a, 0x34, 0x34] ∧
      (∀ read ∈ reads, read.1.length ≤ rxUbufAlloc) ∧
      parseReads ⟨true, false, false⟩ (streamCallback record) (.init, []) reads =
        .ok (ws', [lit "45,PI", lit "T905"]) := by
  obtain ⟨reads, ws', hbytes, hbound, hrun⟩ := (@calls_iff_divided ⟨true, false, false⟩ rfl
    [⟨true, false, .ping, none, .seven, [7], by decide, by decide⟩,
      clientFrame ![1, 2, 3, 4] (lit "45,PIT905") (by decide)]
    ⟨false, true, 0, false, some [7], ()⟩ rfl _).mpr
      ⟨[[], [lit "45,PI", lit "T905"]], .cons ((delivers_iff _ _).mpr ⟨rfl, by decide⟩)
        (.cons ((delivers_iff _ _).mpr ⟨rfl, by decide⟩) .nil), rfl⟩
  exact ⟨reads, ws', hbytes.trans (by decide), hbound, hrun⟩

end Comlink
