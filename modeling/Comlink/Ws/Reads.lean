import Comlink.Ws.Simulation

/-! The receiver on the reads as they come. The check of a text at its end depends on
the read that brings its last bytes, so the conversation is followed together with the
cut of the stream. -/

namespace Comlink

open CText WireBytes CutStream

variable {κ : Type}

/-- What the reads lead to. -/
def ends (odd : OddBytes) (env : RxEnv) (take : κ → List Byte → κ) (s : WsRx × κ)
    (reads : List (List Byte × List Byte)) : Except Drop (WsRx × κ) :=
  (outcome (readsOver odd env (streamCallback take) s reads)).map fun t => (t.1.settle, t.2)

section Turns

variable {odd : OddBytes} {rem : Nat} {env : RxEnv} {take : κ → List Byte → κ} {s : WsRx × κ}
  {r stale : List Byte} {reads : List (List Byte × List Byte)} {c : Byte}

theorem outcome_settled (x : Except (Stop κ Empty) (WsRx × κ)) :
    outcome (settled x) = (outcome x).map fun t => (t.1.settle, t.2) := by
  rcases x with (⟨reason, ws, user⟩ | e) | a
  · rfl
  · exact e.elim
  · rfl

theorem ends_cons (s : WsRx × κ) (read : List Byte × List Byte)
    (reads : List (List Byte × List Byte)) :
    ends odd env take s (read :: reads) =
      (outcome (parseOver odd env (streamCallback take) s.1 s.2 read.1 read.2)).bind
        (ends odd env take · reads) := by
  rw [ends, readsOver_cons, outcome_bind]
  cases outcome (parseOver odd env (streamCallback take) s.1 s.2 read.1 read.2) <;> rfl

theorem ends_settle (hi : s.1.Idle) (reads : List (List Byte × List Byte)) :
    ends odd env take (s.1.settle, s.2) reads = ends odd env take s reads := by
  rw [ends, ends, ← outcome_settled, ← outcome_settled, readsOver_settle hi]

theorem ends_behind_zero (s : WsRx × κ) (reads : List (List Byte × List Byte)) :
    ends odd env take s (behind 0 reads) = ends odd env take s reads := by
  induction reads with
  | nil => rfl
  | cons read reads ih =>
    obtain ⟨r, stale⟩ := read
    cases r with
    | nil => exact ih.trans (ends_cons s ([], stale) reads).symm
    | cons c r => rfl

theorem ends_drop (s : WsRx × κ) {n : Nat} (h : n ≤ r.length) :
    ends odd env take s ((r.drop n, stale) :: reads) =
      ends odd env take s (behind n ((r, stale) :: reads)) := by
  rcases h.lt_or_eq with hlt | rfl
  · rw [behind_of_lt hlt]
  · rw [behind_of_le (le_refl _), Nat.sub_self, ends_behind_zero, List.drop_length]
    exact ends_cons s ([], stale) reads

theorem ends_byte (hi : s.1.Idle) (hd : s.1.inData = false) :
    ends odd env take s ((c :: r, stale) :: reads) =
      (byteStep rem env take s c).bind fun t => ends odd env take t ((r, stale) :: reads) := by
  rw [ends_cons, parseWs_cons hi hd, outcome_bind, byteStep, if_neg (by simp [hd])]
  cases hx : lwsWsRxSm env (streamCallback take) false false s.1 s.2 c with
  | error e =>
    cases e with
    | refused reason ws' user' => rfl
    | failed e => exact e.elim
  | ok t =>
    have hi' : t.1.Idle := hi.rxSm (fun h => absurd h (by simp [hd])) hx
    exact ((ends_settle hi' _).trans (ends_cons t (r, stale) reads)).symm

theorem ends_piece (hodd : odd.Regular) (htake : ∀ k a b, take k (a ++ b) = take (take k a) b)
    (hi : s.1.Idle) (hd : s.1.inData = true) (hr : r ≠ []) :
    ends odd env take s ((r, stale) :: reads) =
      (takePiece (odd s.1 (min s.1.rxPacketLength r.length)) env take s
        (r.take s.1.rxPacketLength)).bind fun t =>
          ends odd env take (t.1.settle, t.2) ((r.drop s.1.rxPacketLength, stale) :: reads) := by
  have hbulk := @bulkLoop_eq κ env take odd hodd htake (r.length + 1) ⟨s.1, s.2, r, stale⟩ hd
    (Nat.lt_succ_self _)
  rw [ends_cons, parseWs_bulk hi hd hr, outcome_bind, hbulk]
  cases takePiece (odd s.1 (min s.1.rxPacketLength r.length)) env take s
      (r.take s.1.rxPacketLength) with
  | error reason => rfl
  | ok t => exact (ends_cons (t.1.settle, t.2) (r.drop s.1.rxPacketLength, stale) reads).symm

end Turns

section Plain

/-- None of the bytes is payload of a data frame. -/
def PlainBytes (rem : Nat) (env : RxEnv) (take : κ → List Byte → κ) : WsRx × κ → List Byte → Prop
  | _, [] => True
  | s, c :: l => s.1.inData = false ∧
    ∀ t, byteStep rem env take s c = .ok t → PlainBytes rem env take t l

variable {odd : OddBytes} {rem : Nat} {env : RxEnv} {take : κ → List Byte → κ} {s : WsRx × κ}
  {ws ws' : WsRx} {user user' : κ} {reads : List (List Byte × List Byte)} {c : Byte}

theorem plainBytes_append {a b : List Byte} (ha : PlainBytes rem env take s a)
    (hb : ∀ t, feed rem env take s a = .ok t → PlainBytes rem env take t b) :
    PlainBytes rem env take s (a ++ b) := by
  induction a generalizing s with
  | nil => exact hb s rfl
  | cons c a ih =>
    refine ⟨ha.1, fun t ht => ih (ha.2 t ht) fun t' ht' => hb t' ?_⟩
    rw [feed_cons, ht]
    exact ht'

theorem WsRx.Idle.byteStep {t : WsRx × κ} (hi : s.1.Idle) (hd : s.1.inData = false)
    (h : byteStep rem env take s c = .ok t) : t.1.Idle := by
  obtain ⟨u, hx, rfl⟩ := byteStep_ok hd h
  exact (hi.rxSm (fun hin => absurd hin (by simp [hd])) hx).settle

/-- Where the reads are cut does not matter for such bytes. -/
theorem ends_plain {l more : List Byte} (hi : s.1.Idle) (hl : PlainBytes rem env take s l)
    (hbytes : joined reads = l ++ more) :
    ends odd env take s reads =
      (feed rem env take s l).bind fun t => ends odd env take t (behind l.length reads) := by
  induction l generalizing s reads with
  | nil => exact (ends_behind_zero s reads).symm
  | cons c l ih =>
    -- Reads that are used up come first, they change nothing.
    rw [← ends_behind_zero]
    have hzero := joined_behind 0 reads
    rw [hbytes, List.drop_zero] at hzero
    have hbehind : behind (l.length + 1) reads = behind (l.length + 1) (behind 0 reads) := by
      rw [behind_behind, Nat.zero_add]
    rw [List.length_cons, hbehind]
    rcases behind_zero_cases reads with hnil | ⟨a, r, stale, back, hfirst⟩
    · rw [hnil] at hzero
      simp at hzero
    · rw [hfirst] at hzero ⊢
      simp only [joined_cons, List.cons_append, List.cons.injEq] at hzero
      obtain ⟨rfl, hrest⟩ := hzero
      rw [@ends_byte κ odd rem env take s r stale back a hi hl.1, feed_cons, behind_cons_succ]
      cases ht : byteStep rem env take s a with
      | error reason => rfl
      | ok t => exact ih (hi.byteStep hl.1 ht) (hl.2 t ht) hrest

/-- A length or a key that takes more than the next byte. -/
theorem advance_within {b : Bool} (hs : ws.parseState ≠ .wsFramePayload) (ho : 2 ≤ ws.owes)
    (h : advance env false ws c = .ok (ws', b)) : ws'.parseState ≠ .wsFramePayload := by
  cases hp : ws.parseState with
  | new => simp [WsRx.owes, hp] at ho
  | frameHdrLen => simp [WsRx.owes, hp] at ho
  | wsFramePayload => exact absurd hp hs
  | frameHdrLen16 left =>
    rw [advance_frameHdrLen16 hp] at h
    obtain ⟨rfl, -⟩ := Prod.mk.inj (Except.ok.inj h)
    fin_cases left
    · simp [WsRx.owes, hp] at ho
    · simp [frameHdrLen16]
  | frameHdrLen64 left =>
    rw [advance_frameHdrLen64 hp] at h
    have hw := (map_spill_eq_ok h).1
    rw [frameHdrLen64.eq_def] at hw
    split at hw
    · split_ifs at hw
      · exact absurd hw (refuse_ne_ok _ _)
      · obtain rfl := Except.ok.inj hw
        simp
    · simp [WsRx.owes, hp] at ho
    · obtain rfl := Except.ok.inj hw
      simp
  | collectFrameKey i =>
    rw [advance_collectFrameKey hp] at h
    have hw : (collectFrameKey ws c i).1 = ws' := congrArg Prod.fst (Except.ok.inj h)
    have h3 : i ≠ 3 := by
      rintro rfl
      simp [WsRx.owes, hp] at ho
    rw [← hw, collectFrameKey_next ws c h3]
    simp

theorem byteStep_within (hs : ws.parseState ≠ .wsFramePayload) (ho : 2 ≤ ws.owes)
    (h : byteStep rem env take (ws, user) c = .ok (ws', user')) :
    ws'.parseState ≠ .wsFramePayload := by
  obtain ⟨u, hx, ht⟩ := byteStep_ok (inData_of_parseState hs) h
  obtain ⟨rfl, -⟩ := Prod.mk.inj ht
  obtain ⟨ws₁, b, hadv, hp, -⟩ := rxSm_advance hx
  have hw : u.1.parseState ≠ .wsFramePayload := hp ▸ advance_within hs ho hadv
  rwa [WsRx.settle_of_not_inData (inData_of_parseState hw)]

theorem plainBytes_of_owes {l : List Byte} (hs : ws.parseState ≠ .wsFramePayload)
    (ho : l.length ≤ ws.owes) : PlainBytes rem env take (ws, user) l := by
  induction l generalizing ws user with
  | nil => trivial
  | cons c l ih =>
    refine ⟨inData_of_parseState hs, fun t ht => ?_⟩
    by_cases hl : l = []
    · subst hl
      trivial
    · have hpos := List.length_pos_iff.mpr hl
      rw [List.length_cons] at ho
      have hless := owes_byteStep ht
      exact ih (byteStep_within hs (by omega) ht) (by omega)

variable {f : Frame}

theorem plainBytes_form {form : LengthForm} {m : Bool} {n : Nat} (hu : ws.unusable = false)
    (hs : ws.parseState = .frameHdrLen) : PlainBytes rem env take (ws, user) (form.bytes m n) := by
  have hd : ws.inData = false := inData_of_parseState (by simp [hs])
  cases form with
  | seven => exact ⟨hd, fun _ _ => trivial⟩
  | sixteen =>
    refine ⟨hd, fun t ht => ?_⟩
    obtain ⟨-, rfl⟩ := byteStep_length hu hs (.inl ⟨rfl, rfl⟩) ht
    exact plainBytes_of_owes (by simp) (by simp [WsRx.owes])
  | sixtyFour =>
    refine ⟨hd, fun t ht => ?_⟩
    obtain ⟨-, rfl⟩ := byteStep_length hu hs (.inr ⟨rfl, rfl⟩) ht
    exact plainBytes_of_owes (by simp) (by simp [WsRx.owes])

theorem plainBytes_header {form : LengthForm} {key : Option (Fin 4 → Byte)} {n : Nat}
    (hu : ws.unusable = false) (hs : ws.parseState = .frameHdrLen) (hf : form.Fits n)
    (hc : ws.opcode.isControl = true → form = .seven) :
    PlainBytes rem env take (ws, user) (form.bytes key.isSome n ++ keyBytes key) := by
  refine plainBytes_append (plainBytes_form hu hs) fun t ht => ?_
  cases key with
  | none => trivial
  | some key =>
    rw [Option.isSome_some, feed_form hu hs hf hc (.inl rfl)] at ht
    obtain rfl := Except.ok.inj ht
    have hkey : (lengthDone { ws with thisFrameMasked := true, rxPacketLength := n }).parseState =
        .collectFrameKey 0 := rfl
    rw [WsRx.settle_of_not_inData (inData_of_parseState (by simp [hkey]))]
    exact plainBytes_of_owes (by simp [hkey]) (by simp [WsRx.owes, hkey, keyBytes])

theorem plainBytes_head (hb : ws.Boundary) (ha : ws.Allows f.fin f.opcode) :
    PlainBytes rem env take (ws, user) f.head := by
  refine ⟨inData_of_parseState (by simp [hb.between]), fun t ht => ?_⟩
  rw [byteStep_header hb.usable hb.between ha] at ht
  obtain rfl := Except.ok.inj ht
  refine plainBytes_header (by simp [hb.usable]) (by simp) f.fits ?_
  rw [opened_opcode]
  exact fun h => (f.whole h).2

theorem plainBytes_control {p : List Byte} (hu : ws.unusable = false)
    (hs : ws.parseState = .wsFramePayload) (hc : ws.opcode.isControl = true)
    (hl : p.length ≤ ws.rxPacketLength) (hroom : ws.rxUbuf.length + p.length < rxBufferSize) :
    PlainBytes rem env take (ws, user) p := by
  induction p generalizing ws user with
  | nil => trivial
  | cons c p ih =>
    refine ⟨by simp [WsRx.inData, hc], fun t ht => ?_⟩
    rw [List.length_cons] at hl hroom
    by_cases hp : p = []
    · subst hp
      trivial
    · have hpos := List.length_pos_iff.mpr hp
      rw [← feed_singleton, feed_control hu hs hc (List.cons_ne_nil c []) (by simp; omega)
        (by simp; omega), if_neg (by simp; omega)] at ht
      obtain rfl := Except.ok.inj ht
      obtain ⟨hkeep, ho', hs'⟩ := storeByte_keeps ws c
      refine ih ((congrArg Upkeep.unusable hkeep).trans hu) (hs'.trans hs) ?_ ?_ ?_
      · rw [← hc, ← ho']
        rfl
      · change p.length ≤ (ws.storeByte c).rxPacketLength
        rw [storeByte_eq]
        simp only
        omega
      · change (ws.storeByte c).rxUbuf.length + p.length < rxBufferSize
        rw [storeByte_eq]
        simp only [List.length_append, WsRx.length_unmask, List.length_singleton]
        omega

theorem plainBytes_unheard (hb : ws.Boundary) (ha : ws.Allows f.fin f.opcode)
    (hf : f.opcode.isControl = true ∨ f.payload = []) :
    PlainBytes rem env take (ws, user) f.encode := by
  refine plainBytes_append (plainBytes_head hb ha) fun t ht => ?_
  by_cases hp : f.payload = []
  · rw [hp, List.length_eq_zero_iff.mp (length_maskWith f.key [])]
    trivial
  · have hc := hf.resolve_right hp
    rw [feed_head hb ha hp] at ht
    obtain rfl := Except.ok.inj ht
    have hfits := f.fits
    rw [(f.whole hc).2] at hfits
    have hopc := opened_opcode ws env.validateUtf8 f.fin f.opcode
    have husable := opened_unusable ws env.validateUtf8 f.fin f.opcode
    have hempty := opened_rxUbuf ws env.validateUtf8 f.fin f.opcode
    generalize ws.opened env.validateUtf8 f.fin f.opcode = w at *
    have hlen := length_maskWith f.key f.payload
    refine plainBytes_control (husable.trans hb.usable) rfl
      ((congrArg Opcode.isControl hopc).trans hc) (le_of_eq hlen) ?_
    change w.rxUbuf.length + (maskWith f.key f.payload).length < rxBufferSize
    rw [hempty, hb.empty, hlen, List.length_nil, Nat.zero_add]
    exact lt_trans hfits (by decide)

end Plain

section Conversation

variable {rem : Nat} {env : RxEnv} {take : κ → List Byte → κ} {s : WsRx × κ} {ws : WsRx} {user : κ}
  {reads : List (List Byte × List Byte)} {f : Frame} {more : List Byte}

/-- The rest of a frame's payload. The read of its last byte decides what is odd. -/
theorem ends_payload (htake : ∀ k a b, take k (a ++ b) = take (take k a) b) {raw : List Byte}
    (hi : s.1.Idle) (hd : s.1.inData = true) (hl : s.1.rxPacketLength = raw.length)
    (hraw : raw ≠ []) (hbytes : joined reads = raw ++ more) :
    ends WsRx.oddBytes env take s reads =
      (takePiece (WsRx.oddBytes s.1 (lastPart raw.length reads)) env take s raw).bind fun t =>
        ends WsRx.oddBytes env take (t.1.settle, t.2) (behind raw.length reads) := by
  have hpos := List.length_pos_iff.mpr hraw
  induction reads generalizing s raw with
  | nil => simp_all
  | cons read reads ih =>
    obtain ⟨r, stale⟩ := read
    replace hbytes : r ++ joined reads = raw ++ more := hbytes
    by_cases hr : r = []
    · subst hr
      rw [lastPart_of_lt hpos, behind_of_le (Nat.zero_le _)]
      exact (ends_cons s ([], stale) reads).trans (ih hi hd hl hraw hbytes hpos)
    rw [ends_piece oddBytes_regular htake hi hd hr, hl]
    by_cases hle : raw.length ≤ r.length
    · obtain ⟨y, rfl⟩ : raw <+: r :=
        List.prefix_of_prefix_length_le ⟨more, hbytes.symm⟩ ⟨joined reads, rfl⟩ hle
      rw [List.take_left, lastPart_of_le hle, Nat.min_eq_left hle]
      exact congrArg _ (funext fun t => ends_drop _ hle)
    · -- The read ends inside of the payload, and nothing is said about its end.
      obtain ⟨raw', rfl⟩ : r <+: raw :=
        List.prefix_of_prefix_length_le ⟨joined reads, rfl⟩ ⟨more, hbytes.symm⟩ (by omega)
      have hrest : joined reads = raw' ++ more := by simpa using hbytes
      rw [List.length_append] at hl hle ⊢
      rw [lastPart_of_lt (by omega), behind_of_le (by omega), Nat.add_sub_cancel_left,
        List.take_of_length_le (by omega), List.drop_eq_nil_of_le (by omega),
        takePiece_append htake (by omega),
        takePiece_of_lt (by omega) (WsRx.oddBytes s.1 (lastPart raw'.length reads))]
      cases ht : takePiece (WsRx.oddBytes s.1 (lastPart raw'.length reads)) env take s r with
      | error reason => rfl
      | ok t =>
        have hleft : t.1.rxPacketLength = raw'.length := by
          rw [(takePiece_ok ht).2.2.2.2, hl, Nat.add_sub_cancel_left]
        have hodd : WsRx.oddBytes s.1 (lastPart raw'.length reads) =
            WsRx.oddBytes t.1 (lastPart raw'.length reads) := by
          simp only [WsRx.oddBytes, takePiece_nonce ht]
        have hset : (t.1.settle, t.2) = t := Prod.ext (WsRx.settle_of_pos (by omega)) rfl
        have hmore := @ih t raw' (hi.takePiece ht) ((takePiece_inData ht).trans hd) hleft
          (List.ne_nil_of_length_pos (by omega)) hrest (by omega)
        rw [hodd]
        change ends WsRx.oddBytes env take (t.1.settle, t.2) (([], stale) :: reads) = _
        rw [hset]
        exact (ends_cons t ([], stale) reads).trans hmore

theorem ends_raw (htake : ∀ k a b, take k (a ++ b) = take (take k a) b) {raw : List Byte}
    (hi : s.1.Idle) (hd : s.1.inData = true) (hl : s.1.rxPacketLength = raw.length)
    (hraw : raw ≠ []) (hbytes : joined reads = raw ++ more) :
    ends WsRx.oddBytes env take s reads =
      (feed (WsRx.oddBytes s.1 (lastPart raw.length reads)) env take s raw).bind fun t =>
        ends WsRx.oddBytes env take t (behind raw.length reads) := by
  have hpos := List.length_pos_iff.mpr hraw
  rw [ends_payload htake hi hd hl hraw hbytes, feed_piece htake hd (by omega) (by omega)]
  cases takePiece (WsRx.oddBytes s.1 (lastPart raw.length reads)) env take s raw <;> rfl

/-- What is in `n` at the end of the frame. Only the read of its last byte matters. -/
def Frame.odd (f : Frame) (reads : List (List Byte × List Byte)) : Nat :=
  if keyZero f.key then 0 else lastPart f.payload.length (behind f.head.length reads) % 4

theorem ends_frame (htake : ∀ k a b, take k (a ++ b) = take (take k a) b) (hb : ws.Boundary)
    (user : κ) (hbytes : joined reads = f.encode ++ more) :
    ends WsRx.oddBytes env take (ws, user) reads =
      (feed (f.odd reads) env take (ws, user) f.encode).bind fun t =>
        ends WsRx.oddBytes env take t (behind f.encode.length reads) := by
  have hi : ws.Idle := hb.quiet.toIdle
  by_cases ha : ws.Allows f.fin f.opcode
  · by_cases hf : f.opcode.isControl = true ∨ f.payload = []
    · exact ends_plain hi (plainBytes_unheard hb ha hf) hbytes
    · obtain ⟨hc, hp⟩ := not_or.mp hf
      rw [Frame.encode, List.append_assoc] at hbytes
      rw [ends_plain hi (plainBytes_head hb ha) hbytes, Frame.encode, feed_append,
        feed_head hb ha hp]
      have hlen := length_maskWith f.key f.payload
      have hopc := opened_opcode ws env.validateUtf8 f.fin f.opcode
      have husable := opened_unusable ws env.validateUtf8 f.fin f.opcode
      have hempty := opened_rxUbuf ws env.validateUtf8 f.fin f.opcode
      generalize ws.opened env.validateUtf8 f.fin f.opcode = w at *
      have hdata : (w.ready f.key f.payload.length).inData = true :=
        WsRx.inData_iff.mpr ⟨rfl, (congrArg Opcode.isControl hopc).trans (by simpa using hc)⟩
      have hidle : (w.ready f.key f.payload.length).Idle :=
        ⟨husable.trans hb.usable, fun _ => hempty.trans hb.empty⟩
      have hrest : joined (behind f.head.length reads) = maskWith f.key f.payload ++ more := by
        rw [joined_behind, hbytes, List.drop_left]
      have hraw := @ends_raw κ env take (_, user) (behind f.head.length reads) more htake
        (maskWith f.key f.payload) hidle hdata hlen.symm
        (fun h => hp (List.length_eq_zero_iff.mp (by rw [← hlen, h]; rfl))) hrest
      rw [behind_behind, ← List.length_append, hlen] at hraw
      exact hraw
  · have hc : f.opcode.isControl = false := by
      by_contra hc
      refine ha ?_
      have hfin := (f.whole (by simpa using hc)).1
      cases ho : f.opcode <;> first | exact hfin | simp [ho] at hc
    have hplain : PlainBytes (f.odd reads) env take (ws, user) [headerByte f.fin f.rsv1 f.opcode] :=
      ⟨inData_of_parseState (by simp [hb.between]), fun _ _ => trivial⟩
    rw [encode_eq] at hbytes ⊢
    rw [ends_plain hi hplain hbytes, feed_singleton, feed_cons, byteStep_badCont hb f.rsv1 hc ha]
    rfl

/-- The frames of a peer, as the reads bring them. -/
def Session.converse (env : RxEnv) (take : κ → List Byte → κ) :
    Session κ → List Frame → List (List Byte × List Byte) → Except Drop (Session κ)
  | s, [], _ => .ok s
  | s, f :: frames, reads =>
    (s.step (f.odd reads) env take f).bind fun s =>
      converse env take s frames (behind f.encode.length reads)

theorem converse_singleton (s : Session κ) (f : Frame) (reads : List (List Byte × List Byte)) :
    s.converse env take [f] reads = s.step (f.odd reads) env take f := by
  rw [Session.converse]
  cases s.step (f.odd reads) env take f <;> rfl

theorem converse_behind_zero (s : Session κ) (frames : List Frame)
    (reads : List (List Byte × List Byte)) :
    s.converse env take frames (behind 0 reads) = s.converse env take frames reads := by
  cases frames with
  | nil => rfl
  | cons f frames => simp only [Session.converse, Frame.odd, behind_behind, Nat.zero_add]

theorem converse_append (s : Session κ) (a b : List Frame) (reads : List (List Byte × List Byte)) :
    s.converse env take (a ++ b) reads = (s.converse env take a reads).bind fun s =>
      s.converse env take b (behind (a.flatMap Frame.encode).length reads) := by
  induction a generalizing s reads with
  | nil => exact (converse_behind_zero s b reads).symm
  | cons f a ih =>
    rw [List.cons_append, Session.converse, Session.converse, List.flatMap_cons, List.length_append]
    cases s.step (f.odd reads) env take f with
    | error reason => rfl
    | ok t =>
      refine (ih t _).trans ?_
      rw [behind_behind]
      rfl

theorem ends_frames (htake : ∀ k a b, take k (a ++ b) = take (take k a) b) (hb : ws.Boundary)
    (user : κ) (frames : List Frame) (hbytes : joined reads = frames.flatMap Frame.encode ++ more) :
    ∃ x, Matches x ((ws.session user).converse env take frames reads) ∧
      ends WsRx.oddBytes env take (ws, user) reads = x.bind fun t =>
        ends WsRx.oddBytes env take t (behind (frames.flatMap Frame.encode).length reads) := by
  induction frames generalizing ws user reads with
  | nil => exact ⟨.ok (ws, user), .reached hb user, (ends_behind_zero _ reads).symm⟩
  | cons f frames ih =>
    rw [List.flatMap_cons, List.append_assoc] at hbytes
    have hmatch := @feed_frame κ (f.odd reads) env take ws htake hb user f
    rw [Session.converse, ends_frame htake hb user hbytes]
    generalize feed (f.odd reads) env take (ws, user) f.encode = y at hmatch ⊢
    generalize (ws.session user).step (f.odd reads) env take f = z at hmatch ⊢
    cases hmatch with
    | refused reason => exact ⟨.error reason, .refused reason, rfl⟩
    | @reached ws' hb' user' =>
      have hrest : joined (behind f.encode.length reads) = frames.flatMap Frame.encode ++ more := by
        rw [joined_behind, hbytes, List.drop_left]
      obtain ⟨x, hx, hends⟩ := ih hb' user' hrest
      rw [behind_behind, ← List.length_append] at hends
      exact ⟨x, hx, hends⟩

theorem ends_matches (htake : ∀ k a b, take k (a ++ b) = take (take k a) b) (hb : ws.Boundary)
    (user : κ) (frames : List Frame) (hbytes : joined reads = frames.flatMap Frame.encode) :
    Matches (ends WsRx.oddBytes env take (ws, user) reads)
      ((ws.session user).converse env take frames reads) := by
  obtain ⟨x, hx, hends⟩ := @ends_frames κ env take ws reads [] htake hb user frames
    (by rw [hbytes, List.append_nil])
  rw [hends, behind_of_joined_le (by rw [hbytes])]
  generalize (ws.session user).converse env take frames reads = z at hx ⊢
  cases hx with
  | refused reason => exact .refused reason
  | @reached ws' hb' user' =>
    have hnil : ends WsRx.oddBytes env take (ws', user') [] = .ok (ws', user') := by
      conv_rhs => rw [← hb'.settle_eq]
      rfl
    rw [Except.bind, hnil]
    exact .reached hb' user'

theorem reads_of_converse (htake : ∀ k a b, take k (a ++ b) = take (take k a) b)
    {frames : List Frame} (hbytes : joined reads = frames.flatMap Frame.encode) {s : Session κ}
    (hs : (Session.init user).converse env take frames reads = .ok s) :
    ∃ ws', parseReads env (streamCallback take) (.init, user) reads = .ok (ws', s.user) ∧
      ws'.settle.Boundary ∧ ws'.settle.session s.user = s := by
  have hmatch := @ends_matches κ env take WsRx.init reads htake init_boundary user frames hbytes
  rw [show WsRx.init.session user = Session.init user from rfl, hs] at hmatch
  obtain ⟨ws, user', hends, hb, rfl⟩ := hmatch.of_ok
  obtain ⟨ws', hreads, rfl⟩ := ok_of_settled hends
  exact ⟨ws', hreads, hb, rfl⟩

theorem refused_of_converse (htake : ∀ k a b, take k (a ++ b) = take (take k a) b)
    {frames : List Frame} (hbytes : joined reads = frames.flatMap Frame.encode) {reason : Drop}
    (hs : (Session.init user).converse env take frames reads = .error reason) :
    ∃ ws' user', parseReads env (streamCallback take) (.init, user) reads =
      .error (.refused reason ws' user') := by
  have hmatch := @ends_matches κ env take WsRx.init reads htake init_boundary user frames hbytes
  rw [show WsRx.init.session user = Session.init user from rfl, hs] at hmatch
  exact error_of_settled hmatch.of_error

end Conversation

end Comlink
