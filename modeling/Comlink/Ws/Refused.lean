import Comlink.Ws.Reads

/-! What is refused: a header that no frame may have, and a frame that the conversation
does not allow. -/

namespace Comlink

open CText WireBytes CutStream

variable {κ : Type}

section Heads

/-- The bytes that a frame may not begin with, and the reason for which they are refused.
A control frame is not fragmented and has no long form of its length, a data frame goes
on with a message or begins one. -/
inductive BadHead (s : Session κ) : List Byte → Drop → Prop
  | fragCtl {c : Byte} (hc : c &&& 8 ≠ 0) (hf : c &&& 0x80 = 0) : BadHead s [c] .fragCtl
  | badOpc {c : Byte} (ho : Opcode.ofCode (c &&& 0xf) = none) (hf : c &&& 8 = 0 ∨ c &&& 0x80 ≠ 0) :
    BadHead s [c] .badOpc
  | badCont {c : Byte} {o : Opcode} (ho : Opcode.ofCode (c &&& 0xf) = some o)
      (hd : o.isControl = false) (hs : s.fragmented ≠ decide (o = .continuation)) :
    BadHead s [c] .badCont
  | rsvBits {c : Byte} {o : Opcode} (ho : Opcode.ofCode (c &&& 0xf) = some o)
      (ha : if o.isControl then c &&& 0x80 ≠ 0 else s.fragmented = decide (o = .continuation))
      (hr : c &&& 0x30 ≠ 0) : BadHead s [c] .rsvBits
  | illegalCtlLength {o : Opcode} {rsv1 m : Bool} {n : Nat} (hc : o.isControl = true)
      (hn : n = 126 ∨ n = 127) : BadHead s [headerByte true rsv1 o, lenByte m n] .illegalCtlLength
  | lengthBit63 {o : Opcode} {fin rsv1 m : Bool} {c : Byte} (hd : o.isControl = false)
      (hs : s.fragmented = decide (o = .continuation)) (hc : 128 ≤ c.toNat) :
    BadHead s [headerByte fin rsv1 o, lenByte m 127, c] .lengthBit63

variable {rem : Nat} {env : RxEnv} {take : κ → List Byte → κ} {ws : WsRx} {user : κ} {c : Byte}
  {reason : Drop}

theorem handleFirst_rsvBits {v : Bool} {o : Opcode} (hb : ws.Boundary)
    (ho : Opcode.ofCode (c &&& 0xf) = some o)
    (ha : if o.isControl then c &&& 0x80 ≠ 0
      else ws.continuationPossible = decide (o = .continuation))
    (hr : c &&& 0x30 ≠ 0) :
    ∃ ws', handleFirst v { ws with allZeroNonce := true } c = .error (.rsvBits, ws') := by
  have hrsv : ((c &&& 0x70) &&& ~~~0x40 != 0) = true := by simpa [(byte_fields c).2.2] using hr
  simp only [handleFirst, (byte_fields c).1, (byte_fields c).2.1, ofCode_control ho, ho]
  cases o with
  | text | binary =>
    have hcont : ws.continuationPossible = false := by simpa using ha
    have howed : ws.owedAFin = false := hb.owed.trans hcont
    simp [openFrame, closeFirst, hcont, howed, hrsv, WsRx.refuse, Drop.closeReason]
  | continuation =>
    have hcont : ws.continuationPossible = true := by simpa using ha
    simp [openFrame, closeFirst, hcont, hrsv, WsRx.refuse, Drop.closeReason]
  | close | ping | pong =>
    have hfin : (c &&& 0x80 != 0) = true := by simpa using ha
    simp [openFrame, closeFirst, hfin, hrsv, WsRx.refuse, Drop.closeReason]

theorem badFirst_refused (hb : ws.Boundary) (h : BadHead (ws.session user) [c] reason) :
    byteStep rem env take (ws, user) c = .error reason := by
  obtain ⟨hfin, hctl, -⟩ := byte_fields c
  refine byteStep_badFirst hb ?_
  cases h with
  | fragCtl hc hf => simp [handleFirst, hfin, hctl, hc, hf, WsRx.refuse, Drop.closeReason]
  | badOpc ho hf =>
    have hnot : ¬ ((c &&& 8 != 0 && !(c &&& 0x80 != 0)) = true) := by
      simpa [or_iff_not_imp_left] using hf
    simp only [handleFirst, hfin, hctl, if_neg hnot, ho]
    exact refuse_eq _ _
  | badCont ho hd hs => exact handleFirst_badCont ho hd hs
  | rsvBits ho ha hr => exact handleFirst_rsvBits hb ho ha hr

theorem byteStep_bit63 (hu : ws.unusable = false) (hs : ws.parseState = .frameHdrLen64 7)
    (hc : 128 ≤ c.toNat) : byteStep rem env take (ws, user) c = .error .lengthBit63 := by
  have hbit : (c &&& 0x80 != 0) = true := by
    by_contra hbit
    have := (topBit_iff c).mp (by simpa using hbit)
    omega
  obtain ⟨ws', hrefuse⟩ := @refuse_eq WsRx ws .lengthBit63
  have hadv : advance env false ws c = .error (.lengthBit63, ws') := by
    rw [advance_frameHdrLen64 hs, frameHdrLen64, if_pos hbit, hrefuse]
    rfl
  exact byteStep_of_refused hu (inData_of_parseState (by simp [hs])) hadv

theorem BadHead.refused {bad : List Byte} (hb : ws.Boundary)
    (h : BadHead (ws.session user) bad reason) :
    PlainBytes rem env take (ws, user) bad ∧ feed rem env take (ws, user) bad = .error reason := by
  have hd : ws.inData = false := inData_of_parseState (by simp [hb.between])
  have hfirst : ∀ {c : Byte}, BadHead (ws.session user) [c] reason →
      PlainBytes rem env take (ws, user) [c] ∧
        feed rem env take (ws, user) [c] = .error reason := by
    intro c hbad
    refine ⟨⟨hd, fun _ _ => trivial⟩, ?_⟩
    rw [feed_singleton, badFirst_refused hb hbad]
  cases h with
  | fragCtl hc hf => exact hfirst (.fragCtl hc hf)
  | badOpc ho hf => exact hfirst (.badOpc ho hf)
  | badCont ho ho' hs => exact hfirst (.badCont ho ho' hs)
  | rsvBits ho ha hr => exact hfirst (.rsvBits ho ha hr)
  | @illegalCtlLength o rsv1 m n hc hn =>
    have hopen := @byteStep_header κ rem env take ws user hb.usable hb.between true o
      (by cases o <;> first | rfl | simp at hc) rsv1
    refine ⟨⟨hd, fun t ht => ?_⟩, ?_⟩
    · rw [hopen] at ht
      obtain rfl := Except.ok.inj ht
      exact ⟨inData_of_parseState (by simp), fun _ _ => trivial⟩
    · rw [feed_cons, hopen]
      change feed rem env take (ws.opened env.validateUtf8 true o, user) [lenByte m n] = _
      rw [feed_singleton, byteStep_long (by simp [hb.usable]) (by simp) hn, if_pos (by simp [hc])]
  | @lengthBit63 o fin rsv1 m c ho hs hc =>
    have hopen := @byteStep_header κ rem env take ws user hb.usable hb.between fin o
      ((allows_data hb ho).mpr hs) rsv1
    have hlong := @byteStep_long κ rem env take (ws.opened env.validateUtf8 fin o) user m 127
      (by simp [hb.usable]) (by simp) (.inr rfl)
    rw [if_neg (by simp [ho])] at hlong
    refine ⟨⟨hd, fun t ht => ?_⟩, ?_⟩
    · rw [hopen] at ht
      obtain rfl := Except.ok.inj ht
      refine ⟨inData_of_parseState (by simp), fun t ht => ?_⟩
      rw [hlong] at ht
      obtain rfl := Except.ok.inj ht
      exact ⟨inData_of_parseState (by simp), fun _ _ => trivial⟩
    · rw [feed_cons, hopen]
      change feed rem env take (ws.opened env.validateUtf8 fin o, user) [lenByte m 127, c] = _
      rw [feed_cons, hlong]
      exact (feed_singleton _).trans
        (byteStep_bit63 ((opened_unusable ws _ _ _).trans hb.usable) rfl hc)

end Heads

section Breach

variable {env : RxEnv} {take : κ → List Byte → κ}

end Breach

end Comlink
