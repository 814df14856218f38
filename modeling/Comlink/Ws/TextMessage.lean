import Comlink.Ws.Reads

/-! A text message in fragments, with pings between them. -/

namespace Comlink

open CText WireBytes CutStream

variable {κ : Type}

/-- The rest of a message behind its first fragment. The last fragment is not empty. -/
inductive Continues : List Frame → Prop
  | ping {f : Frame} {frames : List Frame} (ho : f.opcode = .ping) (hr : Continues frames) :
    Continues (f :: frames)
  | fragment {f : Frame} {frames : List Frame} (ho : f.opcode = .continuation) (hf : f.fin = false)
      (hr : Continues frames) : Continues (f :: frames)
  | last {f : Frame} (ho : f.opcode = .continuation) (hf : f.fin = true) (hp : f.payload ≠ []) :
    Continues [f]

inductive TextMessage : List Frame → Prop
  | whole {f : Frame} (ho : f.opcode = .text) (hf : f.fin = true) (hp : f.payload ≠ []) :
    TextMessage [f]
  | fragmented {f : Frame} {frames : List Frame} (ho : f.opcode = .text) (hf : f.fin = false)
      (hr : Continues frames) : TextMessage (f :: frames)

def textOf (frames : List Frame) : List Byte :=
  frames.flatMap fun f => if f.opcode.isControl then [] else f.payload

theorem textOf_control {f : Frame} (h : f.opcode.isControl = true) (frames : List Frame) :
    textOf (f :: frames) = textOf frames := by
  simp [textOf, h]

theorem textOf_data {f : Frame} (h : f.opcode.isControl = false) (frames : List Frame) :
    textOf (f :: frames) = f.payload ++ textOf frames := by
  simp [textOf, h]

theorem textOf_singleton {f : Frame} (h : f.opcode.isControl = false) :
    textOf [f] = f.payload := by
  rw [textOf_data h]
  exact List.append_nil _

/-- What is in `n` at the end of the last frame. -/
def oddAtEnd : List Frame → List (List Byte × List Byte) → Nat
  | [], _ => 0
  | [f], reads => f.odd reads
  | f :: frames, reads => oddAtEnd frames (behind f.encode.length reads)

theorem oddAtEnd_cons {f : Frame} {frames : List Frame} (h : frames ≠ [])
    (reads : List (List Byte × List Byte)) :
    oddAtEnd (f :: frames) reads = oddAtEnd frames (behind f.encode.length reads) := by
  cases frames with
  | nil => exact absurd rfl h
  | cons g frames => rfl

theorem Continues.ne_nil {frames : List Frame} (h : Continues frames) : frames ≠ [] := by
  cases h <;> simp

section Outcome

variable {rem : Nat} {env : RxEnv} {take : κ → List Byte → κ} {s : Session κ}
  {frames : List Frame} {reads : List (List Byte × List Byte)}

/-- The text goes to the user, or the conversation is refused. At an end inside of a
character it depends on what the last read has left. -/
def Settles (rem : Nat) (env : RxEnv) (take : κ → List Byte → κ) (s : Session κ) (text : List Byte)
    (result : Except Drop (Session κ)) : Prop :=
  match lwsCheckUtf8 s.utf8 text with
  | none => result = .error .badUtf8
  | some u =>
    if u ≠ 0 ∧ rem = 0 then result = .error .partialUtf8
    else ∃ s', result = .ok s' ∧ s'.fragmented = false ∧ s'.utf8 = u ∧
      s'.user = if env.preClose then s.user else take s.user text

theorem data_last (hc : s.checking = true) (hf : s.fragmented = false) {p : List Byte}
    (hp : p ≠ []) : Settles rem env take s p (s.data rem env take true p) := by
  rw [Settles, Session.data, if_neg hp, Session.check, if_pos hc]
  cases hu : lwsCheckUtf8 s.utf8 p with
  | none => rfl
  | some u =>
    simp only [true_and]
    by_cases h0 : u ≠ 0 ∧ rem = 0
    · rw [if_pos h0, if_pos h0]
      rfl
    · rw [if_neg h0, if_neg h0]
      exact ⟨_, rfl, hf, rfl, rfl⟩

theorem data_more (htake : ∀ k a b, take k (a ++ b) = take (take k a) b) (hc : s.checking = true)
    {rem' : Nat} {p text : List Byte} {next : Session κ → Except Drop (Session κ)}
    (hnext : ∀ t : Session κ, t.checking = s.checking → t.fragmented = s.fragmented →
      Settles rem env take t text (next t)) :
    Settles rem env take s (p ++ text) ((s.data rem' env take false p).bind next) := by
  by_cases hp : p = []
  · subst hp
    rw [Session.data, if_pos rfl]
    exact hnext s rfl rfl
  rw [Session.data, if_neg hp, Session.check, if_pos hc, Settles, lwsCheckUtf8_append]
  cases hu : lwsCheckUtf8 s.utf8 p with
  | none => rfl
  | some u =>
    have hno : ¬ (false = true ∧ u ≠ 0 ∧ rem' = 0) := by simp
    simp only [if_neg hno]
    have hrest := hnext { s with
      utf8 := u, user := if env.preClose then s.user else take s.user p } rfl rfl
    have huser : (if env.preClose then s.user else take s.user (p ++ text)) =
        if env.preClose then (if env.preClose then s.user else take s.user p)
        else take (if env.preClose then s.user else take s.user p) text := by
      split_ifs
      · rfl
      · exact htake _ _ _
    rw [huser]
    exact hrest

theorem step_continuation {f : Frame} (ho : f.opcode = .continuation) (hs : s.fragmented = true) :
    s.step rem env take f =
      { s with fragmented := !f.fin }.data rem env take f.fin f.payload := by
  rw [step_data s (by simp [ho]), ho, if_pos (by simpa using hs)]
  rfl

theorem step_text {f : Frame} (ho : f.opcode = .text) (hs : s.fragmented = false) :
    s.step rem env take f =
      { s with fragmented := !f.fin, checking := env.validateUtf8 }.data rem env take f.fin
        f.payload := by
  rw [step_data s (by simp [ho]), ho, if_pos (by simpa using hs)]
  rfl

theorem Continues.settles (htake : ∀ k a b, take k (a ++ b) = take (take k a) b)
    (h : Continues frames) (hs : s.fragmented = true) (hc : s.checking = true) :
    Settles (oddAtEnd frames reads) env take s (textOf frames)
      (s.converse env take frames reads) := by
  induction h generalizing s reads with
  | @ping f frames ho hr ih =>
    have hstep : s.step (f.odd reads) env take f = .ok (s.ping f.payload) := by
      simp [Session.step, ho]
    have hkeep : (s.ping f.payload).fragmented = s.fragmented ∧
        (s.ping f.payload).checking = s.checking ∧ (s.ping f.payload).utf8 = s.utf8 ∧
        (s.ping f.payload).user = s.user := by
      rw [Session.ping]
      split_ifs <;> exact ⟨rfl, rfl, rfl, rfl⟩
    rw [Session.converse, hstep, textOf_control (by simp [ho]), oddAtEnd_cons hr.ne_nil]
    have hrest := @ih (s.ping f.payload) (behind f.encode.length reads) (hkeep.1.trans hs)
      (hkeep.2.1.trans hc)
    rw [Settles, hkeep.2.2.1, hkeep.2.2.2] at hrest
    exact hrest
  | @fragment f frames ho hf hr ih =>
    rw [Session.converse, step_continuation ho hs, hf, textOf_data (by simp [ho]),
      oddAtEnd_cons hr.ne_nil]
    exact @data_more κ _ env take { s with fragmented := true } htake hc _ f.payload
      (textOf frames) (·.converse env take frames (behind f.encode.length reads))
      (fun t htc htf => ih htf (htc.trans hc))
  | @last f ho hf hp =>
    rw [converse_singleton, step_continuation ho hs, hf, textOf_singleton (by simp [ho])]
    exact @data_last κ (f.odd reads) env take { s with fragmented := false } hc rfl f.payload hp

theorem TextMessage.settles (htake : ∀ k a b, take k (a ++ b) = take (take k a) b)
    (hv : env.validateUtf8 = true) (h : TextMessage frames) (hs : s.fragmented = false) :
    Settles (oddAtEnd frames reads) env take s (textOf frames)
      (s.converse env take frames reads) := by
  cases h with
  | @whole f ho hf hp =>
    rw [converse_singleton, step_text ho hs, hf, hv, textOf_singleton (by simp [ho])]
    exact @data_last κ (f.odd reads) env take { s with fragmented := false, checking := true }
      rfl rfl f.payload hp
  | @fragmented f frames ho hf hr =>
    rw [Session.converse, step_text ho hs, hf, hv, textOf_data (by simp [ho]),
      oddAtEnd_cons hr.ne_nil]
    exact @data_more κ _ env take { s with fragmented := true, checking := true } htake rfl _
      f.payload (textOf frames) (·.converse env take frames (behind f.encode.length reads))
      (fun t htc htf => hr.settles htake htf htc)

/-- A text message behind an allowed conversation, fragmented in any way and with pings
between the fragments. UTF-8 is passed on, and what no further bytes could complete is
refused. A text that ends inside of a character is refused only where the last read leaves
no odd bytes. -/
theorem text_outcome (htake : ∀ k a b, take k (a ++ b) = take (take k a) b)
    (hv : env.validateUtf8 = true) (user : κ) (before message : List Frame)
    (reads : List (List Byte × List Byte))
    (hbefore : (Session.init user).converse env take before reads = .ok s)
    (hs : s.fragmented = false) (hu : s.utf8 = 0) (hm : TextMessage message)
    (hbytes : joined reads = (before ++ message).flatMap Frame.encode) :
    (IsUtf8 (textOf message) → ∃ ws', parseReads env (streamCallback take) (.init, user) reads =
      .ok (ws', if env.preClose then s.user else take s.user (textOf message))) ∧
    ((∀ more, ¬ IsUtf8 (textOf message ++ more)) → ∃ ws' user',
      parseReads env (streamCallback take) (.init, user) reads =
        .error (.refused .badUtf8 ws' user')) ∧
    (¬ IsUtf8 (textOf message) → (∃ more, IsUtf8 (textOf message ++ more)) →
      if oddAtEnd message (behind (before.flatMap Frame.encode).length reads) = 0 then
        ∃ ws' user', parseReads env (streamCallback take) (.init, user) reads =
          .error (.refused .partialUtf8 ws' user')
      else ∃ ws', parseReads env (streamCallback take) (.init, user) reads =
        .ok (ws', if env.preClose then s.user else take s.user (textOf message))) := by
  have hall : (Session.init user).converse env take (before ++ message) reads =
      s.converse env take message (behind (before.flatMap Frame.encode).length reads) := by
    rw [converse_append, hbefore]
    rfl
  have hset := @TextMessage.settles κ env take s message
    (behind (before.flatMap Frame.encode).length reads) htake hv hm hs
  rw [← hall] at hset
  rw [Settles, hu] at hset
  refine ⟨fun h => ?_, fun h => ?_, fun h hmore => ?_⟩
  · rw [(lwsCheckUtf8_eq_zero_iff _).mpr h] at hset
    obtain ⟨s', hs', -, -, huser⟩ := hset
    obtain ⟨ws', hreads, -⟩ := reads_of_converse htake hbytes hs'
    rw [← huser]
    exact ⟨ws', hreads⟩
  · rw [(lwsCheckUtf8_eq_none_iff _).mpr h] at hset
    exact refused_of_converse htake hbytes hset
  · cases hc : lwsCheckUtf8 0 (textOf message) with
    | none =>
      obtain ⟨more, hmore⟩ := hmore
      exact absurd hmore ((lwsCheckUtf8_eq_none_iff _).mp hc more)
    | some u =>
      have hne : u ≠ 0 := by
        rintro rfl
        exact h ((lwsCheckUtf8_eq_zero_iff _).mp hc)
      rw [hc] at hset
      simp only [ne_eq, hne, not_false_eq_true, true_and] at hset
      by_cases hodd : oddAtEnd message (behind (before.flatMap Frame.encode).length reads) = 0
      · rw [if_pos hodd] at hset ⊢
        exact refused_of_converse htake hbytes hset
      · rw [if_neg hodd] at hset ⊢
        obtain ⟨s', hs', -, -, huser⟩ := hset
        obtain ⟨ws', hreads, -⟩ := reads_of_converse htake hbytes hs'
        rw [← huser]
        exact ⟨ws', hreads⟩

/-- The second byte of a character comes behind a ping, in another fragment. Without it,
the text is refused or passed on as the last read has it. -/
theorem text_outcome_by_cut :
    (∃ ws', parseReads ⟨true, false, false⟩ (streamCallback (· ++ ·)) (.init, [])
      [([0x01, 0x82, 1, 1, 1, 1, 0x62, 0xc2, 0x89, 0x80, 1], []), ([1, 1, 1], [0]),
        ([0x80, 0x81, 0, 0], []), ([0, 0, 0xa9], [])] = .ok (ws', [0x63, 0xc3, 0xa9])) ∧
    (∃ ws' user', parseReads ⟨true, false, false⟩ (streamCallback (· ++ ·)) (.init, [])
      [([0x81, 0x84, 1, 1, 1, 1, 0x60, 0x63, 0x62, 0xc2], [])] =
        .error (.refused .partialUtf8 ws' user')) ∧
    ∃ ws', parseReads ⟨true, false, false⟩ (streamCallback (· ++ ·)) (.init, [])
      [([0x81, 0x84, 1, 1, 1, 1, 0x60], []), ([0x63, 0x62, 0xc2], [])] =
        .ok (ws', [0x61, 0x62, 0x63, 0xc3]) := by
  have hcut : ¬ IsUtf8 (textOf [clientFrame ![1, 1, 1, 1] [0x61, 0x62, 0x63, 0xc3] (by decide)]) :=
    fun h => absurd ((lwsCheckUtf8_eq_zero_iff _).mpr h) (by decide)
  have hmore : ∃ more,
      IsUtf8 (textOf [clientFrame ![1, 1, 1, 1] [0x61, 0x62, 0x63, 0xc3] (by decide)] ++ more) :=
    ⟨[0xa9], (lwsCheckUtf8_eq_zero_iff _).mp (by decide)⟩
  refine ⟨?_, ?_, ?_⟩
  · exact (@text_outcome _ ⟨true, false, false⟩ (· ++ ·) _
      (fun k a b => (List.append_assoc k a b).symm) rfl [] []
      [⟨false, false, .text, some ![1, 1, 1, 1], .seven, [0x63, 0xc3], by decide, by decide⟩,
        ⟨true, false, .ping, some ![1, 1, 1, 1], .seven, [], by decide, by decide⟩,
        ⟨true, false, .continuation, some ![0, 0, 0, 0], .seven, [0xa9], by decide, by decide⟩]
      [([0x01, 0x82, 1, 1, 1, 1, 0x62, 0xc2, 0x89, 0x80, 1], []), ([1, 1, 1], [0]),
        ([0x80, 0x81, 0, 0], []), ([0, 0, 0xa9], [])]
      rfl rfl rfl (.fragmented rfl rfl (.ping rfl (.last rfl rfl (by decide)))) (by decide)).1
      ((lwsCheckUtf8_eq_zero_iff _).mp (by decide))
  · exact (@text_outcome _ ⟨true, false, false⟩ (· ++ ·) _
      (fun k a b => (List.append_assoc k a b).symm) rfl [] []
      [clientFrame ![1, 1, 1, 1] [0x61, 0x62, 0x63, 0xc3] (by decide)]
      [([0x81, 0x84, 1, 1, 1, 1, 0x60, 0x63, 0x62, 0xc2], [])] rfl rfl rfl
      (.whole rfl rfl (by decide)) (by decide)).2.2 hcut hmore
  · exact (@text_outcome _ ⟨true, false, false⟩ (· ++ ·) _
      (fun k a b => (List.append_assoc k a b).symm) rfl [] []
      [clientFrame ![1, 1, 1, 1] [0x61, 0x62, 0x63, 0xc3] (by decide)]
      [([0x81, 0x84, 1, 1, 1, 1, 0x60], []), ([0x63, 0x62, 0xc2], [])] rfl rfl rfl
      (.whole rfl rfl (by decide)) (by decide)).2.2 hcut hmore

end Outcome

end Comlink
