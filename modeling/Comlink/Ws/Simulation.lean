import Comlink.Ws.Calls

/-! Two users of one receiver. If the calls keep them related, so does a read, and
the receiver ends in the same state. With one user twice this is the rule for what
every call keeps. -/

namespace Comlink

open CText WireBytes

variable {κ κ' φ φ' α β : Type}

section Outcomes

/-- The outcomes of a receiver for two users, `S` for the results and `R` for what
the users are left with. Nothing is said once the first user has failed. -/
inductive Agree (S : α → β → Prop) (R : κ → κ' → Prop) :
    Except (Stop κ φ) α → Except (Stop κ' φ') β → Prop
  | ok {a : α} {b : β} (h : S a b) : Agree S R (.ok a) (.ok b)
  | refused {reason : Drop} {ws : WsRx} {user : κ} {user' : κ'} (h : R user user') :
      Agree S R (.error (.refused reason ws user)) (.error (.refused reason ws user'))
  | failed {e : φ} {y : Except (Stop κ' φ') β} : Agree S R (.error (.failed e)) y

variable {α' β' : Type} {S : α → β → Prop} {S' : α' → β' → Prop} {R : κ → κ' → Prop}
  {x : Except (Stop κ φ) α} {y : Except (Stop κ' φ') β}

theorem Agree.bind (h : Agree S R x y) {f : α → Except (Stop κ φ) α'}
    {g : β → Except (Stop κ' φ') β'} (hfg : ∀ a b, S a b → Agree S' R (f a) (g b)) :
    Agree S' R (x.bind f) (y.bind g) := by
  cases h with
  | ok h => exact hfg _ _ h
  | refused h => exact .refused h
  | failed => exact .failed

theorem Agree.map (h : Agree S R x y) {f : α → α'} {g : β → β'}
    (hfg : ∀ a b, S a b → S' (f a) (g b)) : Agree S' R (x.map f) (y.map g) := by
  cases h with
  | ok h => exact .ok (hfg _ _ h)
  | refused h => exact .refused h
  | failed => exact .failed

end Outcomes

/-- What a call keeps: `p` is the payload, `rest` is behind it in the read and `stale`
behind that. -/
def CallsKeep (R : κ → κ' → List Byte → Prop) (cb : Callback κ φ) (cb' : Callback κ' φ') : Prop :=
  ∀ ⦃user user' p rest stale next behind⦄, R user user' stale → p ≠ [] → p.length ≤ rxBufferSize →
    cb user p (rest ++ stale) = .ok (next, behind) → ∃ next',
      cb' user' p (rest ++ stale) = .ok (next', behind) ∧ R next next' (behind.drop rest.length)

/-- Two readings that differ in their users only. -/
structure Reading.Twin (R : κ → κ' → List Byte → Prop) (r : Reading κ) (r' : Reading κ') :
    Prop where
  ws : r'.ws = r.ws
  buf : r'.buf = r.buf
  stale : r'.stale = r.stale
  quiet : r.ws.Quiet
  users : R r.user r'.user r.stale

variable {R : κ → κ' → List Byte → Prop} {cb : Callback κ φ} {cb' : Callback κ' φ'}
  {odd : OddBytes} {env : RxEnv} {r : Reading κ} {r' : Reading κ'}

/-- The users are related for some bytes behind the read. -/
def Somewhere (R : κ → κ' → List Byte → Prop) (user : κ) (user' : κ') : Prop :=
  ∃ stale, R user user' stale

section Turns

theorem WsRx.Quiet.piece {ws : WsRx} (hq : ws.Quiet) (n : Nat) (u : Byte) (first : Bool) :
    { ws.consume n with utf8 := u, firstFragment := first : WsRx }.Quiet :=
  ⟨⟨hq.usable, hq.empty⟩, hq.closing⟩

theorem frameRest_agree (hcalls : CallsKeep R cb cb') (h : r.Twin R r') :
    Agree (Option.Rel (Reading.Twin R)) (Somewhere R) (lwsWsFrameRestIsPayload odd env cb r)
      (lwsWsFrameRestIsPayload odd env cb' r') := by
  obtain ⟨ws, user, buf, stale⟩ := r
  obtain ⟨ws', user', buf', stale'⟩ := r'
  obtain ⟨rfl, rfl, rfl, hq, hR⟩ := h
  generalize hn : min (min rxBufferSize ws'.rxPacketLength) buf'.length = n
  by_cases hz : n = 0
  · have hnone : ∀ {κ φ : Type} (cb : Callback κ φ) (user : κ),
        lwsWsFrameRestIsPayload odd env cb ⟨ws', user, buf', stale'⟩ = .ok none := by
      intro κ φ cb user
      rw [lwsWsFrameRestIsPayload, hn]
      exact if_pos hz
    rw [hnone, hnone]
    exact .ok .none
  · rw [frameRest_eq hn hz, frameRest_eq hn hz]
    cases hc : checkPayload (odd ws' n) (ws'.consume n) (ws'.unmask (buf'.take n)) with
    | error e => exact .refused ⟨stale', hR⟩
    | ok ws₁ =>
      obtain ⟨u, rfl⟩ := checkPayload_keeps hc
      have hquiet := hq.piece n u false
      by_cases hpre : env.preClose = true
      · simp only [if_pos hpre]
        exact .ok (.some ⟨rfl, rfl, rfl, hquiet, hR⟩)
      · simp only [if_neg hpre]
        have hlen : (ws'.unmask (buf'.take n)).length = n := by
          rw [WsRx.length_unmask, List.length_take]
          omega
        cases hcb : cb user (ws'.unmask (buf'.take n)) (buf'.drop n ++ stale') with
        | error e => exact .failed
        | ok result =>
          obtain ⟨next, behind⟩ := result
          obtain ⟨next', hcb', hnext⟩ := hcalls hR
            (fun hnil => hz (by rw [← hlen, hnil]; rfl)) (by rw [hlen]; omega) hcb
          simp only [hcb']
          exact .ok (.some ⟨rfl, rfl, rfl, hquiet, hnext⟩)

theorem bulkLoop_agree (hcalls : CallsKeep R cb cb') (fuel : Nat) (h : r.Twin R r') :
    Agree (Reading.Twin R) (Somewhere R) (bulkLoop odd env cb fuel r)
      (bulkLoop odd env cb' fuel r') := by
  induction fuel generalizing r r' with
  | zero => exact .ok h
  | succ fuel ih =>
    rw [bulkLoop, bulkLoop, h.ws, h.buf]
    by_cases hmore : (r.ws.inData && r.buf != []) = true
    · rw [if_pos hmore, if_pos hmore]
      have hpiece := @frameRest_agree _ _ _ _ R cb cb' odd env r r' hcalls h
      generalize lwsWsFrameRestIsPayload odd env cb r = x at hpiece ⊢
      generalize lwsWsFrameRestIsPayload odd env cb' r' = y at hpiece ⊢
      cases hpiece with
      | refused hR => exact .refused hR
      | failed => exact .failed
      | ok hresult =>
        cases hresult with
        | none => exact .ok h
        | some htwin => exact ih htwin
    · rw [if_neg hmore, if_neg hmore]
      exact .ok h

theorem parseLoop_agree (hcalls : CallsKeep R cb cb') (fuel : Nat) (h : r.Twin R r') :
    Agree (Reading.Twin R) (Somewhere R) (parseLoop odd env cb fuel r)
      (parseLoop odd env cb' fuel r') := by
  induction fuel generalizing r r' with
  | zero => exact .ok h
  | succ fuel ih =>
    obtain ⟨ws, user, buf, stale⟩ := r
    obtain ⟨ws', user', buf', stale'⟩ := r'
    obtain ⟨rfl, rfl, rfl, hq, hR⟩ := h
    cases buf' with
    | nil => exact .ok ⟨rfl, rfl, rfl, hq, hR⟩
    | cons c rest =>
      simp only [parseLoop]
      by_cases hd : ws'.inData = true
      · rw [if_pos hd, if_pos hd]
        have hbulk := @bulkLoop_agree _ _ _ _ R cb cb' odd env ⟨ws', user, c :: rest, stale'⟩
          ⟨ws', user', c :: rest, stale'⟩ hcalls ((c :: rest).length + 1) ⟨rfl, rfl, rfl, hq, hR⟩
        have hkeep : ∀ r₁, bulkLoop odd env cb ((c :: rest).length + 1)
          ⟨ws', user, c :: rest, stale'⟩ =
            .ok r₁ → r₁.ws.inData = ws'.inData := fun _ h => bulkLoop_inData h
        generalize bulkLoop odd env cb ((c :: rest).length + 1) ⟨ws', user, c :: rest, stale'⟩ = x
          at hbulk hkeep ⊢
        generalize bulkLoop odd env cb' ((c :: rest).length + 1) ⟨ws', user', c :: rest, stale'⟩ = y
          at hbulk ⊢
        cases hbulk with
        | refused hR => exact .refused hR
        | failed => exact .failed
        | @ok r₁ r₁' htwin =>
          have hd₁ : r₁.ws.inData = true := (hkeep r₁ rfl).trans hd
          simp only [htwin.ws, rxSm_settle htwin.quiet.toIdle hd₁]
          exact ih ⟨rfl, htwin.buf, htwin.stale, htwin.quiet.settle, htwin.users⟩
      · rw [if_neg hd, if_neg hd]
        obtain ⟨x, hx⟩ := rxSm_unheard env hq (by simpa using hd) c
        have hkeep := @WsRx.Quiet.rxSm κ φ env cb ws'
        rw [hx, hx]
        cases x with
        | error e => exact .refused ⟨stale', hR⟩
        | ok ws₁ =>
          refine ih ⟨rfl, rfl, rfl, ?_, hR⟩
          exact hkeep hq (by simpa using hd) (hx cb user)

end Turns

variable {ws ws' : WsRx} {user : κ} {user' : κ'} {buf stale : List Byte}

theorem parseWs_agree (hcalls : CallsKeep R cb cb') (hq : ws.Quiet) (hR : R user user' stale) :
    Agree (fun t t' => t'.1 = t.1 ∧ t.1.Quiet ∧ Somewhere R t.2 t'.2) (Somewhere R)
      (parseOver odd env cb ws user buf stale) (parseOver odd env cb' ws user' buf stale) :=
  (parseLoop_agree hcalls _ ⟨rfl, rfl, rfl, hq, hR⟩).map fun _ _ htwin =>
    ⟨htwin.ws, htwin.quiet, _, htwin.users⟩

/-- The same over a list of reads, for users whose relation does not depend on the memory. -/
theorem readsOver_agree {R : κ → κ' → Prop} (hcalls : CallsKeep (fun u u' _ => R u u') cb cb')
    (hq : ws.Quiet) (hR : R user user') (reads : List (List Byte × List Byte)) :
    Agree (fun t t' => t'.1 = t.1 ∧ t.1.Quiet ∧ R t.2 t'.2) R
      (readsOver odd env cb (ws, user) reads) (readsOver odd env cb' (ws, user') reads) := by
  induction reads generalizing ws user user' with
  | nil => exact .ok ⟨rfl, hq, hR⟩
  | cons read reads ih =>
    rw [readsOver, readsOver, List.foldlM_cons, List.foldlM_cons]
    have hread := @parseWs_agree _ _ _ _ _ cb cb' odd env ws user user' read.1 read.2 hcalls hq hR
    generalize parseOver odd env cb ws user read.1 read.2 = x at hread ⊢
    generalize parseOver odd env cb' ws user' read.1 read.2 = y at hread ⊢
    cases hread with
    | refused h =>
      obtain ⟨-, hR'⟩ := h
      exact .refused hR'
    | failed => exact .failed
    | @ok t t' h =>
      obtain ⟨ws₁, user₁⟩ := t
      obtain ⟨ws₁', user₁'⟩ := t'
      obtain ⟨rfl, hq₁, -, hR₁⟩ := h
      exact ih hq₁ hR₁

section Stricter

/-- Where the second leaves no odd bytes, the first leaves none. -/
def OddBytes.Stricter (odd odd' : OddBytes) : Prop := ∀ ws n, odd' ws n = 0 → odd ws n = 0

theorem OddBytes.const_zero_stricter (odd : OddBytes) : (OddBytes.const 0).Stricter odd :=
  fun _ _ _ => rfl

/-- Two outcomes that are one, or the first is the refusal of a text that ends inside
a character. -/
inductive SameOrPartial : Except (Stop κ φ) α → Except (Stop κ φ) α → Prop
  | same (x : Except (Stop κ φ) α) : SameOrPartial x x
  | cut {ws : WsRx} {user : κ} {y : Except (Stop κ φ) α} :
      SameOrPartial (.error (.refused .partialUtf8 ws user)) y

variable {x y : Except (Stop κ φ) α} {odd' : OddBytes}

theorem SameOrPartial.eq_of_ok {a : α} (h : SameOrPartial x y) (hx : x = .ok a) : y = .ok a := by
  cases h with
  | same => exact hx
  | cut => cases hx

theorem SameOrPartial.bind {f g : α → Except (Stop κ φ) β} (h : SameOrPartial x y)
    (hfg : ∀ a, SameOrPartial (f a) (g a)) : SameOrPartial (x.bind f) (y.bind g) := by
  cases h with
  | cut => exact .cut
  | same =>
    cases x with
    | error e => exact .same _
    | ok a => exact hfg a

theorem checkPayload_stricter {n n' : Nat} (h : n' = 0 → n = 0) (ws : WsRx) (p : List Byte) :
    checkPayload n ws p = checkPayload n' ws p ∨
      ∃ ws', checkPayload n ws p = .error (.partialUtf8, ws') := by
  by_cases hz : n = 0 ↔ n' = 0
  · simp only [checkPayload, hz, true_or]
  · -- Only the check of the last character can tell the two apart.
    have hn : n = 0 := by tauto
    rw [checkPayload, checkPayload]
    cases hc : ws.checkUtf8 with
    | false => exact .inl rfl
    | true =>
      cases hu : lwsCheckUtf8 ws.utf8 p with
      | none => exact .inl rfl
      | some u =>
        by_cases hp : ws.rxPacketLength = 0 ∧ ws.final ∧ u ≠ 0
        · simp only [if_true, if_pos (show _ ∧ _ ∧ _ ∧ _ from ⟨hp.1, hp.2.1, hp.2.2, hn⟩)]
          exact .inr ⟨_, rfl⟩
        · refine .inl ?_
          have hnot : ∀ m : Nat, ¬ (ws.rxPacketLength = 0 ∧ ws.final ∧ u ≠ 0 ∧ m = 0) :=
            fun m hm => hp ⟨hm.1, hm.2.1, hm.2.2.1⟩
          simp only [if_true, if_neg (hnot _)]

variable (h : odd.Stricter odd')
include h

theorem frameRest_stricter (r : Reading κ) :
    SameOrPartial (lwsWsFrameRestIsPayload odd env cb r)
      (lwsWsFrameRestIsPayload odd' env cb r) := by
  simp only [lwsWsFrameRestIsPayload]
  generalize min (min rxBufferSize r.ws.rxPacketLength) r.buf.length = n
  by_cases hz : n = 0
  · rw [if_pos hz, if_pos hz]
    exact .same _
  · rw [if_neg hz, if_neg hz]
    rcases checkPayload_stricter (h r.ws n) (r.ws.consume n) (r.ws.unmask (r.buf.take n)) with
      hsame | ⟨ws', hcut⟩
    · rw [hsame]
      exact .same _
    · rw [hcut]
      exact .cut

theorem bulkLoop_stricter (fuel : Nat) (r : Reading κ) :
    SameOrPartial (bulkLoop odd env cb fuel r) (bulkLoop odd' env cb fuel r) := by
  induction fuel generalizing r with
  | zero => exact .same _
  | succ fuel ih =>
    rw [bulkLoop, bulkLoop]
    by_cases hmore : (r.ws.inData && r.buf != []) = true
    · rw [if_pos hmore, if_pos hmore]
      have hpiece := @frameRest_stricter _ _ cb odd env odd' h r
      generalize lwsWsFrameRestIsPayload odd env cb r = x at hpiece ⊢
      generalize lwsWsFrameRestIsPayload odd' env cb r = y at hpiece ⊢
      cases hpiece with
      | cut => exact .cut
      | same =>
        rcases x with e | _ | r'
        · exact .same _
        · exact .same _
        · exact ih r'
    · rw [if_neg hmore, if_neg hmore]
      exact .same _

theorem parseLoop_stricter (fuel : Nat) (r : Reading κ) :
    SameOrPartial (parseLoop odd env cb fuel r) (parseLoop odd' env cb fuel r) := by
  induction fuel generalizing r with
  | zero => exact .same _
  | succ fuel ih =>
    obtain ⟨ws, user, buf, stale⟩ := r
    cases buf with
    | nil => exact .same _
    | cons c rest =>
      simp only [parseLoop]
      by_cases hd : ws.inData = true
      · rw [if_pos hd, if_pos hd]
        have hbulk := @bulkLoop_stricter _ _ cb odd env odd' h ((c :: rest).length + 1)
          ⟨ws, user, c :: rest, stale⟩
        generalize bulkLoop odd env cb _ _ = x at hbulk ⊢
        generalize bulkLoop odd' env cb _ _ = y at hbulk ⊢
        cases hbulk with
        | cut => exact .cut
        | same =>
          cases x with
          | error e => exact .same _
          | ok r₁ =>
            simp only
            cases lwsWsRxSm env cb true true r₁.ws r₁.user 0 with
            | error e => exact .same _
            | ok t => exact ih _
      · rw [if_neg hd, if_neg hd]
        cases lwsWsRxSm env cb false false ws user c with
        | error e => exact .same _
        | ok t => exact ih _

/-- A receiver that finds fewer odd bytes differs in the texts that it refuses only. -/
theorem readsOver_stricter (t : WsRx × κ) (reads : List (List Byte × List Byte)) :
    SameOrPartial (readsOver odd env cb t reads) (readsOver odd' env cb t reads) := by
  induction reads generalizing t with
  | nil => exact .same _
  | cons read reads ih =>
    rw [readsOver, readsOver, List.foldlM_cons, List.foldlM_cons]
    refine SameOrPartial.bind ?_ ih
    exact (parseLoop_stricter h _ _).bind fun r => .same _

end Stricter

end Comlink
