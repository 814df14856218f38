import Comlink.Ws.Simulation

/-! Packets of a client in one read. The handler splits the library's read buffer in
place, and runs on behind its payload, into the frames that have not been parsed yet. -/

namespace Comlink

open CText WireBytes

variable {κ : Type}

/-- The handler as the receiver calls it, with what is to be kept of a call. A buffer without
a NUL is read past its end. -/
def onReceive (stack : Stack) (ndebug : Bool) (system : SystemResult)
    (note : κ → RxBuffer → Option κ) : Callback κ (Option Fault) :=
  fun user p behind =>
    if h : 0 ∈ behind then
      match receiveIn stack ndebug system ⟨p, behind, h⟩ with
      | .error fault => .error (some fault)
      | .ok (_, mem') =>
        match note user ⟨p, behind, h⟩ with
        | none => .error none
        | some user' => .ok (user', mem'.drop p.length)
    else .error none

theorem onReceive_ok {stack : Stack} {ndebug : Bool} {system : SystemResult}
    {note : κ → RxBuffer → Option κ} {user user' : κ} {p behind behind' : List Byte}
    (h : onReceive stack ndebug system note user p behind = .ok (user', behind')) :
    ∃ (hz : 0 ∈ behind), note user ⟨p, behind, hz⟩ = some user' ∧
      behind' = (cut comma false (p ++ behind)).drop p.length := by
  rw [onReceive] at h
  split_ifs at h with hz
  cases hr : receiveIn stack ndebug system ⟨p, behind, hz⟩ with
  | error fault => simp [hr] at h
  | ok result =>
    obtain ⟨out, mem'⟩ := result
    have hmem : mem' = cut comma false (p ++ behind) := mem_of_receive (receiveIn_eq_ok_iff.mp hr).1
    subst hmem
    simp only [hr] at h
    cases hn : note user ⟨p, behind, hz⟩ with
    | none => simp [hn] at h
    | some next =>
      simp only [hn] at h
      obtain ⟨rfl, rfl⟩ := Prod.mk.inj (Except.ok.inj h)
      exact ⟨hz, hn, rfl⟩

section Struck

/-- Memory in which delimiters have been overwritten. -/
def Struck (a b : List Byte) : Prop := List.Forall₂ (fun x y => y = x ∨ x = comma ∧ y = 0) a b

theorem Struck.refl (a : List Byte) : Struck a a := List.forall₂_same.mpr fun _ _ => Or.inl rfl

theorem Struck.trans {a b c : List Byte} (hab : Struck a b) (hbc : Struck b c) : Struck a c := by
  induction hab generalizing c with
  | nil => exact hbc
  | cons hxy _ ih =>
    cases hbc with
    | cons hyz hbc =>
      refine .cons ?_ (ih hbc)
      rcases hxy with rfl | ⟨rfl, rfl⟩
      · exact hyz
      · rcases hyz with rfl | ⟨h, -⟩
        · exact Or.inr ⟨rfl, rfl⟩
        · exact absurd h comma_ne_zero.symm

theorem Struck.length_eq {a b : List Byte} (h : Struck a b) : b.length = a.length :=
  (List.Forall₂.length_eq h).symm

/-- What has been overwritten does not come back. -/
theorem Struck.eq_of_struck {a b : List Byte} (hab : Struck a b) (hba : Struck b a) : b = a := by
  induction hab with
  | nil => rfl
  | cons hxy _ ih =>
    cases hba with
    | cons hyx hba =>
      rw [ih hba]
      rcases hxy with rfl | ⟨rfl, rfl⟩
      · rfl
      · rcases hyx with h | ⟨h, -⟩
        · rw [h]
        · exact absurd h comma_ne_zero.symm

theorem struck_append {a b c : List Byte} (h : Struck (a ++ b) c) :
    ∃ c₁ c₂, c = c₁ ++ c₂ ∧ Struck a c₁ ∧ Struck b c₂ := by
  induction a generalizing c with
  | nil => exact ⟨[], c, rfl, .nil, h⟩
  | cons x a ih =>
    cases h with
    | cons hxy h =>
      obtain ⟨c₁, c₂, rfl, h₁, h₂⟩ := ih h
      exact ⟨_ :: c₁, c₂, rfl, .cons hxy h₁, h₂⟩

theorem Struck.zero_mem {a b : List Byte} (h : Struck a b) (hz : 0 ∈ a) : 0 ∈ b := by
  induction h with
  | nil => exact hz
  | cons hxy _ ih =>
    rcases List.mem_cons.mp hz with rfl | hz
    · rcases hxy with rfl | ⟨h, -⟩
      · exact List.mem_cons_self ..
      · exact absurd h.symm comma_ne_zero
    · exact List.mem_cons_of_mem _ (ih hz)

theorem cut_struck (inToken : Bool) (mem : List Byte) : Struck mem (cut comma inToken mem) := by
  induction mem generalizing inToken with
  | nil => exact .nil
  | cons c mem ih =>
    rw [cut]
    by_cases h0 : c = 0
    · rw [if_pos h0]
      exact .refl _
    · rw [if_neg h0]
      by_cases hc : c = comma
      · rw [if_pos hc]
        refine .cons ?_ (ih false)
        cases inToken <;> simp [hc]
      · rw [if_neg hc]
        exact .cons (Or.inl rfl) (ih true)

/-- Inside of a token every delimiter up to the NUL is overwritten. -/
theorem cut_eq_self_iff (mem : List Byte) : cut comma true mem = mem ↔ comma ∉ cstr mem := by
  induction mem with
  | nil => simp [cut, cstr]
  | cons c mem ih =>
    by_cases h0 : c = 0
    · simp [cut, cstr, h0]
    · by_cases hc : c = comma
      · simp [cut, cstr, hc, comma_ne_zero, comma_ne_zero.symm]
      · simp [cut, cstr, h0, hc, ih, Ne.symm hc]

end Struck

section Client

/-- A text of at most 125 bytes, with the key its sender masks it with. -/
structure ClientText where
  key : Fin 4 → Byte
  text : List Byte
  short : text.length < 126

def ClientText.frame (t : ClientText) : Frame := clientFrame t.key t.text t.short

def ClientText.encode (t : ClientText) : List Byte := t.frame.encode

theorem clientText_encode (t : ClientText) :
    t.encode = 0x81 :: lenByte true t.text.length ::
      t.key 0 :: t.key 1 :: t.key 2 :: t.key 3 :: maskFrom (maskKey t.key) 0 t.text := by
  have hheader : headerByte true false .text = 0x81 := by decide
  simp [ClientText.encode, ClientText.frame, clientFrame, Frame.encode, Frame.head, hheader,
    LengthForm.bytes, keyBytes, maskWith]

theorem lenByte_ne (n : Nat) : lenByte true n ≠ comma ∧ lenByte true n ≠ 0 :=
  forall_byte (P := fun b => b ||| 0x80 ≠ comma ∧ b ||| 0x80 ≠ 0) (by decide +kernel) _

theorem eq_of_kept {x y : Byte} (hx : x ≠ comma) (h : y = x ∨ x = comma ∧ y = 0) : y = x :=
  h.resolve_right fun h => hx h.1

/-- The header survives, so what has been overwritten is in the key or in the text. -/
theorem struck_encode {t : ClientText} {c : List Byte} (h : Struck t.encode c) :
    ∃ t' : ClientText, c = t'.encode ∧ t'.text.length = t.text.length := by
  rw [clientText_encode] at h
  cases h with
  | cons hheader h => cases h with
    | cons hlen h => cases h with
      | @cons _ k₀ _ _ _ h => cases h with
        | @cons _ k₁ _ _ _ h => cases h with
          | @cons _ k₂ _ _ _ h => cases h with
            | @cons _ k₃ _ raw _ h =>
              obtain rfl := eq_of_kept (by decide) hheader
              obtain rfl := eq_of_kept (lenByte_ne _).1 hlen
              have hraw : raw.length = t.text.length := by
                rw [Struck.length_eq h, length_maskFrom]
              refine ⟨⟨![k₀, k₁, k₂, k₃], maskFrom (maskKey ![k₀, k₁, k₂, k₃]) 0 raw, ?_⟩, ?_, ?_⟩
              · rw [length_maskFrom, hraw]
                exact t.short
              · rw [clientText_encode]
                simp [hraw]
              · simp [hraw]

theorem key_eq_of_kept {x k k' : Byte} (hx : x ≠ 0) (hk : k' = k ∨ k = comma ∧ k' = 0)
    (hr : x ^^^ k' = x ^^^ k ∨ x ^^^ k = comma ∧ x ^^^ k' = 0) : k' = k := by
  rcases hk with hk | ⟨rfl, rfl⟩
  · exact hk
  · rcases hr with h | ⟨-, h⟩
    · exact UInt8.xor_right_inj x |>.mp h
    · exact absurd (by simpa using h) hx

theorem ClientText.encode_eq_of_text {t t' : ClientText} (hlen : 4 ≤ t.text.length)
    (hz : 0 ∉ t.text) (hs : Struck t.encode t'.encode) (ht : t'.text = t.text) :
    t'.encode = t.encode := by
  obtain ⟨a, b, c, d, l, hl⟩ : ∃ a b c d l, t.text = a :: b :: c :: d :: l := by
    match h : t.text, hlen with
    | a :: b :: c :: d :: l, _ => exact ⟨a, b, c, d, l, rfl⟩
  have hraw := clientText_encode t
  have hraw' := clientText_encode t'
  rw [ht] at hraw'
  rw [hraw, hraw'] at hs
  have hkey : t'.key = t.key := by
    rw [hl] at hs hz
    simp only [maskFrom, Struck, List.forall₂_cons, List.mem_cons, not_or] at hs hz
    obtain ⟨-, -, hk₀, hk₁, hk₂, hk₃, hr₀, hr₁, hr₂, hr₃, -⟩ := hs
    obtain ⟨ha, hb, hc, hd, -⟩ := hz
    funext i
    fin_cases i
    · exact key_eq_of_kept (Ne.symm ha) hk₀ hr₀
    · exact key_eq_of_kept (Ne.symm hb) hk₁ hr₁
    · exact key_eq_of_kept (Ne.symm hc) hk₂ hr₂
    · exact key_eq_of_kept (Ne.symm hd) hk₃ hr₃
  rw [hraw, hraw', hkey]

end Client

section Behind

theorem behind_struck (p bytes stale : List Byte) :
    ∃ bytes' stale', (cut comma false (p ++ (bytes ++ stale))).drop p.length = bytes' ++ stale' ∧
      Struck bytes bytes' ∧ Struck stale stale' := by
  obtain ⟨p', rest, hcut, hp, hrest⟩ := struck_append (cut_struck false (p ++ (bytes ++ stale)))
  obtain ⟨bytes', stale', rfl, hbytes, hstale⟩ := struck_append hrest
  refine ⟨bytes', stale', ?_, hbytes, hstale⟩
  rw [hcut, ← hp.length_eq, List.drop_left]

theorem behind_take {p : List Byte} (hp : 0 ∉ p) (bytes stale : List Byte) :
    ∃ inToken, ((cut comma false (p ++ (bytes ++ stale))).drop p.length).take bytes.length =
      cut comma inToken bytes := by
  obtain ⟨inToken, hcut⟩ := @cut_append_of_notMem comma p hp false (bytes ++ stale)
  refine ⟨inToken, ?_⟩
  have hlen := @length_cut comma inToken bytes
  rw [hcut, ← @length_cut comma false p, List.drop_left]
  by_cases hz : 0 ∈ bytes
  · rw [cut_append_of_mem hz, ← hlen, List.take_left]
  · obtain ⟨inToken', hcut'⟩ := @cut_append_of_notMem comma bytes hz inToken stale
    rw [hcut', ← hlen, List.take_left]

/-- The first byte of a frame begins a token. -/
theorem cut_encodes (inToken : Bool) (texts : List ClientText) :
    cut comma inToken (texts.flatMap ClientText.encode) = texts.flatMap ClientText.encode ↔
      comma ∉ cstr (texts.flatMap ClientText.encode) := by
  cases texts with
  | nil => simp [cut, cstr]
  | cons t texts =>
    rw [List.flatMap_cons, clientText_encode, List.cons_append]
    generalize lenByte true t.text.length :: _ ++ texts.flatMap ClientText.encode = mem
    have hfirst : (0x81 : Byte) ≠ 0 ∧ (0x81 : Byte) ≠ comma := by decide
    rw [cut, if_neg hfirst.1, if_neg hfirst.2, List.cons_inj_right, cut_eq_self_iff]
    simp [cstr, hfirst.2.symm]

end Behind

section Reads

def keepText (calls : List (List Byte)) (rx : RxBuffer) : Option (List (List Byte)) :=
  some (calls ++ [rx.payload])

variable {stack : Stack} {ndebug : Bool} {system : SystemResult} {odd : OddBytes} {env : RxEnv}
  {ws ws' : WsRx} {calls calls' : List (List Byte)} {bytes stale : List Byte}

theorem calls_grow (hq : ws.Quiet)
    (h : settled (parseOver odd env (onReceive stack ndebug system keepText) ws calls bytes stale) =
      .ok (ws', calls')) :
    calls <+: calls' := by
  have hagree := @parseWs_agree _ _ _ _ (fun u u' _ => u' = u ∧ calls <+: u)
    (onReceive stack ndebug system keepText) (onReceive stack ndebug system keepText) odd env
    ws calls calls bytes stale ?_ hq ⟨rfl, List.prefix_rfl⟩
  · generalize parseOver odd env (onReceive stack ndebug system keepText) ws calls bytes stale =
      x at hagree h
    cases hagree with
    | refused _ => simp [settled, Except.map] at h
    | failed => simp [settled, Except.map] at h
    | ok hok =>
      obtain ⟨-, -, -, -, hgrow⟩ := hok
      obtain ⟨-, rfl⟩ := Prod.mk.inj (Except.ok.inj h)
      exact hgrow
  · rintro u u' p rest stale next behind ⟨rfl, hgrow⟩ - - hcall
    refine ⟨next, hcall, rfl, ?_⟩
    obtain ⟨hz, hnote, -⟩ := onReceive_ok hcall
    rw [← Option.some.inj hnote]
    exact hgrow.trans (List.prefix_append _ _)

theorem client_step (hb : ws.Boundary) (hpre : env.preClose = false)
    (hfrag : ws.continuationPossible = false) {t : ClientText} (hne : t.text ≠ [])
    (h : settled (parseOver odd env (onReceive stack ndebug system keepText) ws calls
      (t.encode ++ bytes) stale) = .ok (ws', calls')) :
    ∃ ws₁ : WsRx, ws₁.Boundary ∧ ws₁.continuationPossible = false ∧
      settled (parseOver odd env (onReceive stack ndebug system keepText) ws₁ (calls ++ [t.text])
        (((cut comma false (t.text ++ (bytes ++ stale))).drop t.text.length).take bytes.length)
        (((cut comma false (t.text ++ (bytes ++ stale))).drop t.text.length).drop bytes.length)) =
      .ok (ws', calls') := by
  have hc : t.frame.opcode.isControl = false := show Opcode.text.isControl = false by decide
  have hallow : ws.Allows t.frame.fin t.frame.opcode := (allows_data hb hc).mpr hfrag
  have hlen : t.frame.payload.length ≤ rxBufferSize := t.short.le.trans (by decide)
  obtain ⟨s, hstep⟩ := step_of_parseWs hb hpre hc hallow hne hlen rfl h
  obtain ⟨-, u, -, hs⟩ := data_of_step hb hc hne hstep
  obtain ⟨ws₁, hb₁, hsession, hrun⟩ := parseWs_dataFrame hb hpre hc hne hlen rfl hstep
  refine ⟨ws₁, hb₁, ?_, ?_⟩
  · have : (ws₁.session true).fragmented = false := by
      rw [hsession, hs]
      rfl
    exact this
  · change settled (parseOver odd env _ ws calls (t.frame.encode ++ bytes) stale) = _ at h
    rw [hrun] at h
    cases hcall : onReceive stack ndebug system keepText calls t.frame.payload (bytes ++ stale) with
    | error e => simp [hcall] at h
    | ok result =>
      obtain ⟨next, behind⟩ := result
      obtain ⟨hz, hnote, rfl⟩ := onReceive_ok hcall
      obtain rfl := Option.some.inj hnote
      rw [hcall] at h
      exact h

/-- Texts that arrive as they were sent were not overwritten, and the handler finds no
delimiter to overwrite behind any of them. -/
theorem intact_of_calls (hpre : env.preClose = false) {texts : List ClientText}
    (htexts : ∀ t ∈ texts, 4 ≤ t.text.length ∧ 0 ∉ t.text) (hb : ws.Boundary)
    (hfrag : ws.continuationPossible = false)
    (hs : Struck (texts.flatMap ClientText.encode) bytes)
    (h : settled (parseOver odd env (onReceive stack ndebug system keepText) ws calls bytes stale) =
      .ok (ws', calls ++ texts.map ClientText.text)) :
    bytes = texts.flatMap ClientText.encode ∧
      ∀ rest, rest <:+ texts.tail → comma ∉ cstr (rest.flatMap ClientText.encode) := by
  induction texts generalizing ws calls bytes stale with
  | nil =>
    cases hs
    refine ⟨rfl, fun rest hrest => ?_⟩
    rw [List.suffix_nil.mp hrest]
    simp [cstr]
  | cons t texts ih =>
    obtain ⟨hlen, hz⟩ := htexts t (List.mem_cons_self ..)
    rw [List.flatMap_cons] at hs
    obtain ⟨front, bytes, rfl, hfront, hbytes⟩ := struck_append hs
    obtain ⟨t', rfl, hlen'⟩ := struck_encode hfront
    have hne : t'.text ≠ [] := fun hnil => by simp [hnil] at hlen'; omega
    obtain ⟨ws₁, hb₁, hfrag₁, hrun⟩ := client_step hb hpre hfrag hne h
    -- The calls only grow, so the first of them is that of the first text.
    obtain ⟨later, hlater⟩ := calls_grow hb₁.quiet hrun
    have htext : t'.text = t.text := by
      rw [List.append_assoc, List.append_cancel_left_eq] at hlater
      exact (List.cons.inj hlater).1
    rw [htext] at hrun
    obtain ⟨inToken, htake⟩ := behind_take hz bytes stale
    obtain ⟨bytes', stale', hbehind, hbytes', hstale'⟩ := behind_struck t.text bytes stale
    have htake' : bytes' = cut comma inToken bytes := by
      rw [← htake, hbehind, ← hbytes'.length_eq, List.take_left]
    rw [hbehind, ← hbytes'.length_eq, List.take_left, List.drop_left] at hrun
    rw [List.map_cons, List.append_cons calls t.text (texts.map ClientText.text)] at hrun
    obtain ⟨hsame, hrest⟩ := ih (fun t ht => htexts t (List.mem_cons_of_mem _ ht)) hb₁ hfrag₁
      (hbytes.trans hbytes') hrun
    have hback : bytes = texts.flatMap ClientText.encode := by
      rw [hsame] at hbytes'
      exact hbytes.eq_of_struck hbytes'
    refine ⟨?_, fun rest hsuffix => ?_⟩
    · rw [List.flatMap_cons, ClientText.encode_eq_of_text hlen hz hfront htext, hback]
    · have hcases : rest = texts ∨ rest <:+ texts.tail := by
        cases texts with
        | nil => exact Or.inl (List.suffix_nil.mp hsuffix)
        | cons _ _ => exact List.suffix_cons_iff.mp hsuffix
      rcases hcases with rfl | hrest'
      · rw [← cut_encodes inToken, ← hback, ← htake', hsame, hback]
      · exact hrest rest hrest'

theorem calls_of_intact (hpre : env.preClose = false) {texts : List ClientText}
    (htexts : ∀ t ∈ texts, 4 ≤ t.text.length ∧ 0 ∉ t.text) (hb : ws.Boundary)
    (hfrag : ws.continuationPossible = false)
    (hclean : ∀ rest, rest <:+ texts.tail → comma ∉ cstr (rest.flatMap ClientText.encode))
    (h : settled (parseOver odd env (onReceive stack ndebug system keepText) ws calls
      (texts.flatMap ClientText.encode) stale) = .ok (ws', calls')) :
    calls' = calls ++ texts.map ClientText.text := by
  induction texts generalizing ws calls stale with
  | nil =>
    obtain ⟨-, rfl⟩ := Prod.mk.inj (Except.ok.inj h)
    simp
  | cons t texts ih =>
    obtain ⟨hlen, hz⟩ := htexts t (List.mem_cons_self ..)
    have hne : t.text ≠ [] := fun hnil => by simp [hnil] at hlen
    rw [List.flatMap_cons] at h
    obtain ⟨ws₁, hb₁, hfrag₁, hrun⟩ := client_step hb hpre hfrag hne h
    obtain ⟨inToken, htake⟩ := behind_take hz (texts.flatMap ClientText.encode) stale
    rw [htake, (cut_encodes inToken texts).mpr (hclean texts List.suffix_rfl)] at hrun
    rw [ih (fun t ht => htexts t (List.mem_cons_of_mem _ ht)) hb₁ hfrag₁
      (fun rest hrest => hclean rest (hrest.trans (List.tail_suffix _))) hrun]
    simp

end Reads

/-- Packets that share a read, which the library parses to its end: the handler gets the
texts that were sent exactly if no comma stands between the end of one of them and the next
NUL in the frames behind it. The key of a frame is as good a place for one as its text. -/
theorem pipelined_intact_iff {stack : Stack} {ndebug : Bool} {system : SystemResult} {env : RxEnv}
    (hpre : env.preClose = false) {ws ws' : WsRx} (hb : ws.Boundary)
    (hfrag : ws.continuationPossible = false) {texts : List ClientText} (htexts : ∀ t ∈ texts, 4 ≤ t.text.length ∧ 0 ∉ t.text)
    {stale : List Byte} {calls : List (List Byte)}
    (h : lwsParseWs env (onReceive stack ndebug system keepText) ws []
      (texts.flatMap ClientText.encode) stale = .ok (ws', calls)) :
    calls = texts.map ClientText.text ↔
      ∀ rest, rest <:+ texts.tail → comma ∉ cstr (rest.flatMap ClientText.encode) := by
  have hsettled : settled (parseOver WsRx.oddBytes env (onReceive stack ndebug system keepText)
      ws [] (texts.flatMap ClientText.encode) stale) = .ok (ws'.settle, calls) := by
    rw [show parseOver WsRx.oddBytes env _ ws _ _ _ = _ from h]
    rfl
  constructor
  · rintro rfl
    exact (intact_of_calls hpre htexts hb hfrag (.refl _) hsettled).2
  · intro hclean
    exact calls_of_intact hpre htexts hb hfrag hclean hsettled

def packetPair (key : Fin 4 → Byte) : List ClientText :=
  [⟨![1, 2, 3, 4], lit "45,PIT905,01,000", by decide⟩, ⟨key, lit "46,PIT905,01,000", by decide⟩]

theorem pipelined_comma_in_key :
    ∃ ws' calls, lwsParseWs ⟨true, false, false⟩ (onReceive .zero true statusZero keepText) .init []
        ((packetPair ![1, 2, 44, 4]).flatMap ClientText.encode) [0] = .ok (ws', calls) ∧
      calls ≠ (packetPair ![1, 2, 44, 4]).map ClientText.text := by
  have hok : (lwsParseWs ⟨true, false, false⟩ (onReceive .zero true statusZero keepText) .init []
      ((packetPair ![1, 2, 44, 4]).flatMap ClientText.encode) [0]).isOk = true := by decide +kernel
  cases hrun : lwsParseWs ⟨true, false, false⟩ (onReceive .zero true statusZero keepText) .init []
      ((packetPair ![1, 2, 44, 4]).flatMap ClientText.encode) [0] with
  | error e => simp [hrun, Except.isOk, Except.toBool] at hok
  | ok result =>
    refine ⟨result.1, result.2, rfl, fun h => ?_⟩
    exact (pipelined_intact_iff rfl init_boundary rfl (by decide) hrun).mp h _ List.suffix_rfl
      (by decide)

end Comlink
