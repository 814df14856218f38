import Comlink.Receive

/-! Two buffers with the same payload. The split runs on the library's buffer,
which has no terminator behind the payload, so the following bytes matter. -/

namespace Comlink

open CText

/-- The handler depends on the payload alone and leaves what follows it alone. -/
def PayloadOnly (ndebug : Bool) (m : List Byte) : Prop :=
  (∀ (system : SystemResult) (rx rx' : RxBuffer), rx.payload = m → rx'.payload = m →
    (receive ndebug system rx).map Prod.fst = (receive ndebug system rx').map Prod.fst) ∧
  ∀ (system : SystemResult) (rx : RxBuffer) (out : Received) (mem' : List Byte), rx.payload = m →
    receive ndebug system rx = .ok (out, mem') → mem'.drop m.length = rx.after

theorem payloadOnly_of_zero_mem (ndebug : Bool) {m : List Byte} (h : 0 ∈ m) :
    PayloadOnly ndebug m := by
  have hs : ∀ rx : RxBuffer, rx.payload = m → cstr rx.mem = cstr m := by
    intro rx hrx
    rw [RxBuffer.mem, hrx, cstr_append_of_mem h]
  constructor
  · intro system rx rx' hrx hrx'
    rw [receive_eq, receive_eq, hs rx hrx, hs rx' hrx', hrx, hrx']
    split_ifs
    · rfl
    · cases handleTokens system (nonEmptyFields comma (cstr m)) (bufferData m) <;> rfl
  · intro system rx out mem' hrx hr
    rw [mem_of_receive hr, RxBuffer.mem, hrx, cut_append_of_mem h, ← length_cut false m,
      List.drop_left]

theorem not_fieldsFilled_append {m : List Byte} (h : [] ∈ (m.splitOn comma).dropLast)
    (t : List Byte) : ¬ FieldsFilled comma (m ++ t) := by
  intro hf
  by_cases hc : comma ∈ m
  · obtain ⟨u, v, rfl, hv⟩ := exists_split_last hc
    rw [splitOn_append_last hv, List.dropLast_concat] at h
    refine hf.2 [] ?_ rfl
    have hne : (v ++ t).splitOn comma ≠ [] := List.splitOnP_ne_nil _ _
    rw [List.append_assoc, List.cons_append, splitOn_append_cons_eq,
      List.dropLast_append_of_ne_nil hne]
    exact List.mem_append_left _ h
  · simp [splitOn_of_notMem hc] at h

theorem payloadOnly_of_assertion {m : List Byte} (h : [] ∈ (m.splitOn comma).dropLast) :
    PayloadOnly false m := by
  by_cases hz : 0 ∈ m
  · exact payloadOnly_of_zero_mem false hz
  · have he : ∀ (system : SystemResult) (rx : RxBuffer), rx.payload = m →
        receive false system rx = .error .assertion := by
      intro system rx hrx
      rw [receive_eq, if_pos]
      refine ⟨rfl, ?_⟩
      rw [RxBuffer.mem, hrx, cstr_append_of_notMem hz]
      exact not_fieldsFilled_append h _
    constructor
    · intro system rx rx' hrx hrx'
      rw [he system rx hrx, he system rx' hrx']
    · intro system rx out mem' hrx hr
      rw [he system rx hrx] at hr
      cases hr

theorem fieldsFilled_probe {m : List Byte} (h : [] ∉ (m.splitOn comma).dropLast) :
    FieldsFilled comma (m ++ lit "a" ++ comma :: lit "b") := by
  refine ⟨by simp, ?_⟩
  rw [splitOn_append_last (by decide), List.dropLast_concat]
  intro f hf hnil
  subst hnil
  by_cases hc : comma ∈ m
  · obtain ⟨u, v, rfl, hv⟩ := exists_split_last hc
    rw [splitOn_append_last hv, List.dropLast_concat] at h
    have hva : comma ∉ v ++ lit "a" := fun hm => (List.mem_append.mp hm).elim hv (by decide)
    rw [List.append_assoc, List.cons_append, splitOn_append_last hva] at hf
    rcases List.mem_append.mp hf with hf | hf
    · exact h hf
    · simp [lit] at hf
  · have hva : comma ∉ m ++ lit "a" := fun hm => (List.mem_append.mp hm).elim hc (by decide)
    rw [splitOn_of_notMem hva] at hf
    simp [lit] at hf

theorem nonEmptyFields_probe (m : List Byte) :
    2 ≤ (nonEmptyFields comma (m ++ lit "a" ++ comma :: lit "b")).length := by
  have hpos : 0 < (nonEmptyFields comma (m ++ lit "a")).length := by
    by_cases hc : comma ∈ m
    · obtain ⟨u, v, rfl, hv⟩ := exists_split_last hc
      have hva : comma ∉ v ++ lit "a" := fun hm => (List.mem_append.mp hm).elim hv (by decide)
      rw [List.append_assoc, List.cons_append, nonEmptyFields_append_last hva]
      simp [lit]
    · have hva : comma ∉ m ++ lit "a" := fun hm => (List.mem_append.mp hm).elim hc (by decide)
      rw [nonEmptyFields_of_notMem hva (by simp [lit])]
      simp
  rw [nonEmptyFields_append_last (by decide), List.length_append, if_neg (by decide)]
  simp only [List.length_singleton]
  omega

theorem not_payloadOnly {ndebug : Bool} {m : List Byte} (hz : 0 ∉ m)
    (h : ndebug = false → [] ∉ (m.splitOn comma).dropLast) : ¬ PayloadOnly ndebug m := by
  intro hp
  let rx : RxBuffer := ⟨m, lit "a" ++ comma :: lit "b" ++ [0], by decide⟩
  have hs : cstr rx.mem = m ++ lit "a" ++ comma :: lit "b" := by
    have h0 : 0 ∉ m ++ (lit "a" ++ comma :: lit "b") :=
      fun hm => (List.mem_append.mp hm).elim hz (by decide)
    simpa [rx, RxBuffer.mem] using cstr_terminated h0 []
  have hnot : ¬ (ndebug = false ∧ ¬ FieldsFilled comma (cstr rx.mem)) := by
    rintro ⟨hd, hn⟩
    exact hn (hs ▸ fieldsFilled_probe (h hd))
  obtain ⟨out, hout⟩ := handleTokens_statusZero (nonEmptyFields_probe m) (bufferData m)
  have hr : receive ndebug statusZero rx = .ok (out, cut comma false rx.mem) := by
    rw [receive_eq, if_neg hnot, hs, hout]
    rfl
  have hd := hp.2 statusZero rx out _ rfl hr
  obtain ⟨b, hb⟩ := cut_append_of_notMem hz false rx.after
  rw [RxBuffer.mem, hb, ← length_cut false m, List.drop_left] at hd
  change cut comma b (lit "a" ++ comma :: lit "b" ++ [0]) = lit "a" ++ comma :: lit "b" ++ [0] at hd
  revert hd
  cases b <;> decide

/-- The handler stays within its payload exactly when the payload holds a NUL,
or when an assertion stops it on every continuation. -/
theorem payloadOnly_iff (ndebug : Bool) (m : List Byte) :
    PayloadOnly ndebug m ↔ 0 ∈ m ∨ (ndebug = false ∧ [] ∈ (m.splitOn comma).dropLast) := by
  constructor
  · intro hp
    by_contra hn
    obtain ⟨hz, hf⟩ := not_or.mp hn
    exact not_payloadOnly hz (fun hd hm => hf ⟨hd, hm⟩) hp
  · rintro (hz | ⟨rfl, hf⟩)
    · exact payloadOnly_of_zero_mem ndebug hz
    · exact payloadOnly_of_assertion hf

theorem not_payloadOnly_short_packet :
    ¬ PayloadOnly true (lit "4") ∧ ¬ PayloadOnly false (lit "4") := by
  constructor
  · intro hp
    have h := hp.1 statusZero (.ofText (lit "4")) ⟨lit "4", lit "5" ++ [0], by decide⟩ rfl rfl
    revert h
    decide
  · intro hp
    have h := hp.1 statusZero (.ofText (lit "4")) ⟨lit "4", lit "5" ++ [0], by decide⟩ rfl rfl
    revert h
    decide

end Comlink
