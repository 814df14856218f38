import Comlink.Receive

/-! The tokens that the handler reads and the fields of the packet. `strtok`
merges delimiters, so the two differ where a field is empty. -/

namespace Comlink

open CText

/-- Whenever `str_split` returns on the text `p`, a first token is there to be
read; and if the packet is accepted, the two tokens that the handler uses are
the first two fields of `p`. -/
def ReadsByPosition (ndebug : Bool) (p : List Byte) : Prop :=
  ∀ tokens mem', strSplit ndebug (bufferData p) comma = .ok (tokens, mem') →
    ∃ first, tokens[0]? = some first ∧
      (isCRCValid (atoi first) (bufferData p) = true →
        ∃ second out, tokens[1]? = some second ∧
          (p.splitOn comma)[0]? = some first ∧ (p.splitOn comma)[1]? = some second ∧
          (∀ system : SystemResult, (∀ command ∈ out.commands, system command = 0) →
            receive ndebug system (.ofText p) = .ok (out, mem')) ∧
          out.packetNumber = atoi first ∧ out.reply = getACK (atoi first) ∧
          out.key = some (second ++ lit "_PACKET"))

def FirstTwoFilled (p : List Byte) : Prop :=
  ∃ first second rest, p.splitOn comma = first :: second :: rest ∧ first ≠ [] ∧ second ≠ []

theorem firstTwoFilled_of_tokens {p first second : List Byte}
    (h0 : (nonEmptyFields comma p)[0]? = some first)
    (h1 : (nonEmptyFields comma p)[1]? = some second)
    (f0 : (p.splitOn comma)[0]? = some first) (f1 : (p.splitOn comma)[1]? = some second) :
    FirstTwoFilled p := by
  have hn0 := ne_nil_of_mem_nonEmptyFields (List.mem_of_getElem? h0)
  have hn1 := ne_nil_of_mem_nonEmptyFields (List.mem_of_getElem? h1)
  match he : p.splitOn comma with
  | [] => simp [he] at f0
  | [f] => simp [he] at f1
  | f :: g :: rest =>
    simp only [he, List.getElem?_cons_zero, List.getElem?_cons_succ, Option.some.injEq] at f0 f1
    exact ⟨first, second, rest, by rw [he, f0, f1], hn0, hn1⟩

theorem nonEmptyFields_of_firstTwoFilled {p : List Byte} (hz : 0 ∉ p) {first second : List Byte}
    {rest : List (List Byte)} (he : p.splitOn comma = first :: second :: rest)
    (h0 : first ≠ []) (h1 : second ≠ []) :
    ∃ others, nonEmptyFields comma p = first :: second :: others ∧
      concat second (lit "_PACKET") = second ++ lit "_PACKET" := by
  refine ⟨rest.filter (· ≠ []), by simp [nonEmptyFields, he, h0, h1], ?_⟩
  exact concat_packet (zero_notMem_of_field hz (by simp [he]))

theorem readsByPosition_iff (ndebug : Bool) (p : List Byte) (hz : 0 ∉ p) :
    ReadsByPosition ndebug p ↔
      (ndebug = false ∧ ¬ FieldsFilled comma p) ∨
      (nonEmptyFields comma p ≠ [] ∧
        (isCRCValid (firstNumber p) (bufferData p) = true → FirstTwoFilled p)) := by
  have hsplit := strSplit_bufferData ndebug p
  rw [cstr_eq_self hz] at hsplit
  by_cases hstop : ndebug = false ∧ ¬ FieldsFilled comma p
  · rw [if_pos hstop] at hsplit
    refine ⟨fun _ => Or.inl hstop, fun _ tokens mem' ht => ?_⟩
    rw [hsplit] at ht
    cases ht
  rw [if_neg hstop] at hsplit
  constructor
  · intro h
    obtain ⟨first, hfirst, hacc⟩ := h _ _ hsplit
    refine Or.inr ⟨fun hnil => by simp [hnil] at hfirst, fun hv => ?_⟩
    obtain ⟨second, out, hsecond, f0, f1, -⟩ := hacc (firstNumber_eq hfirst ▸ hv)
    exact firstTwoFilled_of_tokens hfirst hsecond f0 f1
  · rintro (h | ⟨hne, hacc⟩) tokens mem' ht
    · exact absurd h hstop
    rw [hsplit] at ht
    simp only [Except.ok.injEq, Prod.mk.injEq] at ht
    obtain ⟨rfl, rfl⟩ := ht
    obtain ⟨first, others, hfields⟩ := List.exists_cons_of_ne_nil hne
    have hfirst : (nonEmptyFields comma p)[0]? = some first := by simp [hfields]
    refine ⟨first, hfirst, fun hv => ?_⟩
    obtain ⟨f, second, rest, he, hf0, hf1⟩ := hacc ((firstNumber_eq hfirst).symm ▸ hv)
    obtain ⟨others', hfields', hkey⟩ := nonEmptyFields_of_firstTwoFilled hz he hf0 hf1
    obtain ⟨rfl, rfl⟩ := List.cons.inj (hfields.symm.trans hfields')
    refine ⟨second, .ofRight (atoi first) (second ++ lit "_PACKET") (bufferData p),
      by simp [hfields], by simp [he], by simp [he], fun system hsystem => ?_, rfl, rfl, rfl⟩
    rw [receive_ofText, cstr_eq_self hz, if_neg hstop, hfields, handleTokens_right _ hv, hkey,
      runCommands_of_zero hsystem]
    rfl

theorem not_readsByPosition_zero :
    ¬ ReadsByPosition true (lit "0") ∧ ¬ ReadsByPosition false (lit "0") := by
  have h : ∀ ndebug, ¬ ReadsByPosition ndebug (lit "0") := by
    intro ndebug hr
    have hs : strSplit ndebug (bufferData (lit "0")) comma =
      .ok ([lit "0"], bufferData (lit "0")) := by
      cases ndebug <;> decide
    obtain ⟨first, hfirst, hacc⟩ := hr _ _ hs
    obtain rfl : lit "0" = first := by simpa using hfirst
    obtain ⟨second, out, hsecond, -⟩ := hacc (by decide)
    simp at hsecond
  exact ⟨h true, h false⟩

theorem readsByPosition_controller_packet :
    0 ∉ lit "45,PIT905,01,01,00,05,04,4,4,4,0,0,0,071" ∧
    ReadsByPosition true (lit "45,PIT905,01,01,00,05,04,4,4,4,0,0,0,071") ∧
    ReadsByPosition false (lit "45,PIT905,01,01,00,05,04,4,4,4,0,0,0,071") := by
  have hz : 0 ∉ lit "45,PIT905,01,01,00,05,04,4,4,4,0,0,0,071" := by decide
  have hf : FirstTwoFilled (lit "45,PIT905,01,01,00,05,04,4,4,4,0,0,0,071") :=
    ⟨lit "45", lit "PIT905", (lit "01,01,00,05,04,4,4,4,0,0,0,071").splitOn comma,
      by decide, by decide, by decide⟩
  exact ⟨hz, (readsByPosition_iff true _ hz).mpr (Or.inr ⟨by decide, fun _ => hf⟩),
    (readsByPosition_iff false _ hz).mpr (Or.inr ⟨by decide, fun _ => hf⟩)⟩

end Comlink
