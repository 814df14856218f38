import Comlink.CBuffer
import Comlink.ClientChecksum
import Comlink.Decimal
import Comlink.Fields
import Comlink.Messages

/-! The replies in the arrays that the source builds them in, and their form. -/

namespace Comlink

open CText

/-- The common body of `getACK` and `getNck` with its arrays. `packetType` and
`chk_` may hold anything before; the 20 bytes of the result are zero. -/
def getReplyIn (head tail : List Byte) (packetType : Buffer 4) (chk_ : Buffer 5) (pType : Int) :
    Option (Buffer 20) := do
  let packetType ← packetType.sprintf (sprintfInt pType)
  let ack ← [head, packetType.text, lit ","].foldlM Buffer.strcat (.zero 20)
  let chk_ ← chk_.sprintf (replyChecksum ack.text)
  [chk_.text, tail].foldlM Buffer.strcat ack

def getACKIn : Buffer 4 → Buffer 5 → Int → Option (Buffer 20) :=
  getReplyIn (lit "11,") (lit ",@~!11")

def getNckIn : Buffer 4 → Buffer 5 → Int → Option (Buffer 20) :=
  getReplyIn (lit "16,") (lit ",@~!16")

theorem replyChecksum_eq (ack : List Byte) : replyChecksum ack = padded3 (byteSum ack % 256) := by
  have hlt : byteSum ack % 256 < 256 := Nat.mod_lt _ (by omega)
  rw [replyChecksum, checksum_toNat, List.take_length]
  exact padded3_eq _ hlt

theorem length_padded3 (n : Nat) : (padded3 n).length = 3 := rfl

theorem length_sprintfInt_le_three_iff (n : Int) :
    (sprintfInt n).length ≤ 3 ↔ -99 ≤ n ∧ n ≤ 999 := by
  have h := length_sprintfInt_le_iff (show 0 < 2 by omega) n
  norm_num at h
  rw [h]
  omega

theorem zero_notMem_sprintfInt (n : Int) : 0 ∉ sprintfInt n :=
  notMem_sprintfInt (by decide) (by decide) n

theorem comma_notMem_sprintfInt (n : Int) : comma ∉ sprintfInt n :=
  notMem_sprintfInt (by decide) (by decide) n

theorem zero_notMem_replyChecksum (ack : List Byte) : 0 ∉ replyChecksum ack := by
  rw [replyChecksum_eq]
  exact notMem_padded3 (by omega) (by decide)

section Reply

variable {head tail : List Byte} (hhead : 0 ∉ head) (htail : 0 ∉ tail)

include hhead htail

theorem getReply_eq (n : Int) :
    getReply head tail n = head ++ sprintfInt n ++ lit "," ++
      replyChecksum (head ++ sprintfInt n ++ lit ",") ++ tail := by
  have hcomma : cstr (lit ",") = lit "," := by decide
  simp only [getReply, strcat, cstr_eq_self hhead, cstr_eq_self htail, hcomma, List.nil_append,
    cstr_eq_self (zero_notMem_sprintfInt n), cstr_eq_self (zero_notMem_replyChecksum _)]

theorem length_getReply (n : Int) :
    (getReply head tail n).length = head.length + (sprintfInt n).length + 4 + tail.length := by
  rw [getReply_eq hhead htail, replyChecksum_eq]
  simp only [List.length_append, length_padded3]
  change head.length + (sprintfInt n).length + 1 + 3 + tail.length = _
  omega

omit htail in
theorem holds_replyBody (n : Int) :
    Buffer.Holds ([head, sprintfInt n, lit ","].foldlM Buffer.strcat (.zero 20))
      (head ++ sprintfInt n ++ lit ",") := by
  have h := Buffer.holds_zero_chain (show 0 < 20 by omega) [head, sprintfInt n, lit ","]
  have hcomma : cstr (lit ",") = lit "," := by decide
  simpa only [List.map_cons, List.map_nil, List.flatten_cons, List.flatten_nil, List.append_nil,
    cstr_eq_self hhead, cstr_eq_self (zero_notMem_sprintfInt n), hcomma, List.append_assoc] using h

theorem holds_replyEnd {ack : Buffer 20} {n : Int} (hlt : ack.text.length < 20)
    (hack : ack.text = head ++ sprintfInt n ++ lit ",") :
    Buffer.Holds ([replyChecksum ack.text, tail].foldlM Buffer.strcat ack)
      (getReply head tail n) := by
  have h := ack.holds_strcat_chain hlt [replyChecksum ack.text, tail]
  rw [getReply_eq hhead htail, ← hack]
  simpa only [List.map_cons, List.map_nil, List.flatten_cons, List.flatten_nil, List.append_nil,
    cstr_eq_self (zero_notMem_replyChecksum ack.text), cstr_eq_self htail,
      List.append_assoc] using h

/-- A number of at most three characters fits `packetType`, and then the two
other arrays are large enough. -/
theorem getReplyIn_of_le (packetType : Buffer 4) (chk_ : Buffer 5) {n : Int}
    (hn : (sprintfInt n).length ≤ 3) (hlen : head.length + tail.length ≤ 9) :
    ∃ ack, getReplyIn head tail packetType chk_ n = some ack ∧ ack.text = getReply head tail n := by
  have hnum := cstr_eq_self (zero_notMem_sprintfInt n)
  obtain ⟨p, hp, htp⟩ := (packetType.holds_sprintf (sprintfInt n)).1 (by rw [hnum]; omega)
  rw [hnum] at htp
  have hbody : (head ++ sprintfInt n ++ lit ",").length < 20 := by
    simp only [List.length_append]
    change head.length + (sprintfInt n).length + 1 < 20
    omega
  obtain ⟨ack, ha, hta⟩ := (holds_replyBody hhead n).1 hbody
  have hsum := cstr_eq_self (zero_notMem_replyChecksum ack.text)
  have hsumLen : (replyChecksum ack.text).length = 3 := by rw [replyChecksum_eq, length_padded3]
  obtain ⟨k, hk, htk⟩ := (chk_.holds_sprintf (replyChecksum ack.text)).1
    (by rw [hsum, hsumLen]; omega)
  rw [hsum] at htk
  have hend := holds_replyEnd hhead htail (by rw [hta]; exact hbody) hta
  obtain ⟨r, hr, htr⟩ := hend.1 (by rw [length_getReply hhead htail]; omega)
  refine ⟨r, ?_, htr⟩
  simp only [getReplyIn, hp, htp, ha, hk, htk, hr, Option.bind_eq_bind, Option.bind_some]

omit hhead htail in
theorem getReplyIn_of_lt (packetType : Buffer 4) (chk_ : Buffer 5) {n : Int}
    (hn : 3 < (sprintfInt n).length) : getReplyIn head tail packetType chk_ n = none := by
  have hnum := cstr_eq_self (zero_notMem_sprintfInt n)
  have hp := (packetType.holds_sprintf (sprintfInt n)).2 (by rw [hnum]; omega)
  rw [getReplyIn, hp]
  rfl

end Reply

/-- The reply code, the number, and three digits with the sum of all bytes
before them; the commas separate them again. -/
def WellFormedReply (code : List Byte) (n : Int) (reply : List Byte) : Prop :=
  ∃ c : List Byte, c.length = 3 ∧ (∀ d ∈ c, isDigit d = true) ∧
    digitsValue c = byteSum (code ++ lit "," ++ sprintfInt n ++ lit ",") % 256 ∧
    reply = code ++ lit "," ++ sprintfInt n ++ lit "," ++ c ++ lit ",@~!" ++ code ∧
    reply.splitOn comma = [code, sprintfInt n, c, lit "@~!" ++ code] ∧
    atoi (sprintfInt n) = n ∧ atoi c = digitsValue c

theorem zero_notMem_affixes {code : List Byte} (hz : 0 ∉ code) :
    0 ∉ code ++ lit "," ∧ 0 ∉ lit ",@~!" ++ code := by
  constructor
  · rw [List.mem_append, not_or]
    exact ⟨hz, by decide⟩
  · rw [List.mem_append, not_or]
    exact ⟨by decide, hz⟩

theorem splitOn_reply {code a c d : List Byte} (hcode : comma ∉ code) (ha : comma ∉ a)
    (hc : comma ∉ c) (hd : comma ∉ d) :
    (code ++ comma :: (a ++ comma :: (c ++ comma :: d))).splitOn comma = [code, a, c, d] := by
  rw [splitOn_append_cons hcode, splitOn_append_cons ha, splitOn_append_cons hc,
    splitOn_of_notMem hd]

theorem getReply_wellFormed {code : List Byte} (hz : 0 ∉ code) (hc : comma ∉ code) {n : Int}
    (hl : -2 ^ 31 ≤ n) (hu : n < 2 ^ 31) :
    WellFormedReply code n (getReply (code ++ lit ",") (lit ",@~!" ++ code) n) := by
  obtain ⟨hhead, htail⟩ := zero_notMem_affixes hz
  have hreply := getReply_eq hhead htail n
  rw [replyChecksum_eq] at hreply
  generalize hsum : byteSum (code ++ lit "," ++ sprintfInt n ++ lit ",") % 256 = s at hreply
  have hs : s < 1000 := by omega
  have hvalue := digitsValue_padded3 hs
  refine ⟨padded3 s, rfl, fun d hd => isDigit_padded3 hs hd, hvalue.trans hsum.symm, ?_, ?_,
    atoi_sprintfInt hl hu, by rw [atoi_padded3 hs, hvalue]⟩
  · rw [hreply]
    simp only [List.append_assoc]
  · have hend : comma ∉ lit "@~!" ++ code := by
      rw [List.mem_append, not_or]
      exact ⟨by decide, hc⟩
    have hdigits : comma ∉ padded3 s := notMem_padded3 hs (by decide)
    rw [← splitOn_reply hc (comma_notMem_sprintfInt n) hdigits hend, hreply]
    have hsep : lit "," = [comma] := by decide
    have hmark : lit ",@~!" = comma :: lit "@~!" := by decide
    simp only [hsep, hmark, List.append_assoc, List.nil_append, List.cons_append]

theorem wellFormedReply_iff {code head tail : List Byte} (hz : 0 ∉ code) (hc : comma ∉ code)
    (hcode : code.length = 2) (hhead : head = code ++ lit ",") (htail : tail = lit ",@~!" ++ code)
    (packetType : Buffer 4) (chk_ : Buffer 5) (n : Int) :
    (∃ ack, getReplyIn head tail packetType chk_ n = some ack ∧ WellFormedReply code n ack.text) ↔
      -99 ≤ n ∧ n ≤ 999 := by
  subst hhead htail
  rw [← length_sprintfInt_le_three_iff]
  constructor
  · rintro ⟨ack, ha, -⟩
    by_contra hn
    rw [getReplyIn_of_lt packetType chk_ (not_le.mp hn)] at ha
    cases ha
  · intro hn
    have hrange := (length_sprintfInt_le_three_iff n).mp hn
    obtain ⟨hhead, htail⟩ := zero_notMem_affixes hz
    have hlen : (code ++ lit ",").length + (lit ",@~!" ++ code).length ≤ 9 := by
      simp only [List.length_append, hcode]
      decide
    obtain ⟨ack, ha, ht⟩ := getReplyIn_of_le hhead htail packetType chk_ hn hlen
    refine ⟨ack, ha, ?_⟩
    rw [ht]
    exact getReply_wellFormed hz hc (by omega) (by omega)

/-- The replies are well formed and stay inside their arrays exactly for the
numbers that fit `packetType`, three characters and a terminator. -/
theorem replies_wellFormed_iff (packetType : Buffer 4) (chk_ : Buffer 5) (n : Int) :
    ((∃ ack, getACKIn packetType chk_ n = some ack ∧ WellFormedReply (lit "11") n ack.text) ↔
      -99 ≤ n ∧ n ≤ 999) ∧
    ((∃ nack, getNckIn packetType chk_ n = some nack ∧ WellFormedReply (lit "16") n nack.text) ↔
      -99 ≤ n ∧ n ≤ 999) := by
  constructor
  · exact wellFormedReply_iff (by decide) (by decide) rfl (by decide) (by decide) packetType chk_ n
  · exact wellFormedReply_iff (by decide) (by decide) rfl (by decide) (by decide) packetType chk_ n

theorem replies_overflow_four_digits :
    ¬ ∀ (packetType : Buffer 4) (chk_ : Buffer 5) (n : Int), -2 ^ 31 ≤ n → n < 2 ^ 31 →
      (∃ ack, getACKIn packetType chk_ n = some ack ∧ WellFormedReply (lit "11") n ack.text) ∧
      (∃ nack, getNckIn packetType chk_ n = some nack ∧
        WellFormedReply (lit "16") n nack.text) := by
  intro h
  obtain ⟨⟨ack, ha, -⟩, -⟩ := h (.zero 4) (.zero 5) 1000 (by decide) (by decide)
  rw [getACKIn, getReplyIn_of_lt (.zero 4) (.zero 5) (by decide)] at ha
  cases ha

end Comlink
