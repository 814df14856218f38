import Comlink.CBuffer
import Comlink.Checksum

/-! The local array of `isCRCValid` that receives the text after the last comma. -/

namespace Comlink

open CText

/-- `isCRCValid` with its array `str`, whatever this holds before. There is no
result when a write falls outside. -/
def isCRCValidIn (str : Buffer 5) (packetType : Int) (packet : List Byte) : Option Bool := do
  let lastindex := (findLastIndex packet comma).toNat
  let len := (cstr packet).length
  let checkSum := checksum packet lastindex
  let str ← str.memcpy (packet.drop lastindex) (len - lastindex)
  let str ← str.write (len - lastindex) 0
  let crcInPacket := atoi str.text
  if packetType = 7 ∧ str.text = lit "EOT\r\n" then some true
  else if crcInPacket = checkSum.toNat then some true
  else some false

theorem zero_notMem_trailer (packet : List Byte) : 0 ∉ afterLast comma (cstr packet) := by
  intro hm
  apply zero_notMem_cstr packet
  rw [← upToLast_append_afterLast comma (cstr packet)]
  exact List.mem_append_right _ hm

theorem isCRCValidIn_eq (str : Buffer 5) (packetType : Int) (packet : List Byte) :
    isCRCValidIn str packetType packet =
      if (afterLast comma (cstr packet)).length ≤ 4 then some (isCRCValid packetType packet)
      else none := by
  have hholds := str.holds_terminated (zero_notMem_trailer packet)
  have hrun : isCRCValidIn str packetType packet =
      ((str.store 0 (afterLast comma (cstr packet))).bind
        (fun str => str.write (afterLast comma (cstr packet)).length 0)).bind (fun str =>
          if packetType = 7 ∧ str.text = lit "EOT\r\n" then some true
          else if atoi str.text = (checksum packet (findLastIndex packet comma).toNat).toNat then
            some true
          else some false) := by
    rw [Option.bind_assoc, isCRCValidIn, Buffer.memcpy, trailer_eq, length_trailer]
    rfl
  rw [hrun]
  by_cases hfit : (afterLast comma (cstr packet)).length < 5
  · obtain ⟨b, hb, ht⟩ := hholds.1 hfit
    have hle : (afterLast comma (cstr packet)).length ≤ 4 := by omega
    rw [hb, Option.bind_some, ht, if_pos hle, isCRCValid, trailer_eq]
    split_ifs <;> rfl
  · rw [hholds.2 (by omega), Option.bind_none, if_neg (by omega)]

/-- Every write of `isCRCValid` stays inside its array exactly when at most
four bytes follow the last comma. -/
theorem isCRCValidIn_inBounds_iff (str : Buffer 5) (packetType : Int) (packet : List Byte) :
    (isCRCValidIn str packetType packet).isSome ↔ (afterLast comma (cstr packet)).length ≤ 4 := by
  rw [isCRCValidIn_eq]
  split_ifs with h
  · simp [h]
  · simp [h]

theorem isCRCValidIn_overflows_notes_packet :
    ¬ ∀ (str : Buffer 5) (packetType : Int) (packet : List Byte), 0 ∈ packet →
      (isCRCValidIn str packetType packet).isSome := by
  intro h
  exact absurd (h (.zero 5) 7 (lit "7,PIT905,EOT\r\n" ++ [0]) (by decide)) (by decide)

end Comlink
