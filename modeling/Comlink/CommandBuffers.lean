import Comlink.CBuffer
import Comlink.Receive

/-! The command lines in the 200 bytes that the source allocates for each. -/

namespace Comlink

open CText

/-- `getRedisCommand` with its array, zeroed before the calls of `strcat`. -/
def getRedisCommandIn (host port key packet : List Byte) : Option (Buffer 200) :=
  [lit "/usr/local/bin/redisClient -h ", host, lit " -p ", port, lit " -k ", key, lit " -v ",
    packet, lit " &"].foldlM Buffer.strcat (.zero 200)

def getHttpCommandIn (host packet : List Byte) : Option (Buffer 200) :=
  [lit "wget --post-data ", lit "packet=", packet, lit " ", host,
    lit " --connect-timeout=5 --tries=2 -O /dev/null &"].foldlM Buffer.strcat (.zero 200)

theorem holds_getRedisCommandIn (host port key packet : List Byte) :
    Buffer.Holds (getRedisCommandIn host port key packet)
      (getRedisCommand host port key packet) := by
  have h := Buffer.holds_zero_chain (show 0 < 200 by omega) [lit "/usr/local/bin/redisClient -h ",
    host, lit " -p ", port, lit " -k ", key, lit " -v ", packet, lit " &"]
  simp only [List.map_cons, List.map_nil, List.flatten_cons, List.flatten_nil, List.append_nil] at h
  simpa only [getRedisCommandIn, getRedisCommand, strcat, List.nil_append,
    List.append_assoc] using h

theorem holds_getHttpCommandIn (host packet : List Byte) :
    Buffer.Holds (getHttpCommandIn host packet) (getHttpCommand host packet) := by
  have h := Buffer.holds_zero_chain (show 0 < 200 by omega) [lit "wget --post-data ",
    lit "packet=", packet, lit " ", host, lit " --connect-timeout=5 --tries=2 -O /dev/null &"]
  simp only [List.map_cons, List.map_nil, List.flatten_cons, List.flatten_nil, List.append_nil] at h
  simpa only [getHttpCommandIn, getHttpCommand, strcat, List.nil_append, List.append_assoc] using h

theorem length_getRedisCommand (key packet : List Byte) :
    (getRedisCommand redisHost redisPort key packet).length =
      57 + (cstr key).length + (cstr packet).length := by
  have hconst : (cstr (lit "/usr/local/bin/redisClient -h ")).length = 30 ∧
      (cstr redisHost).length = 9 ∧ (cstr (lit " -p ")).length = 4 ∧
      (cstr redisPort).length = 4 ∧ (cstr (lit " -k ")).length = 4 ∧
      (cstr (lit " -v ")).length = 4 ∧ (cstr (lit " &")).length = 2 := by decide
  simp only [getRedisCommand, strcat, List.length_append, List.length_nil, hconst]
  omega

theorem length_getHttpCommand (packet : List Byte) :
    (getHttpCommand comlinkHost packet).length = 114 + (cstr packet).length := by
  have hconst : (cstr (lit "wget --post-data ")).length = 17 ∧ (cstr (lit "packet=")).length = 7 ∧
      (cstr (lit " ")).length = 1 ∧ (cstr comlinkHost).length = 44 ∧
      (cstr (lit " --connect-timeout=5 --tries=2 -O /dev/null &")).length = 45 := by decide
  simp only [getHttpCommand, strcat, List.length_append, List.length_nil, hconst]
  omega

theorem zero_notMem_of_token {ndebug : Bool} {rx : RxBuffer} {tokens : List (List Byte)}
    {mem' token : List Byte} (hs : strSplit ndebug rx.mem comma = .ok (tokens, mem'))
    (ht : token ∈ tokens) : 0 ∉ token := by
  rw [tokens_of_strSplit comma_ne_zero rx.zero_mem hs] at ht
  exact zero_notMem_of_field (zero_notMem_cstr rx.mem) (List.mem_filter.mp ht).1

/-- The two command lines of a message stay inside their arrays exactly when
the packet has at most 85 bytes, and at most 135 together with the device code. -/
theorem commands_inBounds_iff {ndebug : Bool} {rx : RxBuffer} {tokens : List (List Byte)}
    {mem' device : List Byte} (hs : strSplit ndebug rx.mem comma = .ok (tokens, mem'))
    (hd : tokens[1]? = some device) :
    ((getRedisCommandIn redisHost redisPort (concat device (lit "_PACKET"))
        (bufferData rx.payload)).isSome ∧
      (getHttpCommandIn comlinkHost (bufferData rx.payload)).isSome) ↔
      device.length + (cstr rx.payload).length ≤ 135 ∧ (cstr rx.payload).length ≤ 85 := by
  have hz : 0 ∉ device := zero_notMem_of_token hs (List.mem_of_getElem? hd)
  have hkey : (cstr (concat device (lit "_PACKET"))).length = device.length + 7 := by
    rw [concat_packet hz, cstr_append_of_notMem hz, List.length_append]
    rfl
  rw [(holds_getRedisCommandIn _ _ _ _).isSome_iff, (holds_getHttpCommandIn _ _).isSome_iff,
    length_getRedisCommand, length_getHttpCommand, hkey, cstr_bufferData]
  omega

theorem commands_inBounds_controller_packet :
    (getRedisCommandIn redisHost redisPort (concat (lit "PIT905") (lit "_PACKET"))
      (bufferData (lit "45,PIT905,01,01,00,05,04,4,4,4,0,0,0,071"))).isSome ∧
    (getHttpCommandIn comlinkHost
      (bufferData (lit "45,PIT905,01,01,00,05,04,4,4,4,0,0,0,071"))).isSome := by
  have hs := strSplit_bufferData true (lit "45,PIT905,01,01,00,05,04,4,4,4,0,0,0,071")
  rw [if_neg (by decide)] at hs
  have hd : (nonEmptyFields comma (cstr (lit "45,PIT905,01,01,00,05,04,4,4,4,0,0,0,071")))[1]? =
      some (lit "PIT905") := by decide
  have hsplit : strSplit true (RxBuffer.ofText (lit "45,PIT905,01,01,00,05,04,4,4,4,0,0,0,071")).mem
      comma = _ := hs
  exact (commands_inBounds_iff hsplit hd).mpr (by decide)

-- 87 bytes with a right checksum, most of them device code.
def longDevice : List Byte := lit "45," ++ List.replicate 80 65 ++ lit ",017"

theorem commands_overflow_long_device :
    ¬ ∀ (ndebug : Bool) (rx : RxBuffer) (tokens : List (List Byte)) (mem' first device : List Byte),
      rx.payload.length ≤ rxBufferSize → strSplit ndebug rx.mem comma = .ok (tokens, mem') →
      tokens[0]? = some first → tokens[1]? = some device →
      isCRCValid (atoi first) (bufferData rx.payload) = true →
      (getRedisCommandIn redisHost redisPort (concat device (lit "_PACKET"))
        (bufferData rx.payload)).isSome ∧
      (getHttpCommandIn comlinkHost (bufferData rx.payload)).isSome := by
  intro h
  have hs := strSplit_bufferData true longDevice
  rw [if_neg (by decide)] at hs
  have hhttp := (h true (.ofText longDevice) _ _ (lit "45") (List.replicate 80 65) (by decide) hs
    (by decide) (by decide) (by decide +kernel)).2
  rw [(holds_getHttpCommandIn _ _).isSome_iff, length_getHttpCommand] at hhttp
  exact absurd hhttp (by decide)

end Comlink
