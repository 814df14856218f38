import Comlink.Checksum

/-! The texts that the handler builds: the replies to the controller and the
command lines for the shell. A growing buffer is its C string; the sizes of
the arrays that hold these strings are not part of them. -/

namespace Comlink

open CText

def strcat (dst src : List Byte) : List Byte := dst ++ cstr src

def replyChecksum (ack : List Byte) : List Byte :=
  let chk := (checksum ack ack.length).toNat
  if chk ≤ 9 then lit "00" ++ decimal chk
  else if chk ≤ 99 then lit "0" ++ decimal chk
  else decimal chk

/-- The common body of `getACK` and `getNck`. -/
def getReply (head tail : List Byte) (pType : Int) : List Byte :=
  let packetType := sprintfInt pType
  let ack := strcat [] head
  let ack := strcat ack packetType
  let ack := strcat ack (lit ",")
  let chk := replyChecksum ack
  let ack := strcat ack chk
  strcat ack tail

def getACK (pType : Int) : List Byte := getReply (lit "11,") (lit ",@~!11") pType

def getNck (pType : Int) : List Byte := getReply (lit "16,") (lit ",@~!16") pType

def concat (s1 s2 : List Byte) : List Byte := strcat (cstr s1) s2

def getRedisCommand (host port key packet : List Byte) : List Byte :=
  let temp := strcat [] (lit "/usr/local/bin/redisClient -h ")
  let temp := strcat temp host
  let temp := strcat temp (lit " -p ")
  let temp := strcat temp port
  let temp := strcat temp (lit " -k ")
  let temp := strcat temp key
  let temp := strcat temp (lit " -v ")
  let temp := strcat temp packet
  strcat temp (lit " &")

def getHttpCommand (host packet : List Byte) : List Byte :=
  let temp := strcat [] (lit "wget --post-data ")
  let temp := strcat temp (lit "packet=")
  let temp := strcat temp packet
  let temp := strcat temp (lit " ")
  let temp := strcat temp host
  strcat temp (lit " --connect-timeout=5 --tries=2 -O /dev/null &")

def redisHost : List Byte := lit "localhost"

def redisPort : List Byte := lit "6379"

def comlinkHost : List Byte := lit "http://localhost:2579/api/device/report-data"

end Comlink
