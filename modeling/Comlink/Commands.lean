import Comlink.Receive
import Comlink.Shell.Line

/-! The command lines of an accepted packet, as the shell and the option loop
of `redisClient` read them. -/

namespace Comlink

open CText PosixShell

structure ClientOptions where
  host : Option (List Byte)
  port : Option (List Byte)
  key : Option (List Byte)
  packet : Option (List Byte)
  deriving DecidableEq, Repr

def ClientOptions.none : ClientOptions := ⟨.none, .none, .none, .none⟩

def ClientOptions.set (o : ClientOptions) (option : Byte) (optarg : List Byte) : ClientOptions :=
  if option = 104 then { o with host := some optarg }
  else if option = 112 then { o with port := some optarg }
  else if option = 107 then { o with key := some optarg }
  else { o with packet := some optarg }

/-- The letters of one word. The argument of an option is the rest of the word
or, if there is none, the next word. An unknown letter is skipped. -/
def optionLetters (o : ClientOptions) : List Byte → ClientOptions × Option Byte
  | [] => (o, .none)
  | c :: rest =>
    if c ∈ lit "hpkv" then
      if rest = [] then (o, some c) else (o.set c rest, .none)
    else optionLetters o rest

/-- The loop over `getopt(argc, argv, "h:p:k:v:")`, with the option whose
argument is the next word. Words that are no options are passed over. -/
def optionLoop : ClientOptions → Option Byte → List (List Byte) → ClientOptions
  | o, _, [] => o
  | o, some c, arg :: args => optionLoop (o.set c arg) .none args
  | o, .none, arg :: args =>
    if arg = lit "--" then o
    else if arg.head? = some 45 ∧ arg ≠ lit "-" then
      let (o, waiting) := optionLetters o arg.tail
      optionLoop o waiting args
    else optionLoop o .none args

def redisClient (argv : List (List Byte)) : Option ClientOptions :=
  if argv.length < 5 then .none else some (optionLoop .none .none argv.tail)

def redisArgv (key packet : List Byte) : List (List Byte) :=
  [lit "/usr/local/bin/redisClient", lit "-h", lit "localhost", lit "-p", lit "6379", lit "-k", key,
    lit "-v", packet]

def httpArgv (packet : List Byte) : List (List Byte) :=
  [lit "wget", lit "--post-data", lit "packet=" ++ packet, comlinkHost, lit "--connect-timeout=5",
    lit "--tries=2", lit "-O", lit "/dev/null"]

theorem redisClient_redisArgv (key packet : List Byte) :
    redisClient (redisArgv key packet) =
      some ⟨some (lit "localhost"), some (lit "6379"), some key, some packet⟩ := rfl

theorem getRedisCommand_eq (key packet : List Byte) :
    getRedisCommand redisHost redisPort key packet = line (redisArgv (cstr key) (cstr packet)) := by
  have h1 : cstr (lit "/usr/local/bin/redisClient -h ") =
      lit "/usr/local/bin/redisClient" ++ [32] ++ (lit "-h" ++ [32]) := by decide
  have h2 : cstr redisHost = lit "localhost" := by decide
  have h3 : cstr (lit " -p ") = [32] ++ (lit "-p" ++ [32]) := by decide
  have h4 : cstr redisPort = lit "6379" := by decide
  have h5 : cstr (lit " -k ") = [32] ++ (lit "-k" ++ [32]) := by decide
  have h6 : cstr (lit " -v ") = [32] ++ (lit "-v" ++ [32]) := by decide
  have h7 : cstr (lit " &") = [32] ++ lit "&" := by decide
  simp only [getRedisCommand, strcat, h1, h2, h3, h4, h5, h6, h7, line, redisArgv, List.map_cons,
    List.map_nil, List.flatten_cons, List.flatten_nil, List.append_assoc, List.nil_append]

theorem getHttpCommand_eq (packet : List Byte) :
    getHttpCommand comlinkHost packet = line (httpArgv (cstr packet)) := by
  have h1 : cstr (lit "wget --post-data ") = lit "wget" ++ [32] ++ (lit "--post-data" ++ [32]) := by
    decide
  have h2 : cstr (lit "packet=") = lit "packet=" := by decide
  have h3 : cstr (lit " ") = [32] := by decide
  have h4 : cstr comlinkHost = comlinkHost := by decide
  have h5 : cstr (lit " --connect-timeout=5 --tries=2 -O /dev/null &") =
      [32] ++ (lit "--connect-timeout=5" ++ [32]) ++ (lit "--tries=2" ++ [32]) ++
        (lit "-O" ++ [32]) ++ (lit "/dev/null" ++ [32]) ++ lit "&" := by decide
  simp only [getHttpCommand, strcat, h1, h2, h3, h4, h5, line, httpArgv, List.map_cons,
    List.map_nil, List.flatten_cons, List.flatten_nil, List.append_assoc, List.nil_append]

def Accepts (ndebug : Bool) (m : List Byte) : Prop :=
  ∃ tokens mem' first, strSplit ndebug (bufferData m) comma = .ok (tokens, mem') ∧
    tokens[0]? = some first ∧ isCRCValid (atoi first) (bufferData m) = true

/-- The shell does not wait for a command in the background: a line that is one
such command has the status 0. -/
def StartsBackground (system : SystemResult) : Prop :=
  ∀ line argv, backgroundArgv line = some argv → system line = 0

/-- The shell and `redisClient` get the packet and its second field as data. -/
def ReachesAsData (ndebug : Bool) (m : List Byte) : Prop :=
  ∃ device out mem' redis http, (m.splitOn comma)[1]? = some device ∧
    (∀ system, StartsBackground system → receive ndebug system (.ofText m) = .ok (out, mem')) ∧
    out.commands = [redis, http] ∧
    backgroundArgv redis = some (redisArgv (device ++ lit "_PACKET") m) ∧
    (∃ o, redisClient (redisArgv (device ++ lit "_PACKET") m) = some o ∧
      o.key = some (device ++ lit "_PACKET") ∧ o.packet = some m) ∧
    backgroundArgv http = some (httpArgv m)

/-- No byte of the packet is special to the shell, neither the packet nor its
second field begins with a number sign or a tilde, and the second token is the
second field. -/
def ShellSafe (m : List Byte) : Prop :=
  0 ∉ m ∧ (∀ c ∈ m, isPlain c = true) ∧ PlainHead m ∧
    ∃ device, (m.splitOn comma)[1]? = some device ∧
      (nonEmptyFields comma m)[1]? = some device ∧ PlainHead device

theorem receive_of_accepts {ndebug : Bool} {m : List Byte} (h : Accepts ndebug m) :
    ∃ n mem', ∀ system, receive ndebug system (.ofText m) =
      match (nonEmptyFields comma (cstr m))[1]? with
      | none => .error .nullPointer
      | some device =>
        (runCommands system (.ofRight n (concat device (lit "_PACKET")) (bufferData m))).map
          (fun out => (out, mem')) := by
  obtain ⟨tokens, mem', first, hsplit, hfirst, hvalid⟩ := h
  have hmem : (RxBuffer.ofText m).mem = bufferData m := rfl
  have hpay : (RxBuffer.ofText m).payload = m := rfl
  have htokens : tokens = nonEmptyFields comma (cstr m) := by
    rw [tokens_of_strSplit comma_ne_zero (by simp [bufferData]) hsplit, cstr_bufferData]
  refine ⟨atoi first, mem', fun system => ?_⟩
  rw [receive, hmem, hsplit, hpay, htokens]
  rw [htokens] at hfirst
  simp only [handleTokens, hfirst, hvalid, if_true]
  cases (nonEmptyFields comma (cstr m))[1]? with
  | none => rfl
  | some device =>
    dsimp only
    cases runCommands system (.ofRight (atoi first) (concat device (lit "_PACKET"))
      (bufferData m)) <;>
      rfl

theorem zero_notMem_getHttpCommand (host packet : List Byte) : 0 ∉ getHttpCommand host packet := by
  simp [getHttpCommand, strcat, zero_notMem_cstr]

theorem isPlain_of_forall_mem_append {u v : List Byte} (h : ∀ c ∈ u ++ v, isPlain c = true) :
    ∀ c ∈ v, isPlain c = true :=
  fun c hc => h c (List.mem_append_right u hc)

theorem plainHead_append {w : List Byte} (hne : w ≠ []) (s : List Byte) :
    PlainHead (w ++ s) ↔ PlainHead w := by
  rw [PlainHead, PlainHead, List.head?_append_of_ne_nil w hne]

section Words

variable {P : List Byte → Prop} {key packet : List Byte}

-- A property of the words that stand in the source. The arguments are set to
-- words that are there anyway.
theorem forall_mem_redisArgv (h : ∀ w ∈ redisArgv (lit "-k") (lit "-v"), P w) :
    (∀ w ∈ redisArgv key packet, P w) ↔ P key ∧ P packet := by
  simp only [redisArgv, List.forall_mem_cons] at h
  simp [redisArgv, h]

theorem forall_mem_httpArgv (h : ∀ w ∈ httpArgv [], P w) :
    (∀ w ∈ httpArgv packet, P w) ↔ P (lit "packet=" ++ packet) := by
  simp only [httpArgv, List.forall_mem_cons] at h
  simp [httpArgv, h]

theorem sourceWords_plain : ∀ w ∈ redisArgv (lit "-k") (lit "-v") ++ httpArgv [],
    (w ≠ [] ∧ ∀ c ∈ w, isPlain c = true) ∧ PlainHead w := by
  intro w hw
  have hall : (redisArgv (lit "-k") (lit "-v") ++ httpArgv []).all
      (fun w => w.all isPlain && decide (w ≠ [] ∧ PlainHead w)) = true := by decide
  have h := List.all_eq_true.mp hall w hw
  rw [Bool.and_eq_true, decide_eq_true_eq] at h
  exact ⟨⟨h.2.1, List.all_eq_true.mp h.1⟩, h.2.2⟩

theorem redisArgv_plain (hkey : key ≠ [] ∧ ∀ c ∈ key, isPlain c = true)
    (hpacket : packet ≠ [] ∧ ∀ c ∈ packet, isPlain c = true) :
    ∀ w ∈ redisArgv key packet, w ≠ [] ∧ ∀ c ∈ w, isPlain c = true := by
  refine (forall_mem_redisArgv (fun w hw => ?_)).mpr ⟨hkey, hpacket⟩
  exact (sourceWords_plain w (List.mem_append_left _ hw)).1

theorem redisArgv_heads :
    (∀ w ∈ redisArgv key packet, PlainHead w) ↔ PlainHead key ∧ PlainHead packet := by
  apply forall_mem_redisArgv
  intro w hw
  exact (sourceWords_plain w (List.mem_append_left _ hw)).2

theorem httpArgv_plain (hpacket : ∀ c ∈ packet, isPlain c = true) :
    ∀ w ∈ httpArgv packet, w ≠ [] ∧ ∀ c ∈ w, isPlain c = true := by
  refine (forall_mem_httpArgv (fun w hw => ?_)).mpr ?_
  · exact (sourceWords_plain w (List.mem_append_right _ hw)).1
  · refine ⟨by simp [lit], fun c hc => ?_⟩
    rcases List.mem_append.mp hc with hc | hc
    · exact List.all_eq_true.mp (show (lit "packet=").all isPlain = true by decide) c hc
    · exact hpacket c hc

theorem httpArgv_heads (packet : List Byte) : ∀ w ∈ httpArgv packet, PlainHead w := by
  refine (forall_mem_httpArgv (fun w hw => ?_)).mpr ?_
  · exact (sourceWords_plain w (List.mem_append_right _ hw)).2
  · exact (plainHead_append (by decide) packet).mpr (by decide)

end Words

theorem backgroundArgv_redis_iff {key packet : List Byte} {us : List (List Byte)}
    (hkey : key ≠ [] ∧ ∀ c ∈ key, isPlain c = true)
    (hpacket : packet ≠ [] ∧ ∀ c ∈ packet, isPlain c = true) :
    backgroundArgv (line (redisArgv key packet)) = some us ↔
      us = redisArgv key packet ∧ PlainHead key ∧ PlainHead packet := by
  have hplain := redisArgv_plain hkey hpacket
  rw [← redisArgv_heads]
  exact backgroundArgv_line_iff (by decide) (fun w hw => (hplain w hw).1)
    (fun w hw => (hplain w hw).2)

theorem backgroundArgv_http {packet : List Byte} (hpacket : ∀ c ∈ packet, isPlain c = true) :
    backgroundArgv (line (httpArgv packet)) = some (httpArgv packet) := by
  have hplain := httpArgv_plain hpacket
  exact (backgroundArgv_line_iff (by decide) (fun w hw => (hplain w hw).1)
    (fun w hw => (hplain w hw).2)).mpr ⟨rfl, httpArgv_heads packet⟩

theorem second_token_plain {m device : List Byte} (hz : 0 ∉ m) (hplain : ∀ c ∈ m, isPlain c = true)
    (h : (nonEmptyFields comma m)[1]? = some device) :
    device ≠ [] ∧ (∀ c ∈ device ++ lit "_PACKET", isPlain c = true) ∧
      concat device (lit "_PACKET") = device ++ lit "_PACKET" ∧
      cstr (device ++ lit "_PACKET") = device ++ lit "_PACKET" := by
  have hmem := List.mem_of_getElem? h
  have hfield : device ∈ m.splitOn comma := (List.mem_filter.mp hmem).1
  have hzd := zero_notMem_of_field hz hfield
  refine ⟨ne_nil_of_mem_nonEmptyFields hmem, ?_, concat_packet hzd, ?_⟩
  · intro c hc
    rcases List.mem_append.mp hc with hc | hc
    · exact hplain c (subset_of_mem_splitOn hfield hc)
    · exact List.all_eq_true.mp (show (lit "_PACKET").all isPlain = true by decide) c hc
  · exact cstr_eq_self (fun hm => (List.mem_append.mp hm).elim hzd (by decide))

theorem plain_of_http {m : List Byte}
    (h : backgroundArgv (getHttpCommand comlinkHost (bufferData m)) = some (httpArgv m)) :
    0 ∉ m ∧ ∀ c ∈ m, isPlain c = true := by
  have hin : lit "packet=" ++ m ∈ httpArgv m := by simp [httpArgv]
  have hz : 0 ∉ m := by
    intro hm
    exact zero_notMem_getHttpCommand _ _
      (subset_of_backgroundArgv h hin (List.mem_append_right _ hm))
  have hc : cstr (bufferData m) = m := cstr_terminated hz []
  rw [getHttpCommand_eq, hc] at h
  exact ⟨hz, isPlain_of_forall_mem_append (plain_of_backgroundArgv h _ hin).2⟩

theorem shellSafe_of_reachesAsData {ndebug : Bool} {m : List Byte} (ha : Accepts ndebug m)
    (h : ReachesAsData ndebug m) : ShellSafe m := by
  obtain ⟨device, out, mem', redis, http, hfield, hr, hcommands, hredis, -, hhttp⟩ := h
  obtain ⟨n, mem'', hrecv⟩ := receive_of_accepts ha
  have hzero := (hr statusZero (fun _ _ _ => rfl)).symm.trans (hrecv statusZero)
  cases htoken : (nonEmptyFields comma (cstr m))[1]? with
  | none => simp [htoken] at hzero
  | some token =>
    simp only [htoken, @runCommands_of_zero statusZero _ (fun _ _ => rfl), Except.map,
      Except.ok.injEq, Prod.mk.injEq] at hzero
    obtain ⟨rfl, -⟩ := hzero
    obtain ⟨rfl, he⟩ := List.cons.inj hcommands
    obtain ⟨rfl, -⟩ := List.cons.inj he
    obtain ⟨hz, hplain⟩ := plain_of_http hhttp
    rw [cstr_eq_self hz] at htoken
    obtain ⟨hne, hkey, hconcat, hcstr⟩ := second_token_plain hz hplain htoken
    have hm : m ≠ [] := by
      rintro rfl
      simp [nonEmptyFields] at htoken
    have hc : cstr (bufferData m) = m := cstr_terminated hz []
    rw [getRedisCommand_eq, hconcat, hcstr, hc,
      backgroundArgv_redis_iff ⟨by simp [hne], hkey⟩ ⟨hm, hplain⟩] at hredis
    obtain ⟨hargv, hheadKey, hheadPacket⟩ := hredis
    have hdevice : device = token := by simpa [redisArgv] using hargv
    refine ⟨hz, hplain, hheadPacket, device, hfield, hdevice ▸ htoken, ?_⟩
    rw [hdevice]
    exact (plainHead_append hne _).mp hheadKey

theorem reachesAsData_of_shellSafe {ndebug : Bool} {m : List Byte} (ha : Accepts ndebug m)
    (h : ShellSafe m) : ReachesAsData ndebug m := by
  obtain ⟨hz, hplain, hhead, device, hfield, htoken, hheadDevice⟩ := h
  obtain ⟨n, mem', hrecv⟩ := receive_of_accepts ha
  simp only [cstr_eq_self hz, htoken] at hrecv
  obtain ⟨hne, hkey, hconcat, hcstr⟩ := second_token_plain hz hplain htoken
  have hm : m ≠ [] := by
    rintro rfl
    simp [nonEmptyFields] at htoken
  have hc : cstr (bufferData m) = m := cstr_terminated hz []
  have hredis : backgroundArgv (getRedisCommand redisHost redisPort (concat device (lit "_PACKET"))
      (bufferData m)) = some (redisArgv (device ++ lit "_PACKET") m) := by
    rw [getRedisCommand_eq, hconcat, hcstr, hc,
      backgroundArgv_redis_iff ⟨by simp [hne], hkey⟩ ⟨hm, hplain⟩]
    exact ⟨rfl, (plainHead_append hne _).mpr hheadDevice, hhead⟩
  have hhttp : backgroundArgv (getHttpCommand comlinkHost (bufferData m)) = some (httpArgv m) := by
    rw [getHttpCommand_eq, hc]
    exact backgroundArgv_http hplain
  refine ⟨device, .ofRight n (concat device (lit "_PACKET")) (bufferData m), mem', _, _, hfield,
    fun system hsystem => ?_, rfl, hredis, ⟨_, redisClient_redisArgv _ m, rfl, rfl⟩, hhttp⟩
  have hzero : ∀ command ∈
      (Received.ofRight n (concat device (lit "_PACKET")) (bufferData m)).commands,
      system command = 0 := by
    simp only [Received.ofRight, List.forall_mem_cons]
    exact ⟨hsystem _ _ hredis, hsystem _ _ hhttp, by simp⟩
  rw [hrecv, runCommands_of_zero hzero]
  rfl

/-- An accepted packet reaches the store and the server as data exactly when it
is safe for the shell. -/
theorem reachesAsData_iff (ndebug : Bool) (m : List Byte) (ha : Accepts ndebug m) :
    ReachesAsData ndebug m ↔ ShellSafe m :=
  ⟨shellSafe_of_reachesAsData ha, reachesAsData_of_shellSafe ha⟩

theorem reachesAsData_controller_packet :
    Accepts true (lit "45,PIT905,01,01,00,05,04,4,4,4,0,0,0,071") ∧
    ReachesAsData true (lit "45,PIT905,01,01,00,05,04,4,4,4,0,0,0,071") := by
  have ha : Accepts true (lit "45,PIT905,01,01,00,05,04,4,4,4,0,0,0,071") :=
    ⟨(lit "45,PIT905,01,01,00,05,04,4,4,4,0,0,0,071").splitOn comma, _, lit "45",
      rfl, by decide, by decide⟩
  have hplain := List.all_eq_true.mp
    (show (lit "45,PIT905,01,01,00,05,04,4,4,4,0,0,0,071").all isPlain = true by decide)
  refine ⟨ha, (reachesAsData_iff true _ ha).mpr ⟨by decide, hplain, by decide, lit "PIT905", ?_⟩⟩
  exact ⟨by decide, by decide, by decide⟩

theorem not_reachesAsData_semicolon :
    ¬ ∀ (ndebug : Bool) (m : List Byte), Accepts ndebug m → ReachesAsData ndebug m := by
  intro h
  have ha : Accepts true (lit "45,P;x,196") :=
    ⟨[lit "45", lit "P;x", lit "196"], _, lit "45", rfl, by decide, by decide⟩
  have hsafe := shellSafe_of_reachesAsData ha (h true _ ha)
  exact absurd (hsafe.2.1 59 (by decide)) (by decide)

end Comlink
