import Comlink.Fields

/-! `str_split`: a counting pass over the string, then a `strtok` loop that
cuts the buffer in place. -/

namespace Comlink

open CText

/-- What ends the process, or leaves C's defined behaviour. -/
inductive Fault where
  | assertion
  | nullPointer
  -- An integer that is no address is used as a pointer.
  | wildPointer
  -- A write outside of an array.
  | overflow
  deriving DecidableEq, Repr

/-- One call of `strtok` on the memory from the saved position on: the token,
the bytes passed over as the call leaves them, and the memory from the new
saved position on. -/
def strtok (delim : Byte) (mem : List Byte) : Option (List Byte × List Byte × List Byte) :=
  let skipped := mem.takeWhile (· == delim)
  let start := mem.dropWhile (· == delim)
  let token := start.takeWhile (fun c => c != delim && c != 0)
  match start.dropWhile (fun c => c != delim && c != 0) with
  | [] => if token = [] then none else some (token, skipped ++ token, [])
  | c :: rest =>
    if token = [] then none
    else if c = delim then some (token, skipped ++ token ++ [0], rest)
    else some (token, skipped ++ token, c :: rest)

def countLoop (delim : Byte) : List Byte → Nat → Nat → Option Nat → Nat × Option Nat
  | [], _, count, lastComma => (count, lastComma)
  | c :: tmp, i, count, lastComma =>
    if delim = c then countLoop delim tmp (i + 1) (count + 1) (some i)
    else countLoop delim tmp (i + 1) count lastComma

/-- The second pass. `fuel` bounds the calls of `strtok`. -/
def splitLoop (ndebug : Bool) (delim : Byte) (count : Nat) :
    Nat → Nat → List Byte → Except Fault (List (List Byte) × List Byte)
  | 0, _, mem => .ok ([], mem)
  | fuel + 1, idx, mem =>
    match strtok delim mem with
    | none => .ok ([], mem)
    | some (token, done, rest) =>
      if ndebug = false ∧ ¬ idx < count then .error .assertion
      else
        match splitLoop ndebug delim count fuel (idx + 1) rest with
        | .error fault => .error fault
        | .ok (tokens, rest') => .ok (token :: tokens, done ++ rest')

/-- A null `last_comma` compares below every pointer. -/
def lastCommaBelow (lastComma : Option Nat) (len : Nat) : Bool :=
  match lastComma with
  | none => true
  | some i => (i : Int) < (len : Int) - 1

def splitCount (delim : Byte) (s : List Byte) : Nat :=
  let (count, lastComma) := countLoop delim s 0 0 none
  count + (if lastCommaBelow lastComma s.length then 1 else 0) + 1

/-- The tokens and the buffer after the call. With `ndebug` the assertions are
compiled out. -/
def strSplit (ndebug : Bool) (mem : List Byte) (delim : Byte) :
    Except Fault (List (List Byte) × List Byte) :=
  let count := splitCount delim (cstr mem)
  match splitLoop ndebug delim count (mem.length + 1) 0 mem with
  | .error fault => .error fault
  | .ok (tokens, mem') =>
    if ndebug = false ∧ tokens.length ≠ count - 1 then .error .assertion
    else .ok (tokens, mem')

/-- The buffer after the loop: the delimiter after each token is overwritten. -/
def cut (delim : Byte) : Bool → List Byte → List Byte
  | _, [] => []
  | inToken, c :: mem =>
    if c = 0 then c :: mem
    else if c = delim then (if inToken then 0 else c) :: cut delim false mem
    else c :: cut delim true mem

section Strtok

variable {delim : Byte}

theorem cut_skip (hd : delim ≠ 0) {skipped : List Byte} (h : ∀ c ∈ skipped, c = delim)
    (mem : List Byte) : cut delim false (skipped ++ mem) = skipped ++ cut delim false mem := by
  induction skipped with
  | nil => rfl
  | cons c skipped ih =>
    have hc : c = delim := h c (by simp)
    simp [cut, hc, hd, ih (fun x hx => h x (by simp [hx]))]

theorem cut_token {token : List Byte} (h : ∀ c ∈ token, c ≠ delim ∧ c ≠ 0) (inToken : Bool)
    (mem : List Byte) :
    cut delim inToken (token ++ mem) = token ++ cut delim (inToken || token ≠ []) mem := by
  induction token generalizing inToken with
  | nil => simp
  | cons c token ih =>
    have hc := h c (by simp)
    simp [cut, hc.1, hc.2, ih (fun x hx => h x (by simp [hx]))]

theorem length_cut (inToken : Bool) (mem : List Byte) :
    (cut delim inToken mem).length = mem.length := by
  induction mem generalizing inToken with
  | nil => rfl
  | cons c mem ih =>
    rw [cut]
    split_ifs <;> simp [ih]

theorem cut_append_of_mem {s : List Byte} (h : 0 ∈ s) (inToken : Bool) (t : List Byte) :
    cut delim inToken (s ++ t) = cut delim inToken s ++ t := by
  induction s generalizing inToken with
  | nil => simp at h
  | cons c s ih =>
    by_cases hc : c = 0
    · simp [cut, hc]
    · have hs : 0 ∈ s := by simpa [eq_comm, hc] using h
      by_cases hcd : c = delim
      · subst hcd
        simp [cut, hc, ih hs]
      · simp [cut, hc, hcd, ih hs]

theorem cut_append_of_notMem {s : List Byte} (h : 0 ∉ s) (inToken : Bool) (t : List Byte) :
    ∃ inToken', cut delim inToken (s ++ t) = cut delim inToken s ++ cut delim inToken' t := by
  induction s generalizing inToken with
  | nil => exact ⟨inToken, rfl⟩
  | cons c s ih =>
    have hc : c ≠ 0 := fun he => h (by simp [he])
    have hs : 0 ∉ s := fun hm => h (by simp [hm])
    by_cases hcd : c = delim
    · subst hcd
      obtain ⟨b, hb⟩ := ih hs false
      exact ⟨b, by simp [cut, hc, hb]⟩
    · obtain ⟨b, hb⟩ := ih hs true
      exact ⟨b, by simp [cut, hc, hcd, hb]⟩

theorem strtok_shape (hd : delim ≠ 0) {mem : List Byte} (hz : 0 ∈ mem) :
    ∃ skipped token c rest, mem = skipped ++ token ++ c :: rest ∧
      (∀ x ∈ skipped, x = delim) ∧ (∀ x ∈ token, x ≠ delim ∧ x ≠ 0) ∧
      (c = delim ∧ token ≠ [] ∨ c ≠ delim ∧ c = 0) ∧
      strtok delim mem =
        if token = [] then none
        else if c = delim then some (token, skipped ++ token ++ [0], rest)
        else some (token, skipped ++ token, c :: rest) := by
  let start := mem.dropWhile (· == delim)
  let inside : Byte → Bool := fun c => c != delim && c != 0
  have hmem : mem.takeWhile (· == delim) ++ start = mem := List.takeWhile_append_dropWhile
  have hstart : start.takeWhile inside ++ start.dropWhile inside = start :=
    List.takeWhile_append_dropWhile
  have hskip : ∀ x ∈ mem.takeWhile (· == delim), x = delim := by
    intro x hx
    simpa using List.mem_takeWhile_imp hx
  have htoken : ∀ x ∈ start.takeWhile inside, x ≠ delim ∧ x ≠ 0 := by
    intro x hx
    simpa [inside] using List.mem_takeWhile_imp hx
  cases he : start.dropWhile inside with
  | nil =>
    have hzs : 0 ∈ start := by
      rw [← hmem] at hz
      exact (List.mem_append.mp hz).resolve_left (fun h => hd (hskip 0 h).symm)
    have := List.dropWhile_eq_nil_iff.mp he 0 hzs
    simp [inside] at this
  | cons c rest =>
    have hc : c = delim ∨ c = 0 := by
      have h := eq_false_of_dropWhile he
      by_contra hn
      simp [inside, not_or.mp hn] at h
    refine ⟨mem.takeWhile (· == delim), start.takeWhile inside, c, rest, ?_, hskip, htoken, ?_, ?_⟩
    · rw [List.append_assoc, ← he, hstart, hmem]
    · by_cases hcd : c = delim
      · refine Or.inl ⟨hcd, fun hnil => ?_⟩
        rw [hnil, he, hcd] at hstart
        have h := eq_false_of_dropWhile hstart.symm
        simp at h
      · exact Or.inr ⟨hcd, hc.resolve_left hcd⟩
    · simp only [strtok]
      change (match start.dropWhile inside with | [] => _ | c :: rest => _) = _
      rw [he]

theorem strtok_none (hd : delim ≠ 0) {mem : List Byte} (hz : 0 ∈ mem)
    (h : strtok delim mem = none) :
    nonEmptyFields delim (cstr mem) = [] ∧ cut delim false mem = mem := by
  obtain ⟨skipped, token, c, rest, rfl, hskip, -, hc, he⟩ := strtok_shape hd hz
  have htoken : token = [] := by
    by_contra hne
    rw [he, if_neg hne] at h
    split_ifs at h
  subst htoken
  obtain rfl : c = 0 := hc.elim (fun hh => absurd rfl hh.2) And.right
  constructor
  · have hs := nonEmptyFields_skip hskip []
    rw [List.append_nil] at hs ⊢
    rw [cstr_append_zero, cstr_eq_self (fun hm => hd (hskip 0 hm).symm), hs]
    rfl
  · rw [List.append_nil, cut_skip hd hskip]
    simp [cut]

theorem strtok_some (hd : delim ≠ 0) {mem token done rest : List Byte} (hz : 0 ∈ mem)
    (h : strtok delim mem = some (token, done, rest)) :
    nonEmptyFields delim (cstr mem) = token :: nonEmptyFields delim (cstr rest) ∧
      cut delim false mem = done ++ cut delim false rest ∧ 0 ∈ rest ∧
      rest.length < mem.length := by
  obtain ⟨skipped, tok, c, rest', rfl, hskip, htok, hc, he⟩ := strtok_shape hd hz
  have hne : tok ≠ [] := by
    intro hnil
    rw [he, if_pos hnil] at h
    simp at h
  have hs0 : 0 ∉ skipped ++ tok := fun hm =>
    (List.mem_append.mp hm).elim (fun hh => hd (hskip 0 hh).symm) (fun hh => (htok 0 hh).2 rfl)
  have htd : delim ∉ tok := fun hm => (htok delim hm).1 rfl
  have hcut : cut delim false (skipped ++ tok ++ c :: rest') =
      skipped ++ tok ++ cut delim true (c :: rest') := by
    rw [List.append_assoc, cut_skip hd hskip, cut_token htok]
    simp [hne]
  rw [he, if_neg hne] at h
  rcases hc with ⟨rfl, -⟩ | ⟨hcd, rfl⟩
  · rw [if_pos rfl] at h
    simp only [Option.some.injEq, Prod.mk.injEq] at h
    obtain ⟨rfl, rfl, rfl⟩ := h
    have hcz : (c :: rest').takeWhile (· != 0) = c :: cstr rest' := by simp [cstr, hd]
    refine ⟨?_, ?_, ?_, by simp; omega⟩
    · rw [cstr_append_of_notMem hs0, cstr, hcz, List.append_assoc, nonEmptyFields_skip hskip,
        nonEmptyFields_append_cons htd hne]
    · rw [hcut]
      simp [cut, hd]
    · have hz' : 0 ∈ c :: rest' := (List.mem_append.mp hz).resolve_left hs0
      exact (List.mem_cons.mp hz').resolve_left (fun hh => hd hh.symm)
  · rw [if_neg hcd] at h
    simp only [Option.some.injEq, Prod.mk.injEq] at h
    obtain ⟨rfl, rfl, rfl⟩ := h
    refine ⟨?_, ?_, by simp, ?_⟩
    · rw [cstr_terminated hs0, nonEmptyFields_skip hskip, nonEmptyFields_of_notMem htd hne,
        cstr_zero_cons]
      rfl
    · rw [hcut]
      simp [cut]
    · have := List.length_pos_of_ne_nil hne
      simp
      omega

theorem splitLoop_eq (hd : delim ≠ 0) (ndebug : Bool) {count fuel idx : Nat} {mem : List Byte}
    (hz : 0 ∈ mem) (hf : mem.length < fuel)
    (hcount : idx + (nonEmptyFields delim (cstr mem)).length ≤ count) :
    splitLoop ndebug delim count fuel idx mem =
      .ok (nonEmptyFields delim (cstr mem), cut delim false mem) := by
  induction fuel generalizing idx mem with
  | zero => omega
  | succ fuel ih =>
    cases he : strtok delim mem with
    | none =>
      have hn := strtok_none hd hz he
      simp only [splitLoop, he, hn.1, hn.2]
    | some result =>
      obtain ⟨token, done, rest⟩ := result
      obtain ⟨hfields, hcut, hz', hlen⟩ := strtok_some hd hz he
      rw [hfields, List.length_cons] at hcount
      have hi := ih hz' (by omega) (show idx + 1 + _ ≤ count by omega)
      have hidx : ¬ (ndebug = false ∧ ¬ idx < count) := fun h => h.2 (by omega)
      simp only [splitLoop, he, if_neg hidx, hi, hfields, hcut]

theorem countLoop_of_notMem {s : List Byte} (h : delim ∉ s) (i count : Nat) (last : Option Nat) :
    countLoop delim s i count last = (count, last) := by
  induction s generalizing i with
  | nil => rfl
  | cons c s ih =>
    rw [countLoop, if_neg (fun he => h (by simp [he])), ih (fun hm => h (by simp [hm]))]

theorem countLoop_append {t : List Byte} (h : delim ∉ t) (u : List Byte) (i count : Nat)
    (last : Option Nat) :
    countLoop delim (u ++ delim :: t) i count last =
      (count + u.count delim + 1, some (i + u.length)) := by
  induction u generalizing i count last with
  | nil => simp [countLoop, countLoop_of_notMem h]
  | cons c u ih =>
    by_cases hc : delim = c
    · subst hc
      simp only [List.cons_append, countLoop, if_true, ih, List.count_cons_self, List.length_cons,
        Prod.mk.injEq, Option.some.injEq]
      omega
    · rw [List.cons_append, countLoop, if_neg hc, ih, List.count_cons_of_ne (Ne.symm hc),
        List.length_cons, Nat.succ_add_eq_add_succ]

theorem splitCount_of_notMem {s : List Byte} (h : delim ∉ s) : splitCount delim s = 2 := by
  simp [splitCount, countLoop_of_notMem h, lastCommaBelow]

theorem splitCount_append {t : List Byte} (h : delim ∉ t) (u : List Byte) :
    splitCount delim (u ++ delim :: t) = u.count delim + (if t = [] then 0 else 1) + 2 := by
  have hlast : lastCommaBelow (some u.length) (u ++ delim :: t).length = decide (t ≠ []) := by
    have hl : t.length = 0 ↔ t = [] := List.length_eq_zero_iff
    simp only [lastCommaBelow, List.length_append, List.length_cons, ne_eq, decide_eq_decide, ← hl]
    omega
  simp only [splitCount, countLoop_append h, Nat.zero_add, hlast]
  by_cases ht : t = [] <;> simp [ht]

theorem length_nonEmptyFields_lt_splitCount (delim : Byte) (s : List Byte) :
    (nonEmptyFields delim s).length < splitCount delim s := by
  by_cases h : delim ∈ s
  · obtain ⟨u, t, rfl, ht⟩ := exists_split_last h
    have := length_nonEmptyFields_le delim u
    rw [splitCount_append ht, nonEmptyFields_append_last ht, List.length_append]
    split_ifs <;> simp <;> omega
  · rw [splitCount_of_notMem h, nonEmptyFields, splitOn_of_notMem h]
    exact Nat.lt_succ_of_le (List.length_filter_le _ _)

/-- The final assertion of `str_split` in terms of the fields. -/
theorem length_nonEmptyFields_eq_iff (s : List Byte) :
    (nonEmptyFields delim s).length = splitCount delim s - 1 ↔ FieldsFilled delim s := by
  by_cases h : delim ∈ s
  · obtain ⟨u, t, rfl, ht⟩ := exists_split_last h
    have hall : (nonEmptyFields delim u).length = u.count delim + 1 ↔
        ∀ f ∈ u.splitOn delim, f ≠ [] := by
      rw [← length_splitOn, nonEmptyFields, List.length_filter_eq_length_iff]
      simp
    rw [splitCount_append ht, nonEmptyFields_append_last ht, List.length_append, FieldsFilled,
      splitOn_append_last ht, List.dropLast_concat, ← hall]
    split_ifs <;> simp
  · rw [splitCount_of_notMem h, nonEmptyFields, FieldsFilled, splitOn_of_notMem h]
    by_cases hs : s = [] <;> simp [hs]

/-- `str_split` on a terminated buffer: the non-empty fields, unless an
assertion stops the process. -/
theorem strSplit_eq (hd : delim ≠ 0) (ndebug : Bool) {mem : List Byte} (hz : 0 ∈ mem) :
    strSplit ndebug mem delim =
      if ndebug = false ∧ ¬ FieldsFilled delim (cstr mem) then .error .assertion
      else .ok (nonEmptyFields delim (cstr mem), cut delim false mem) := by
  have hlt := length_nonEmptyFields_lt_splitCount delim (cstr mem)
  have hl := splitLoop_eq hd ndebug hz (Nat.lt_succ_self mem.length)
    (show 0 + _ ≤ splitCount delim (cstr mem) by omega)
  simp only [strSplit, hl, ne_eq, length_nonEmptyFields_eq_iff]

theorem tokens_of_strSplit (hd : delim ≠ 0) {ndebug : Bool} {mem mem' : List Byte}
    {tokens : List (List Byte)} (hz : 0 ∈ mem)
    (h : strSplit ndebug mem delim = .ok (tokens, mem')) :
    tokens = nonEmptyFields delim (cstr mem) := by
  rw [strSplit_eq hd ndebug hz] at h
  split_ifs at h
  simp only [Except.ok.injEq, Prod.mk.injEq] at h
  exact h.1.symm

/-- The loop of `str_split` stores the non-empty segments of the string. They
leave room for the null pointer behind them, so its first assertion never
fails, and the last one holds exactly when the fields are filled. -/
theorem strSplit_stores_segments (ndebug : Bool) (delim : Byte) (mem : List Byte)
    (hd : delim ≠ 0) (hz : 0 ∈ mem) :
    ∃ tokens mem', splitLoop ndebug delim (splitCount delim (cstr mem)) (mem.length + 1) 0 mem =
        .ok (tokens, mem') ∧
      Segments delim (cstr mem) tokens ∧
      tokens.length ≤ splitCount delim (cstr mem) - 1 ∧
      tokens.length < splitCount delim (cstr mem) ∧
      (tokens.length = splitCount delim (cstr mem) - 1 ↔ FieldsFilled delim (cstr mem)) ∧
      (strSplit false mem delim = .ok (tokens, mem') ↔ FieldsFilled delim (cstr mem)) := by
  have hlt := length_nonEmptyFields_lt_splitCount delim (cstr mem)
  have hloop := splitLoop_eq hd ndebug hz (Nat.lt_succ_self mem.length)
    (show 0 + _ ≤ splitCount delim (cstr mem) by omega)
  refine ⟨_, _, hloop, segments_iff.mpr rfl, by omega, hlt, length_nonEmptyFields_eq_iff _, ?_⟩
  rw [strSplit_eq hd false hz]
  by_cases hfilled : FieldsFilled delim (cstr mem)
  · simp [hfilled]
  · simp [hfilled]

theorem strSplit_stores_segments_empty_field :
    ∃ tokens mem', splitLoop false 44 (splitCount 44 (cstr (lit "45,,071" ++ [0]))) 9 0
        (lit "45,,071" ++ [0]) = .ok (tokens, mem') ∧
      Segments 44 (cstr (lit "45,,071" ++ [0])) tokens ∧
      tokens.length < splitCount 44 (cstr (lit "45,,071" ++ [0])) ∧
      strSplit false (lit "45,,071" ++ [0]) 44 ≠ .ok (tokens, mem') := by
  obtain ⟨tokens, mem', hloop, hsegments, -, hlt, -, hfilled⟩ :=
    strSplit_stores_segments false 44 (lit "45,,071" ++ [0]) (by decide) (by decide)
  refine ⟨tokens, mem', hloop, hsegments, hlt, fun h => ?_⟩
  exact absurd (hfilled.mp h) (by decide)

end Strtok

end Comlink
