import Comlink.CText

/-! Token recognition of the POSIX shell, for command lines that are one simple
command in the background. The words are what the command gets as arguments if
no word undergoes an expansion. -/

namespace PosixShell

open CText

inductive ByteClass where
  | blank
  | operator
  | comment
  | backslash
  | singleQuote
  | doubleQuote
  | expansion
  | ordinary
  deriving DecidableEq, Repr

def operatorStarts : List Byte := lit "&;<>|()\n"

def operators : List (List Byte) :=
  [lit "&&", lit "||", lit ";;", lit "<<", lit ">>", lit "<&", lit ">&", lit "<>", lit "<<-",
    lit ">|"]

def newline : Byte := 10

def classify (c : Byte) : ByteClass :=
  if c = 32 ∨ c = 9 then .blank
  else if c ∈ operatorStarts then .operator
  else if c = 35 then .comment
  else if c = 92 then .backslash
  else if c = 39 then .singleQuote
  else if c = 34 then .doubleQuote
  else if c = 36 ∨ c = 96 then .expansion
  else .ordinary

abbrev Piece := Byte × Bool

inductive Token where
  | word (pieces : List Piece)
  | op (bytes : List Byte)
  deriving DecidableEq, Repr

inductive Mode where
  | start
  | word (cur : List Piece)
  | op (bytes : List Byte)
  | opEscape (bytes : List Byte)
  | escape (cur : Option (List Piece))
  | single (cur : List Piece)
  | double (cur : List Piece)
  | doubleEscape (cur : List Piece)
  | comment
  deriving DecidableEq, Repr

/-- The first byte of a token. There is no result for the beginning of an
expansion, here and below. -/
def beginToken (c : Byte) : Option Mode :=
  match classify c with
  | .blank => some .start
  | .operator => some (.op [c])
  | .comment => some .comment
  | .backslash => some (.escape none)
  | .singleQuote => some (.single [])
  | .doubleQuote => some (.double [])
  | .expansion => none
  | .ordinary => some (.word [(c, false)])

def continueWord (cur : List Piece) (c : Byte) : Option (List Token × Mode) :=
  match classify c with
  | .blank => some ([.word cur], .start)
  | .operator => some ([.word cur], .op [c])
  | .backslash => some ([], .escape (some cur))
  | .singleQuote => some ([], .single cur)
  | .doubleQuote => some ([], .double cur)
  | .expansion => none
  | .comment | .ordinary => some ([], .word (cur ++ [(c, false)]))

def lexStep : Mode → Byte → Option (List Token × Mode)
  | .start, c => (beginToken c).map (fun mode => ([], mode))
  | .word cur, c => continueWord cur c
  | .op o, c =>
    if o ++ [c] ∈ operators then some ([], .op (o ++ [c]))
    else if c = 92 then some ([], .opEscape o)
    else (beginToken c).map (fun mode => ([.op o], mode))
  | .opEscape o, c => if c = newline then some ([], .op o) else some ([.op o], .word [(c, true)])
  | .escape cur, c =>
    if c = newline then some ([], cur.elim .start .word)
    else some ([], .word (cur.getD [] ++ [(c, true)]))
  | .single cur, c => if c = 39 then some ([], .word cur)
      else some ([], .single (cur ++ [(c, true)]))
  | .double cur, c =>
    if c = 34 then some ([], .word cur)
    else if c = 92 then some ([], .doubleEscape cur)
    else if c = 36 ∨ c = 96 then none
    else some ([], .double (cur ++ [(c, true)]))
  | .doubleEscape cur, c =>
    if c = newline then some ([], .double cur)
    else if c = 34 ∨ c = 92 ∨ c = 36 ∨ c = 96 then some ([], .double (cur ++ [(c, true)]))
    else some ([], .double (cur ++ [(92, true), (c, true)]))
  | .comment, c => if c = newline then some ([], .op [c]) else some ([], .comment)

def lexEnd : Mode → Option (List Token)
  | .start => some []
  | .word cur => some [.word cur]
  | .op o => some [.op o]
  | .comment => some []
  | _ => none

/-- The tokens of a text, if all quotes are closed and there is no expansion
introduced by a dollar sign or a backquote. -/
def lex : Mode → List Byte → Option (List Token)
  | mode, [] => lexEnd mode
  | mode, c :: s =>
    match lexStep mode c with
    | none => none
    | some (ts, mode') => (lex mode' s).map (ts ++ ·)

def patterns : List Byte := lit "*?["

/-- The argument that a token stands for: a word without a pattern and without
a tilde in front, its quotes removed. An unquoted bracket counts as a pattern,
also where it is not closed. -/
def argument : Token → Option (List Byte)
  | .op _ => none
  | .word pieces =>
    if pieces.any (fun p => !p.2 && p.1 ∈ patterns) = true ∨
      pieces.head? = some (126, false) then none
    else some (pieces.map Prod.fst)

def reserved : List (List Byte) :=
  [lit "!", lit "\x7b", lit "\x7d", lit "case", lit "do", lit "done", lit "elif", lit "else",
    lit "esac", lit "fi", lit "for", lit "if", lit "in", lit "then", lit "until", lit "while"]

def isName (w : List Byte) : Bool :=
  w.head?.any (fun c => !isDigit c) &&
    w.all (fun c => isDigit c || (65 ≤ c && c ≤ 90) || (97 ≤ c && c ≤ 122) || c == 95)

def isAssignment (pieces : List Piece) : Bool :=
  let name := pieces.takeWhile (fun p => p.1 != 61)
  isName (name.map Prod.fst) && name.all (fun p => !p.2) && pieces[name.length]? == some (61, false)

def namesCommand : Token → Bool
  | .op _ => false
  | .word pieces =>
    !(pieces.map Prod.fst ∈ reserved && pieces.all (fun p => !p.2)) && !isAssignment pieces

def arguments : List Token → Option (List (List Byte))
  | [] => some []
  | t :: ts => (argument t).bind (fun w => (arguments ts).map (w :: ·))

def simpleCommand : List Token → Option (List (List Byte))
  | [] => none
  | t :: ts => if namesCommand t then arguments (t :: ts) else none

/-- The argument vector of a text that is one simple command run in the
background, without redirections, and whose words undergo no expansion. -/
def backgroundArgv (s : List Byte) : Option (List (List Byte)) :=
  match lex .start s with
  | none => none
  | some ts => if ts.getLast? = some (.op (lit "&")) then simpleCommand ts.dropLast else none

/-! What the lexer keeps of its input. -/

def Token.bytes : Token → List Byte
  | .word pieces => pieces.map Prod.fst
  | .op _ => []

def wordBytes (ts : List Token) : List Byte := (ts.map Token.bytes).flatten

def Mode.pending : Mode → List Byte
  | .word cur | .single cur | .double cur => cur.map Prod.fst
  | .escape cur => (cur.getD []).map Prod.fst
  | .doubleEscape cur => cur.map Prod.fst ++ [92]
  | .start | .op _ | .opEscape _ | .comment => []

theorem wordBytes_append (ts us : List Token) :
    wordBytes (ts ++ us) = wordBytes ts ++ wordBytes us := by
  simp [wordBytes]

theorem beginToken_pending {c : Byte} {mode : Mode} (h : beginToken c = some mode) :
    mode.pending.Sublist [c] := by
  cases hc : classify c <;> simp only [beginToken, hc, Option.some.injEq, reduceCtorEq] at h <;>
    subst h <;> simp [Mode.pending]

theorem continueWord_sublist {cur : List Piece} {c : Byte} {ts : List Token} {mode : Mode}
    (h : continueWord cur c = some (ts, mode)) :
    (wordBytes ts ++ mode.pending).Sublist (cur.map Prod.fst ++ [c]) := by
  cases hc : classify c <;>
    simp only [continueWord, hc, Option.some.injEq, Prod.mk.injEq, reduceCtorEq] at h <;>
    obtain ⟨rfl, rfl⟩ := h <;> simp [Mode.pending, wordBytes, Token.bytes]

theorem lexStep_sublist {mode mode' : Mode} {c : Byte} {ts : List Token}
    (h : lexStep mode c = some (ts, mode')) :
    (wordBytes ts ++ mode'.pending).Sublist (mode.pending ++ [c]) := by
  cases mode with
  | start =>
    obtain ⟨m, hm, he⟩ := Option.map_eq_some_iff.mp h
    obtain ⟨rfl, rfl⟩ := Prod.mk.inj he
    exact beginToken_pending hm
  | word cur => exact continueWord_sublist h
  | op o =>
    rw [lexStep] at h
    split_ifs at h with h1 h2
    · obtain ⟨rfl, rfl⟩ := Prod.mk.inj (Option.some.inj h)
      simp [wordBytes, Mode.pending]
    · obtain ⟨rfl, rfl⟩ := Prod.mk.inj (Option.some.inj h)
      simp [wordBytes, Mode.pending]
    · obtain ⟨m, hm, he⟩ := Option.map_eq_some_iff.mp h
      obtain ⟨rfl, rfl⟩ := Prod.mk.inj he
      exact beginToken_pending hm
  | escape cur =>
    rw [lexStep] at h
    split_ifs at h <;> obtain ⟨rfl, rfl⟩ := Prod.mk.inj (Option.some.inj h)
    · cases cur <;> simp [wordBytes, Mode.pending]
    · simp [wordBytes, Mode.pending]
  | double cur =>
    rw [lexStep] at h
    split_ifs at h with h1 h2 <;> obtain ⟨rfl, rfl⟩ := Prod.mk.inj (Option.some.inj h)
    · simp [wordBytes, Mode.pending]
    · simp [wordBytes, Mode.pending, h2]
    · simp [wordBytes, Mode.pending]
  | opEscape o | single cur | doubleEscape cur | comment =>
    rw [lexStep] at h
    split_ifs at h <;> obtain ⟨rfl, rfl⟩ := Prod.mk.inj (Option.some.inj h) <;>
      simp [wordBytes, Mode.pending, Token.bytes]

theorem lex_cons {mode : Mode} {c : Byte} {s : List Byte} {ts : List Token}
    (h : lex mode (c :: s) = some ts) :
    ∃ us mode' vs, lexStep mode c = some (us, mode') ∧ lex mode' s = some vs ∧ ts = us ++ vs := by
  rw [lex] at h
  cases hs : lexStep mode c with
  | none => simp [hs] at h
  | some result =>
    obtain ⟨us, mode'⟩ := result
    rw [hs] at h
    obtain ⟨vs, hv, rfl⟩ := Option.map_eq_some_iff.mp h
    exact ⟨us, mode', vs, rfl, hv, rfl⟩

theorem lex_sublist {mode : Mode} {s : List Byte} {ts : List Token} (h : lex mode s = some ts) :
    (wordBytes ts).Sublist (mode.pending ++ s) := by
  induction s generalizing mode ts with
  | nil =>
    cases mode <;> simp only [lex, lexEnd, Option.some.injEq, reduceCtorEq] at h <;> subst h <;>
      simp [wordBytes, Token.bytes, Mode.pending]
  | cons c s ih =>
    obtain ⟨us, mode', vs, hs, hv, rfl⟩ := lex_cons h
    have hstep := (lexStep_sublist hs).append_right s
    rw [List.append_assoc, List.append_assoc] at hstep
    rw [wordBytes_append]
    exact ((ih hv).append_left _).trans hstep

end PosixShell
