import Comlink.Shell.Lexer

/-! Texts without quotes. A quote that has its special meaning is dropped, so a
text that keeps all its quotes has none, and its words are unquoted. -/

namespace PosixShell

open CText

def isQuote (c : Byte) : Bool :=
  match classify c with
  | .backslash | .singleQuote | .doubleQuote => true
  | _ => false

def isWordByte (c : Byte) : Bool :=
  match classify c with
  | .comment | .ordinary => true
  | _ => false

/-- A word without quotes. A number sign may be in it but not in front. -/
structure PlainWord (pieces : List Piece) : Prop where
  ne_nil : pieces ≠ []
  head : ∀ p ∈ pieces.head?, classify p.1 = .ordinary
  all : ∀ p ∈ pieces, p.2 = false ∧ isWordByte p.1 = true

def Mode.Plain : Mode → Prop
  | .start | .op _ | .comment => True
  | .word cur => PlainWord cur
  | _ => False

theorem isQuote_of_eq {c : Byte} (h : c = 92) : isQuote c = true := by
  subst h
  decide

theorem not_operator_append_quote {o : List Byte} {c : Byte} (h : isQuote c = true) :
    o ++ [c] ∉ operators := by
  intro hm
  have hlast : operators.all (fun w => w.getLast?.all (fun b => !isQuote b)) = true := by decide
  have hc := List.all_eq_true.mp hlast _ hm
  simp [h] at hc

theorem beginToken_quote {c : Byte} {mode : Mode} (hq : isQuote c = true)
    (h : beginToken c = some mode) : mode.pending = [] := by
  cases hc : classify c <;> simp only [isQuote, hc, reduceCtorEq] at hq <;>
    simp only [beginToken, hc, Option.some.injEq] at h <;> subst h <;> rfl

theorem lexStep_quote {mode mode' : Mode} {c : Byte} {ts : List Token} (hmode : mode.Plain)
    (hq : isQuote c = true) (h : lexStep mode c = some (ts, mode')) :
    (wordBytes ts ++ mode'.pending).Sublist mode.pending := by
  cases mode with
  | start =>
    obtain ⟨m, hm, he⟩ := Option.map_eq_some_iff.mp h
    obtain ⟨rfl, rfl⟩ := Prod.mk.inj he
    simp [beginToken_quote hq hm, wordBytes]
  | word cur =>
    cases hc : classify c <;> simp only [isQuote, hc, reduceCtorEq] at hq <;>
      simp only [lexStep, continueWord, hc, Option.some.injEq, Prod.mk.injEq] at h <;>
      obtain ⟨rfl, rfl⟩ := h <;> simp [wordBytes, Mode.pending]
  | op o =>
    rw [lexStep, if_neg (not_operator_append_quote hq)] at h
    split_ifs at h with h2
    · obtain ⟨rfl, rfl⟩ := Prod.mk.inj (Option.some.inj h)
      simp [wordBytes, Mode.pending]
    · obtain ⟨m, hm, he⟩ := Option.map_eq_some_iff.mp h
      obtain ⟨rfl, rfl⟩ := Prod.mk.inj he
      simp [beginToken_quote hq hm, wordBytes, Token.bytes]
  | comment =>
    rw [lexStep] at h
    split_ifs at h <;> obtain ⟨rfl, rfl⟩ := Prod.mk.inj (Option.some.inj h) <;>
      simp [wordBytes, Mode.pending]
  | opEscape | escape | single | double | doubleEscape => exact hmode.elim

theorem beginToken_plain {c : Byte} {mode : Mode} (hq : isQuote c = false)
    (h : beginToken c = some mode) : mode.Plain := by
  cases hc : classify c <;> simp only [isQuote, hc, reduceCtorEq] at hq <;>
    simp only [beginToken, hc, Option.some.injEq, reduceCtorEq] at h <;> subst h <;> try trivial
  exact ⟨by simp, by simp [hc], by simp [isWordByte, hc]⟩

theorem PlainWord.snoc {cur : List Piece} (h : PlainWord cur) {c : Byte}
    (hc : isWordByte c = true) :
    PlainWord (cur ++ [(c, false)]) := by
  refine ⟨by simp, ?_, ?_⟩
  · rw [List.head?_append_of_ne_nil _ h.ne_nil]
    exact h.head
  · intro p hp
    rcases List.mem_append.mp hp with hp | hp
    · exact h.all p hp
    · rw [List.mem_singleton.mp hp]
      exact ⟨rfl, hc⟩

theorem lexStep_plain {mode mode' : Mode} {c : Byte} {ts : List Token} (hmode : mode.Plain)
    (hq : isQuote c = false) (h : lexStep mode c = some (ts, mode')) :
    mode'.Plain ∧ ∀ pieces, .word pieces ∈ ts → PlainWord pieces := by
  cases mode with
  | start =>
    obtain ⟨m, hm, he⟩ := Option.map_eq_some_iff.mp h
    obtain ⟨rfl, rfl⟩ := Prod.mk.inj he
    exact ⟨beginToken_plain hq hm, by simp⟩
  | word cur =>
    have hcur : PlainWord cur := hmode
    cases hc : classify c <;> simp only [isQuote, hc, reduceCtorEq] at hq <;>
      simp only [lexStep, continueWord, hc, Option.some.injEq, Prod.mk.injEq, reduceCtorEq] at h <;>
      obtain ⟨rfl, rfl⟩ := h
    · exact ⟨trivial, by simpa using hcur⟩
    · exact ⟨trivial, by simpa using hcur⟩
    · exact ⟨hcur.snoc (by simp [isWordByte, hc]), by simp⟩
    · exact ⟨hcur.snoc (by simp [isWordByte, hc]), by simp⟩
  | op o =>
    rw [lexStep] at h
    split_ifs at h with h1 h2
    · obtain ⟨rfl, rfl⟩ := Prod.mk.inj (Option.some.inj h)
      exact ⟨trivial, by simp⟩
    · simp [isQuote_of_eq h2] at hq
    · obtain ⟨m, hm, he⟩ := Option.map_eq_some_iff.mp h
      obtain ⟨rfl, rfl⟩ := Prod.mk.inj he
      exact ⟨beginToken_plain hq hm, by simp⟩
  | comment =>
    rw [lexStep] at h
    split_ifs at h <;> obtain ⟨rfl, rfl⟩ := Prod.mk.inj (Option.some.inj h) <;>
      exact ⟨trivial, by simp⟩
  | opEscape | escape | single | double | doubleEscape => exact hmode.elim

theorem lex_plain {mode : Mode} {s : List Byte} {ts : List Token} (hmode : mode.Plain)
    (hq : ∀ c ∈ s, isQuote c = false) (h : lex mode s = some ts) :
    ∀ pieces, .word pieces ∈ ts → PlainWord pieces := by
  induction s generalizing mode ts with
  | nil =>
    intro pieces hp
    cases mode <;> simp only [lex, lexEnd, Option.some.injEq, reduceCtorEq] at h <;> subst h <;>
      simp only [List.mem_singleton, List.not_mem_nil, Token.word.injEq, reduceCtorEq] at hp
    subst hp
    exact hmode
  | cons c s ih =>
    obtain ⟨us, mode', vs, hs, hv, rfl⟩ := lex_cons h
    obtain ⟨hmode', hus⟩ := lexStep_plain hmode (hq c List.mem_cons_self) hs
    intro pieces hp
    rcases List.mem_append.mp hp with hp | hp
    · exact hus pieces hp
    · exact ih hmode' (fun b hb => hq b (List.mem_cons_of_mem c hb)) hv pieces hp

theorem lex_sublist_of_quote {mode : Mode} {u v : List Byte} {c : Byte} {ts : List Token}
    (hmode : mode.Plain) (hu : ∀ b ∈ u, isQuote b = false) (hc : isQuote c = true)
    (h : lex mode (u ++ c :: v) = some ts) : (wordBytes ts).Sublist (mode.pending ++ (u ++ v)) := by
  induction u generalizing mode ts with
  | nil =>
    obtain ⟨us, mode', vs, hs, hv, rfl⟩ := lex_cons h
    have hstep := (lexStep_quote hmode hc hs).append_right v
    rw [List.append_assoc] at hstep
    rw [wordBytes_append]
    exact ((lex_sublist hv).append_left _).trans hstep
  | cons b u ih =>
    obtain ⟨us, mode', vs, hs, hv, rfl⟩ := lex_cons h
    have hmode' := (lexStep_plain hmode (hu b List.mem_cons_self) hs).1
    have hrest := ih hmode' (fun d hd => hu d (List.mem_cons_of_mem b hd)) hv
    have hstep := (lexStep_sublist hs).append_right (u ++ v)
    rw [List.append_assoc, List.append_assoc] at hstep
    rw [wordBytes_append]
    exact (hrest.append_left _).trans hstep

/-- A text that loses no quote in its words has none. -/
theorem no_quote_of_countP_le {s : List Byte} {ts : List Token} (h : lex .start s = some ts)
    (hcount : s.countP isQuote ≤ (wordBytes ts).countP isQuote) : ∀ c ∈ s, isQuote c = false := by
  cases hd : s.dropWhile (fun c => !isQuote c) with
  | nil =>
    intro c hc
    simpa using List.dropWhile_eq_nil_iff.mp hd c hc
  | cons c v =>
    exfalso
    have hc : isQuote c = true := by simpa using eq_false_of_dropWhile hd
    have hu : ∀ b ∈ s.takeWhile (fun c => !isQuote c), isQuote b = false := by
      intro b hb
      simpa using List.mem_takeWhile_imp hb
    have hs : s = s.takeWhile (fun c => !isQuote c) ++ c :: v := by
      rw [← hd, List.takeWhile_append_dropWhile]
    rw [hs] at h hcount
    have hstart : Mode.start.Plain := trivial
    have hle := (lex_sublist_of_quote hstart hu hc h).countP_le (p := isQuote)
    simp only [Mode.pending, List.nil_append, List.countP_append, List.countP_cons, hc, if_true]
      at hle hcount
    omega

end PosixShell
