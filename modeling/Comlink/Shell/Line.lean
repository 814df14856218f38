import Comlink.Shell.Unquoted

/-! Command lines written as words with blanks between them. They give back
their words exactly when no byte of a word is special to the shell. -/

namespace PosixShell

open CText

def line (words : List (List Byte)) : List Byte := (words.map (· ++ [32])).flatten ++ lit "&"

/-- A byte that means itself wherever it stands in a word, the front apart. -/
def isPlain (c : Byte) : Bool := isWordByte c && c ∉ patterns

def PlainHead (w : List Byte) : Prop := w.head? ≠ some 35 ∧ w.head? ≠ some 126

instance (w : List Byte) : Decidable (PlainHead w) := inferInstanceAs (Decidable (_ ∧ _))

theorem arguments_spec {ts : List Token} {ws : List (List Byte)} (h : arguments ts = some ws) :
    wordBytes ts = ws.flatten ∧
      ∀ w ∈ ws, ∃ pieces, .word pieces ∈ ts ∧ argument (.word pieces) = some w := by
  induction ts generalizing ws with
  | nil =>
    obtain rfl : [] = ws := Option.some.inj h
    exact ⟨rfl, by simp⟩
  | cons t ts ih =>
    obtain ⟨w, hw, h⟩ := Option.bind_eq_some_iff.mp h
    obtain ⟨us, hus, rfl⟩ := Option.map_eq_some_iff.mp h
    obtain ⟨hbytes, hall⟩ := ih hus
    cases t with
    | op o => simp [argument] at hw
    | word pieces =>
      have hfst : pieces.map Prod.fst = w := by
        rw [argument] at hw
        split_ifs at hw
        exact Option.some.inj hw
      constructor
      · change pieces.map Prod.fst ++ wordBytes ts = w ++ us.flatten
        rw [hfst, hbytes]
      · intro u hu
        rcases List.mem_cons.mp hu with rfl | hu
        · exact ⟨pieces, List.mem_cons_self, hw⟩
        · obtain ⟨ps, hps, harg⟩ := hall u hu
          exact ⟨ps, List.mem_cons_of_mem _ hps, harg⟩

theorem backgroundArgv_eq_some {s : List Byte} {ws : List (List Byte)}
    (h : backgroundArgv s = some ws) :
    ∃ ts, lex .start s = some (ts ++ [.op (lit "&")]) ∧ arguments ts = some ws := by
  rw [backgroundArgv] at h
  cases hl : lex .start s with
  | none => simp [hl] at h
  | some ts =>
    simp only [hl] at h
    split_ifs at h with hlast
    obtain ⟨us, rfl⟩ := List.getLast?_eq_some_iff.mp hlast
    rw [List.dropLast_concat] at h
    refine ⟨us, rfl, ?_⟩
    cases us with
    | nil => simp [simpleCommand] at h
    | cons t us =>
      rw [simpleCommand] at h
      split_ifs at h
      exact h

theorem subset_of_backgroundArgv {s w : List Byte} {ws : List (List Byte)}
    (h : backgroundArgv s = some ws) (hw : w ∈ ws) : w ⊆ s := by
  obtain ⟨ts, hl, ha⟩ := backgroundArgv_eq_some h
  have hsub := lex_sublist hl
  rw [wordBytes_append, (arguments_spec ha).1] at hsub
  intro c hc
  have hm : c ∈ ws.flatten ++ wordBytes [.op (lit "&")] :=
    List.mem_append_left _ (List.mem_flatten_of_mem hw hc)
  simpa [Mode.pending] using hsub.subset hm

theorem plain_of_plainWord {pieces : List Piece} {w : List Byte} (h : PlainWord pieces)
    (ha : argument (.word pieces) = some w) : w ≠ [] ∧ ∀ c ∈ w, isPlain c = true := by
  rw [argument] at ha
  split_ifs at ha with hexp
  obtain rfl := Option.some.inj ha
  refine ⟨by simpa using h.ne_nil, ?_⟩
  intro c hc
  obtain ⟨p, hp, rfl⟩ := List.mem_map.mp hc
  have hall := h.all p hp
  have hpat : p.1 ∉ patterns := by
    intro hm
    refine hexp (Or.inl (List.any_eq_true.mpr ⟨p, hp, ?_⟩))
    simp [hall.1, hm]
  simp [isPlain, hall.2, hpat]

theorem countP_line (ws : List (List Byte)) :
    (line ws).countP isQuote = ws.flatten.countP isQuote := by
  have hamp : (lit "&").countP isQuote = 0 := by decide
  have hblank : [(32 : Byte)].countP isQuote = 0 := by decide
  rw [line, List.countP_append, hamp]
  induction ws with
  | nil => rfl
  | cons w ws ih =>
    simp only [List.map_cons, List.flatten_cons, List.countP_append, hblank] at ih ⊢
    omega

theorem plain_of_backgroundArgv {ws : List (List Byte)} (h : backgroundArgv (line ws) = some ws) :
    ∀ w ∈ ws, w ≠ [] ∧ ∀ c ∈ w, isPlain c = true := by
  obtain ⟨ts, hl, ha⟩ := backgroundArgv_eq_some h
  obtain ⟨hbytes, hall⟩ := arguments_spec ha
  have hq : ∀ c ∈ line ws, isQuote c = false := by
    apply no_quote_of_countP_le hl
    rw [wordBytes_append, hbytes, countP_line]
    exact (List.sublist_append_left _ _).countP_le
  have hstart : Mode.start.Plain := trivial
  intro w hw
  obtain ⟨pieces, hp, harg⟩ := hall w hw
  exact plain_of_plainWord (lex_plain hstart hq hl pieces (List.mem_append_left _ hp)) harg

def unquoted (w : List Byte) : Token := .word (w.map (fun c => (c, false)))

theorem line_cons (w : List Byte) (ws : List (List Byte)) :
    line (w :: ws) = w ++ 32 :: line ws := by
  simp [line]

theorem continueWord_of_isWordByte {c : Byte} (h : isWordByte c = true) (cur : List Piece) :
    continueWord cur c = some ([], .word (cur ++ [(c, false)])) := by
  cases hc : classify c <;> simp [isWordByte, hc] at h <;> simp [continueWord, hc]

theorem lex_word {w : List Byte} (hw : ∀ c ∈ w, isWordByte c = true) (cur : List Piece)
    (s : List Byte) :
    lex (.word cur) (w ++ 32 :: s) =
      (lex .start s).map (.word (cur ++ w.map (fun c => (c, false))) :: ·) := by
  induction w generalizing cur with
  | nil =>
    have hb : lexStep (.word cur) 32 = some ([.word cur], .start) := rfl
    simp [lex, hb]
  | cons c w ih =>
    have hc : lexStep (.word cur) c = some ([], .word (cur ++ [(c, false)])) :=
      continueWord_of_isWordByte (hw c List.mem_cons_self) cur
    rw [List.cons_append, lex, hc]
    simp only [List.nil_append, Option.map_id']
    rw [ih (fun b hb => hw b (List.mem_cons_of_mem c hb))]
    simp

theorem classify_eq_comment {c : Byte} : classify c = .comment ↔ c = 35 := by
  constructor
  · intro h
    rw [classify] at h
    split_ifs at h
    assumption
  · rintro rfl
    rfl

theorem classify_of_isWordByte {c : Byte} (h : isWordByte c = true) (hne : c ≠ 35) :
    classify c = .ordinary := by
  cases hc : classify c <;> simp [isWordByte, hc] at h
  · exact absurd (classify_eq_comment.mp hc) hne
  · rfl

theorem lex_line_cons {w : List Byte} (hne : w ≠ []) (hw : ∀ c ∈ w, isWordByte c = true)
    (hhead : w.head? ≠ some 35) (ws : List (List Byte)) :
    lex .start (line (w :: ws)) = (lex .start (line ws)).map (unquoted w :: ·) := by
  obtain ⟨c, w, rfl⟩ := List.exists_cons_of_ne_nil hne
  have hc : classify c = .ordinary :=
    classify_of_isWordByte (hw c List.mem_cons_self) (fun he => hhead (by simp [he]))
  have hstep : lexStep .start c = some ([], .word [(c, false)]) := by simp [lexStep, beginToken, hc]
  rw [line_cons, List.cons_append, lex, hstep]
  simp only [List.nil_append, Option.map_id']
  rw [lex_word (fun b hb => hw b (List.mem_cons_of_mem c hb))]
  rfl

theorem lex_line {ws : List (List Byte)} (hne : ∀ w ∈ ws, w ≠ [])
    (hw : ∀ w ∈ ws, ∀ c ∈ w, isWordByte c = true) (hhead : ∀ w ∈ ws, w.head? ≠ some 35) :
    lex .start (line ws) = some (ws.map unquoted ++ [.op (lit "&")]) := by
  induction ws with
  | nil => rfl
  | cons w ws ih =>
    rw [lex_line_cons (hne w List.mem_cons_self) (hw w List.mem_cons_self)
      (hhead w List.mem_cons_self), ih (fun u hu => hne u (List.mem_cons_of_mem w hu))
      (fun u hu => hw u (List.mem_cons_of_mem w hu))
        (fun u hu => hhead u (List.mem_cons_of_mem w hu))]
    rfl

theorem lex_comment {s : List Byte} (h : newline ∉ s) : lex .comment s = some [] := by
  induction s with
  | nil => rfl
  | cons c s ih =>
    have hc : c ≠ newline := fun he => h (by simp [he])
    rw [lex, lexStep, if_neg hc]
    simp [ih (fun hm => h (List.mem_cons_of_mem c hm))]

theorem newline_notMem_line {ws : List (List Byte)} (hw : ∀ w ∈ ws, ∀ c ∈ w, isWordByte c = true) :
    newline ∉ line ws := by
  intro hm
  rw [line] at hm
  rcases List.mem_append.mp hm with hm | hm
  · obtain ⟨l, hl, hc⟩ := List.mem_flatten.mp hm
    obtain ⟨w, hin, rfl⟩ := List.mem_map.mp hl
    rcases List.mem_append.mp hc with hc | hc
    · exact absurd (hw w hin newline hc) (by decide)
    · exact absurd hc (by decide)
  · exact absurd hm (by decide)

/-- A number sign in front of a word hides the rest of the line. -/
theorem lex_line_comment {ws : List (List Byte)} (hne : ∀ w ∈ ws, w ≠ [])
    (hw : ∀ w ∈ ws, ∀ c ∈ w, isWordByte c = true) (hhead : ∃ w ∈ ws, w.head? = some 35) :
    ∃ us : List (List Byte), lex .start (line ws) = some (us.map unquoted) := by
  induction ws with
  | nil => simp at hhead
  | cons w ws ih =>
    by_cases hh : w.head? = some 35
    · obtain ⟨w', rfl⟩ := List.head?_eq_some_iff.mp hh
      have hstep : lexStep .start 35 = some ([], .comment) := rfl
      refine ⟨[], ?_⟩
      have hnl := newline_notMem_line hw
      rw [line_cons, List.cons_append] at hnl
      rw [line_cons, List.cons_append, lex, hstep]
      simp [lex_comment (fun hm => hnl (List.mem_cons_of_mem _ hm))]
    · have hrest : ∃ u ∈ ws, u.head? = some 35 := by
        obtain ⟨u, hu, hu'⟩ := hhead
        rcases List.mem_cons.mp hu with rfl | hu
        · exact absurd hu' hh
        · exact ⟨u, hu, hu'⟩
      obtain ⟨us, hus⟩ := ih (fun u hu => hne u (List.mem_cons_of_mem w hu))
        (fun u hu => hw u (List.mem_cons_of_mem w hu)) hrest
      refine ⟨w :: us, ?_⟩
      rw [lex_line_cons (hne w List.mem_cons_self) (hw w List.mem_cons_self) hh, hus]
      rfl

theorem argument_unquoted {w : List Byte} (h : ∀ c ∈ w, isPlain c = true) :
    argument (unquoted w) = if w.head? = some 126 then none else some w := by
  have hpat : ¬ (w.map (fun c => (c, false))).any (fun p => !p.2 && p.1 ∈ patterns) = true := by
    intro hany
    obtain ⟨p, hp, hin⟩ := List.any_eq_true.mp hany
    obtain ⟨c, hc, rfl⟩ := List.mem_map.mp hp
    have hplain := h c hc
    simp only [isPlain, Bool.and_eq_true, decide_eq_true_eq] at hplain
    exact hplain.2 (by simpa using hin)
  have hhead : (w.map (fun c => (c, false))).head? = some (126, false) ↔ w.head? = some 126 := by
    cases w <;> simp
  rw [unquoted, argument]
  by_cases hw : w.head? = some 126
  · rw [if_pos hw, if_pos (Or.inr (hhead.mpr hw))]
  · rw [if_neg hw, if_neg (not_or.mpr ⟨hpat, fun he => hw (hhead.mp he)⟩), List.map_map]
    simp [Function.comp_def]

theorem arguments_unquoted {ws us : List (List Byte)} (h : ∀ w ∈ ws, ∀ c ∈ w, isPlain c = true) :
    arguments (ws.map unquoted) = some us ↔ us = ws ∧ ∀ w ∈ ws, w.head? ≠ some 126 := by
  induction ws generalizing us with
  | nil => simp [arguments, eq_comm]
  | cons w ws ih =>
    rw [List.map_cons, arguments, argument_unquoted (h w List.mem_cons_self)]
    by_cases hw : w.head? = some 126
    · simp [hw]
    · rw [if_neg hw, Option.bind_some, Option.map_eq_some_iff]
      simp only [ih (fun u hu => h u (List.mem_cons_of_mem w hu))]
      constructor
      · rintro ⟨vs, ⟨rfl, hall⟩, rfl⟩
        exact ⟨rfl, by simpa [hw] using hall⟩
      · rintro ⟨rfl, hall⟩
        exact ⟨ws, ⟨rfl, fun u hu => hall u (List.mem_cons_of_mem w hu)⟩, rfl⟩

/-- A command line of plain words gives its words, unless one of them begins a
comment or a tilde expansion. -/
theorem backgroundArgv_line_iff {w : List Byte} {ws us : List (List Byte)}
    (hname : namesCommand (unquoted w) = true) (hne : ∀ u ∈ w :: ws, u ≠ [])
    (hplain : ∀ u ∈ w :: ws, ∀ c ∈ u, isPlain c = true) :
    backgroundArgv (line (w :: ws)) = some us ↔ us = w :: ws ∧ ∀ u ∈ w :: ws, PlainHead u := by
  have hword : ∀ u ∈ w :: ws, ∀ c ∈ u, isWordByte c = true := by
    intro u hu c hc
    have hp := hplain u hu c hc
    rw [isPlain, Bool.and_eq_true] at hp
    exact hp.1
  by_cases hx : ∃ u ∈ w :: ws, u.head? = some 35
  · obtain ⟨vs, hvs⟩ := lex_line_comment hne hword hx
    obtain ⟨u, hu, hhead⟩ := hx
    refine iff_of_false (fun h => ?_) (fun h => (h.2 u hu).1 hhead)
    obtain ⟨ts, hl, -⟩ := backgroundArgv_eq_some h
    have hm : Token.op (lit "&") ∈ vs.map unquoted := by
      rw [Option.some.inj (hvs.symm.trans hl)]
      simp
    obtain ⟨v, -, hv⟩ := List.mem_map.mp hm
    exact absurd hv (by simp [unquoted])
  · have hhead : ∀ u ∈ w :: ws, u.head? ≠ some 35 := fun u hu he => hx ⟨u, hu, he⟩
    have hl := lex_line hne hword hhead
    have hsimple : simpleCommand ((w :: ws).map unquoted) = arguments ((w :: ws).map unquoted) := by
      rw [List.map_cons, simpleCommand, if_pos hname]
    have hb : backgroundArgv (line (w :: ws)) = arguments ((w :: ws).map unquoted) := by
      simp only [backgroundArgv, hl]
      rw [if_pos (List.getLast?_concat ..), List.dropLast_concat, hsimple]
    rw [hb, arguments_unquoted hplain]
    refine and_congr_right (fun _ => ?_)
    exact ⟨fun h u hu => ⟨hhead u hu, h u hu⟩, fun h u hu => (h u hu).2⟩

end PosixShell
