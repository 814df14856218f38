import Comlink.Plugin

/-! The joint invariant of the session list, the shared message slot and the
message numbers, and what it says about the writes of a whole run. -/

namespace Comlink

open CText StepSystem

def Server.numbersTo (σ : Server) (s : SessionId) : List Int :=
  (σ.writes.filter (fun w => w.1 = s)).map (fun w => w.2.1)

def Event.isReceive (e : Event) : Bool :=
  match e.reason with
  | .receive _ _ _ => true
  | _ => false

structure Numbered (σ : Server) : Prop where
  chain : σ.plugin.sessions.Represents σ.live
  nodup : σ.live.Nodup
  linked : σ.live.length ≤ σ.plugin.linked
  live_known : ∀ s ∈ σ.live, s ∈ σ.known
  writes_known : ∀ w ∈ σ.writes, w.1 ∈ σ.known
  counted : σ.plugin.current = σ.replies.length
  joined_le : ∀ s ∈ σ.live, σ.joined s ≤ σ.plugin.last s
  last_le : ∀ s ∈ σ.live, σ.plugin.last s ≤ σ.plugin.current
  pending : ∀ p, σ.plugin.amsg.payload = some p →
    (∃ t, σ.replies.getLast? = some (t, p)) ∧ σ.plugin.amsg.len = p.length
  written_le : ∀ w ∈ σ.writes, w.1 ∈ σ.live → w.2.1 ≤ σ.plugin.last w.1
  increasing : ∀ s, (σ.numbersTo s).Pairwise (· < ·)
  after_joining : ∀ w ∈ σ.writes, σ.joined w.1 < w.2.1
  content : ∀ w ∈ σ.writes, 0 < w.2.1 ∧ ∃ t, σ.replies[(w.2.1 - 1).toNat]? = some (t, w.2.2)

theorem Numbered.init : Numbered .init where
  chain := rfl
  nodup := by simp [Server.init]
  linked := by simp [Server.init]
  live_known := by simp [Server.init]
  writes_known := by simp [Server.init]
  counted := rfl
  joined_le := by simp [Server.init]
  last_le := by simp [Server.init]
  pending := by simp [Server.init, Plugin.init]
  written_le := by simp [Server.init]
  increasing := by simp [Server.init, Server.numbersTo]
  after_joining := by simp [Server.init]
  content := by simp [Server.init]

section Steps

variable {ndebug : Bool} {σ : Server}

theorem Numbered.established (h : Numbered σ) {s : SessionId} (hs : s ∉ σ.known) :
    Numbered { σ with
      plugin := { σ.plugin with
        sessions := σ.plugin.sessions.insertFront s
        linked := σ.plugin.linked + 1
        last := Function.update σ.plugin.last s σ.plugin.current }
      live := s :: σ.live
      known := s :: σ.known
      asked := Function.update σ.asked s false
      joined := Function.update σ.joined s σ.plugin.current } := by
  have hlive : s ∉ σ.live := fun hm => hs (h.live_known s hm)
  have hw : ∀ w ∈ σ.writes, w.1 ≠ s := fun w hm he => hs (he ▸ h.writes_known w hm)
  have hne : ∀ t ∈ σ.live, t ≠ s := fun t ht he => hlive (he ▸ ht)
  refine ⟨IntrusiveList.insertFront_represents hlive h.chain, List.nodup_cons.mpr ⟨hlive, h.nodup⟩,
    by simpa using h.linked, ?_, ?_, h.counted, ?_, ?_, h.pending, ?_, h.increasing, ?_, h.content⟩
  · intro t ht
    exact List.mem_cons.mpr ((List.mem_cons.mp ht).imp_right (h.live_known t))
  · intro w hm
    exact List.mem_cons_of_mem _ (h.writes_known w hm)
  · intro t ht
    rcases List.mem_cons.mp ht with rfl | ht
    · simp
    · simpa [Function.update_of_ne (hne t ht)] using h.joined_le t ht
  · intro t ht
    rcases List.mem_cons.mp ht with rfl | ht
    · simp
    · simpa [Function.update_of_ne (hne t ht)] using h.last_le t ht
  · intro w hm ht
    have hin : w.1 ∈ σ.live := (List.mem_cons.mp ht).resolve_left (hw w hm)
    simpa [Function.update_of_ne (hw w hm)] using h.written_le w hm hin
  · intro w hm
    simpa [Function.update_of_ne (hw w hm)] using h.after_joining w hm

theorem Numbered.closed (h : Numbered σ) (s : SessionId) :
    Numbered { σ with
      plugin := { σ.plugin with sessions := σ.plugin.sessions.remove (σ.plugin.linked + 1) s }
      live := σ.live.erase s
      asked := Function.update σ.asked s false } := by
  have hsub : ∀ t ∈ σ.live.erase s, t ∈ σ.live := fun t => List.mem_of_mem_erase
  refine ⟨IntrusiveList.remove_represents s h.nodup (Nat.lt_succ_of_le h.linked) h.chain,
    h.nodup.erase s, (List.length_erase_le).trans h.linked, fun t ht => h.live_known t (hsub t ht),
    h.writes_known, h.counted, fun t ht => h.joined_le t (hsub t ht),
    fun t ht => h.last_le t (hsub t ht), h.pending, fun w hm ht => h.written_le w hm (hsub _ ht),
    h.increasing, h.after_joining, h.content⟩

theorem Numbered.quiet (h : Numbered σ) (s : SessionId) :
    Numbered { σ with asked := Function.update σ.asked s false } :=
  ⟨h.chain, h.nodup, h.linked, h.live_known, h.writes_known, h.counted, h.joined_le, h.last_le,
    h.pending, h.written_le, h.increasing, h.after_joining, h.content⟩

theorem numbersTo_append {τ : Server} {w : SessionId × Int × List Byte} (σ : Server)
    (h : τ.writes = σ.writes ++ [w]) (s : SessionId) :
    τ.numbersTo s = σ.numbersTo s ++ if w.1 = s then [w.2.1] else [] := by
  by_cases hs : w.1 = s <;> simp [Server.numbersTo, h, List.filter_append, hs]

theorem mem_numbersTo {σ : Server} {s : SessionId} {n : Int} (h : n ∈ σ.numbersTo s) :
    ∃ w ∈ σ.writes, w.1 = s ∧ w.2.1 = n := by
  obtain ⟨w, hw, hn⟩ := List.mem_map.mp h
  obtain ⟨hm, he⟩ := List.mem_filter.mp hw
  exact ⟨w, hm, by simpa using he, hn⟩

theorem Numbered.numbersTo_le_last (h : Numbered σ) {s : SessionId} (hs : s ∈ σ.live) {n : Int}
    (hn : n ∈ σ.numbersTo s) : n ≤ σ.plugin.last s := by
  obtain ⟨w, hw, rfl, rfl⟩ := mem_numbersTo hn
  exact h.written_le w hw hs

theorem Numbered.content_current (h : Numbered σ) {p : List Byte}
    (hp : σ.plugin.amsg.payload = some p) : 0 < σ.plugin.current ∧
    ∃ t, σ.replies[(σ.plugin.current - 1).toNat]? = some (t, p.take σ.plugin.amsg.len) := by
  obtain ⟨⟨t, ht⟩, hlen⟩ := h.pending p hp
  have hpos : 0 < σ.replies.length := List.length_pos_of_ne_nil (by rintro he; simp [he] at ht)
  have hindex : (σ.plugin.current - 1).toNat = σ.replies.length - 1 := by
    rw [h.counted]
    omega
  refine ⟨by rw [h.counted]; omega, t, ?_⟩
  rw [hindex, ← List.getLast?_eq_getElem?, ht, hlen, List.take_length]

theorem Numbered.written (h : Numbered σ) {s : SessionId} {payload : List Byte} (hs : s ∈ σ.live)
    (hp : σ.plugin.amsg.payload = some payload) (hl : σ.plugin.last s ≠ σ.plugin.current) :
    Numbered { σ with
      plugin := { σ.plugin with last := Function.update σ.plugin.last s σ.plugin.current }
      asked := Function.update σ.asked s false
      writes := σ.writes ++ [(s, σ.plugin.current, payload.take σ.plugin.amsg.len)] } := by
  have hlt : σ.plugin.last s < σ.plugin.current := lt_of_le_of_ne (h.last_le s hs) hl
  refine ⟨h.chain, h.nodup, h.linked, h.live_known, ?_, h.counted, ?_, ?_, h.pending, ?_,
    ?_, ?_, ?_⟩
  · intro w hw
    rcases List.mem_append.mp hw with hw | hw
    · exact h.writes_known w hw
    · rw [List.mem_singleton.mp hw]
      exact h.live_known s hs
  · intro u hu
    by_cases he : u = s
    · subst he
      simpa using (h.joined_le u hu).trans (h.last_le u hu)
    · simpa [Function.update_of_ne he] using h.joined_le u hu
  · intro u hu
    by_cases he : u = s
    · simp [he]
    · simpa [Function.update_of_ne he] using h.last_le u hu
  · intro w hw hin
    rcases List.mem_append.mp hw with hw | hw
    · have hle := h.written_le w hw hin
      by_cases he : w.1 = s
      · rw [he] at hle
        simp only [he, Function.update_self]
        exact hle.trans (h.last_le s hs)
      · simpa [Function.update_of_ne he] using hle
    · simp [List.mem_singleton.mp hw]
  · intro u
    rw [numbersTo_append σ rfl]
    refine List.pairwise_append.mpr ⟨h.increasing u, by split_ifs <;> simp, ?_⟩
    intro n hn k hk
    split_ifs at hk with he
    · subst he
      rw [List.mem_singleton.mp hk]
      exact (h.numbersTo_le_last hs hn).trans_lt hlt
    · simp at hk
  · intro w hw
    rcases List.mem_append.mp hw with hw | hw
    · exact h.after_joining w hw
    · rw [List.mem_singleton.mp hw]
      exact (h.joined_le s hs).trans_lt hlt
  · intro w hw
    rcases List.mem_append.mp hw with hw | hw
    · exact h.content w hw
    · rw [List.mem_singleton.mp hw]
      exact h.content_current hp

theorem Numbered.dropped (h : Numbered σ) (room len : Nat) :
    Numbered { σ with plugin := { σ.plugin with amsg := ⟨none, room, len⟩ } } :=
  ⟨h.chain, h.nodup, h.linked, h.live_known, h.writes_known, h.counted, h.joined_le, h.last_le,
    by simp, h.written_le, h.increasing, h.after_joining, h.content⟩

theorem Numbered.answered (h : Numbered σ) (hb : σ.replies.length + 1 < 2 ^ 31) (s : SessionId)
    (room : Nat) (reply : List Byte) :
    Numbered { σ with
      plugin := { σ.plugin with
        amsg := ⟨some reply, room, reply.length⟩
        current := (σ.plugin.current + 1).bmod (2 ^ 32) }
      asked := Function.update σ.asked s true
      replies := σ.replies ++ [(s, reply)] } := by
  have hc : (σ.plugin.current + 1).bmod (2 ^ 32) = σ.plugin.current + 1 := by
    rw [h.counted]
    exact Int.bmod_eq_of_le (by omega) (by omega)
  rw [hc]
  refine ⟨h.chain, h.nodup, h.linked, h.live_known, h.writes_known, ?_, h.joined_le, ?_, ?_,
    h.written_le, h.increasing, h.after_joining, ?_⟩
  · simp [h.counted]
  · intro t ht
    exact (h.last_le t ht).trans (by simp)
  · intro p hp
    obtain rfl := Option.some.inj hp
    exact ⟨⟨s, by simp⟩, rfl⟩
  · intro w hw
    obtain ⟨hpos, t, ht⟩ := h.content w hw
    exact ⟨hpos, t, List.getElem?_append_left (List.getElem?_eq_some_iff.mp ht).1 ▸ ht⟩

theorem Numbered.step (h : Numbered σ) {e : Event} {τ : Server}
    (hb : e.isReceive → σ.replies.length + 1 < 2 ^ 31) (ht : σ.step ndebug e = some τ) :
    Numbered τ := by
  cases transition_of_step ht with
  | established s hs => exact h.established hs
  | closed s hs => exact h.closed s
  | quiet s m hs hq => exact h.quiet s
  | written s m payload hs hp hl hm => exact h.written hs hp hl
  | dropped s rx system room hs => exact h.dropped room rx.payload.length
  | answered s rx system out mem' hs hr => exact h.answered (hb rfl) s rx.payload.length out.reply

theorem length_replies_step {e : Event} {τ : Server} (ht : σ.step ndebug e = some τ) :
    τ.replies.length ≤ σ.replies.length + if e.isReceive then 1 else 0 := by
  cases transition_of_step ht <;> simp [Event.isReceive]

end Steps

/-- Along a run, with the packets still to come counted in. -/
theorem Numbered.run {ndebug : Bool} {σ : Server} {es : List Event}
    (hr : run (Server.step ndebug) .init es = some σ) (hn : es.countP Event.isReceive < 2 ^ 31) :
    Numbered σ := by
  refine (run_induction (P := fun σ es => Numbered σ ∧
    σ.replies.length + es.countP Event.isReceive < 2 ^ 31) ?_
      ⟨Numbered.init, by simpa [Server.init]⟩
    hr).1
  rintro σ e es τ ⟨h, hb⟩ ht
  have hl := length_replies_step ht
  rw [List.countP_cons] at hb
  refine ⟨h.step (fun he => ?_) ht, by omega⟩
  rw [he] at hb
  simp only [if_true] at hb
  omega

/-- The packet of session `t` that made the counter `n`, and its reply `p`. -/
def Answered (ndebug : Bool) (es : List Event) (n : Int) (t : SessionId) (p : List Byte) : Prop :=
  ∃ es₁ es₂ rx system out mem' ρ, es = es₁ ++ ⟨t, .receive rx true system⟩ :: es₂ ∧
    StepSystem.run (Server.step ndebug) .init es₁ = some ρ ∧ ρ.plugin.current + 1 = n ∧
    receive ndebug system rx = .ok (out, mem') ∧ out.reply = p

theorem Answered.append {ndebug : Bool} {es : List Event} {n : Int} {t : SessionId} {p : List Byte}
    (h : Answered ndebug es n t p) (e : Event) : Answered ndebug (es ++ [e]) n t p := by
  obtain ⟨es₁, es₂, rx, system, out, mem', ρ, rfl, h⟩ := h
  exact ⟨es₁, es₂ ++ [e], rx, system, out, mem', ρ, by simp, h⟩

/-- The log of the replies says what the events of the run were. -/
theorem answered_of_replies {ndebug : Bool} {σ : Server} {es : List Event}
    (hr : run (Server.step ndebug) .init es = some σ) (hn : es.countP Event.isReceive < 2 ^ 31)
    {i : Nat} {t : SessionId} {p : List Byte} (h : σ.replies[i]? = some (t, p)) :
    Answered ndebug es (i + 1) t p := by
  induction es using List.reverseRecOn generalizing σ with
  | nil =>
    obtain rfl := Option.some.inj hr
    simp [Server.init] at h
  | append_singleton es e ih =>
    obtain ⟨ρ, hpre, hlast⟩ := run_append.mp hr
    obtain ⟨_, ht, hnil⟩ := run_cons.mp hlast
    obtain rfl := Option.some.inj hnil
    rw [List.countP_append] at hn
    have hn' : es.countP Event.isReceive < 2 ^ 31 := by omega
    cases transition_of_step ht with
    | established | closed | quiet | written | dropped => exact (ih hpre hn' h).append _
    | answered s rx system out mem' hs hout =>
      rcases Nat.lt_trichotomy i ρ.replies.length with hlt | rfl | hgt
      · rw [List.getElem?_append_left hlt] at h
        exact (ih hpre hn' h).append _
      · rw [List.getElem?_concat_length, Option.some.injEq, Prod.mk.injEq] at h
        obtain ⟨rfl, rfl⟩ := h
        have hcount := (Numbered.run hpre hn').counted
        exact ⟨es, [], rx, system, out, mem', ρ, rfl, hpre, by rw [hcount], hout, rfl⟩
      · rw [List.getElem?_eq_none (by simp; omega)] at h
        cases h

/-- The state after every run of fewer than 2^31 packets: the list of the vhost
holds the live sessions, no session is ahead of the counter, a pending message
is the reply that has the current number. The writes of the run to one session
carry increasing numbers, all later than its start, and the reply of that number. -/
theorem message_numbers_of_run {ndebug : Bool} {σ : Server} {es : List Event}
    (hr : StepSystem.run (Server.step ndebug) .init es = some σ)
    (hn : es.countP Event.isReceive < 2 ^ 31) :
    (∃ l, σ.plugin.sessions.Represents l ∧ l.Nodup ∧ ∀ s, s ∈ l ↔ s ∈ σ.live) ∧
      (∀ s ∈ σ.live, σ.plugin.last s ≤ σ.plugin.current) ∧
      (∀ p, σ.plugin.amsg.payload = some p →
        σ.plugin.current = σ.replies.length ∧
          ∃ t, σ.replies.getLast? = some (t, p) ∧ Answered ndebug es σ.plugin.current t p) ∧
      ∀ s, (σ.numbersTo s).Pairwise (· < ·) ∧
        ∀ n b, (s, n, b) ∈ σ.writes →
          σ.joined s < n ∧ ∃ t, σ.replies[(n - 1).toNat]? = some (t, b) ∧
            Answered ndebug es n t b := by
  have h := Numbered.run hr hn
  refine ⟨⟨σ.live, h.chain, h.nodup, fun s => Iff.rfl⟩, h.last_le, fun p hp => ?_, fun s => ?_⟩
  · obtain ⟨t, hlast⟩ := (h.pending p hp).1
    have hpos : 0 < σ.replies.length := List.length_pos_of_ne_nil (by rintro he; simp [he] at hlast)
    refine ⟨h.counted, t, hlast, ?_⟩
    rw [List.getLast?_eq_getElem?] at hlast
    have hans := answered_of_replies hr hn hlast
    rwa [show ((σ.replies.length - 1 : Nat) : Int) + 1 = σ.plugin.current by rw [h.counted]; omega]
      at hans
  · refine ⟨h.increasing s, fun n b hw => ⟨h.after_joining _ hw, ?_⟩⟩
    obtain ⟨hpos, t, ht⟩ := h.content _ hw
    have hans := answered_of_replies hr hn ht
    have hn' : (((n - 1).toNat : Nat) : Int) + 1 = n := by
      dsimp only at hpos
      omega
    rw [hn'] at hans
    exact ⟨t, ht, hans⟩

def twoControllers : List Event :=
  [⟨0, .established⟩, ⟨0, .receive (.ofText (lit "45,PIT905,01,217")) true statusZero⟩,
    ⟨1, .established⟩, ⟨0, .serverWriteable 16⟩,
    ⟨1, .receive (.ofText (lit "7,PIT906,01,000")) true statusZero⟩, ⟨1, .serverWriteable (-1)⟩,
    ⟨1, .serverWriteable 16⟩, ⟨0, .closed⟩]

theorem message_numbers_two_controllers :
    ∃ σ, StepSystem.run (Server.step true) .init twoControllers = some σ ∧
      σ.numbersTo 0 = [1] ∧ σ.numbersTo 1 = [2] ∧
      (∃ l, σ.plugin.sessions.Represents l ∧ l.Nodup ∧ ∀ s, s ∈ l ↔ s ∈ σ.live) ∧
      ∀ n b, (1, n, b) ∈ σ.writes → σ.joined 1 < n := by
  have hn : (StepSystem.run (Server.step true) .init twoControllers).map
      (fun σ => (σ.numbersTo 0, σ.numbersTo 1)) = some ([1], [2]) := by decide
  obtain ⟨σ, hr, hσ⟩ := Option.map_eq_some_iff.mp hn
  have h := message_numbers_of_run hr (by decide)
  obtain ⟨h0, h1⟩ := Prod.mk.inj hσ
  exact ⟨σ, hr, h0, h1, h.1, fun n b hw => ((h.2.2.2 1).2 n b hw).1⟩

end Comlink
