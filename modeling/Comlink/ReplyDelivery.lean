import Comlink.MessageNumbers

/-! Which replies reach which session. The vhost has one slot for a pending
reply, so a reply is delivered if no other packet comes before it is written. -/

namespace Comlink

open CText StepSystem

def Server.repliesTo (σ : Server) (s : SessionId) : List (List Byte) :=
  (σ.replies.filter (fun r => r.1 = s)).map Prod.snd

def Server.writesTo (σ : Server) (s : SessionId) : List (List Byte) :=
  (σ.writes.filter (fun w => w.1 = s)).map (fun w => w.2.2)

/-- What the library promises: a session becomes writeable only after it asked,
and allocations and writes succeed. -/
def LibraryStep (σ : Server) (e : Event) : Prop :=
  match e.reason with
  | .serverWriteable m => σ.asked e.session = true ∧ (σ.plugin.amsg.len : Int) ≤ m
  | .receive _ allocated _ => allocated = true
  | _ => True

/-- A packet arrives only while no session waits for its turn to be written,
and below the largest message number. -/
def NoReplyPending (σ : Server) (e : Event) : Prop :=
  match e.reason with
  | .receive _ _ _ => (∀ s ∈ σ.live, σ.asked s = false) ∧ σ.plugin.current + 1 < 2 ^ 31
  | _ => True

instance (σ : Server) : (e : Event) → Decidable (LibraryStep σ e)
  | ⟨s, .serverWriteable m⟩ =>
    inferInstanceAs (Decidable (σ.asked s = true ∧ (σ.plugin.amsg.len : Int) ≤ m))
  | ⟨_, .receive _ allocated _⟩ => inferInstanceAs (Decidable (allocated = true))
  | ⟨_, .established⟩ => inferInstanceAs (Decidable True)
  | ⟨_, .closed⟩ => inferInstanceAs (Decidable True)

instance (σ : Server) : (e : Event) → Decidable (NoReplyPending σ e)
  | ⟨_, .receive _ _ _⟩ =>
    inferInstanceAs (Decidable ((∀ s ∈ σ.live, σ.asked s = false) ∧ σ.plugin.current + 1 < 2 ^ 31))
  | ⟨_, .serverWriteable _⟩ => inferInstanceAs (Decidable True)
  | ⟨_, .established⟩ => inferInstanceAs (Decidable True)
  | ⟨_, .closed⟩ => inferInstanceAs (Decidable True)

/-- A session that asked to be written is owed the pending reply and nothing
else; a live session that did not ask is owed nothing. -/
structure Delivered (σ : Server) : Prop where
  numbered : Numbered σ
  replies_known : ∀ r ∈ σ.replies, r.1 ∈ σ.known
  asked_live : ∀ s, σ.asked s = true → s ∈ σ.live
  waiting : ∀ s, σ.asked s = true → σ.plugin.last s ≠ σ.plugin.current ∧
    ∃ p, σ.plugin.amsg.payload = some p ∧ σ.repliesTo s = σ.writesTo s ++ [p]
  settled : ∀ s ∈ σ.live, σ.asked s = false → σ.repliesTo s = σ.writesTo s
  inOrder : ∀ s, σ.writesTo s <+: σ.repliesTo s

theorem Delivered.init : Delivered .init where
  numbered := .init
  replies_known := by simp [Server.init]
  asked_live := by simp [Server.init]
  waiting := by simp [Server.init]
  settled := by simp [Server.init]
  inOrder := by simp [Server.init, Server.writesTo]

section Steps

variable {σ : Server}

theorem repliesTo_append {τ : Server} {r : SessionId × List Byte} (σ : Server)
    (h : τ.replies = σ.replies ++ [r]) (s : SessionId) :
    τ.repliesTo s = σ.repliesTo s ++ if r.1 = s then [r.2] else [] := by
  by_cases hs : r.1 = s <;> simp [Server.repliesTo, h, List.filter_append, hs]

theorem writesTo_append {τ : Server} {w : SessionId × Int × List Byte} (σ : Server)
    (h : τ.writes = σ.writes ++ [w]) (s : SessionId) :
    τ.writesTo s = σ.writesTo s ++ if w.1 = s then [w.2.2] else [] := by
  by_cases hs : w.1 = s <;> simp [Server.writesTo, h, List.filter_append, hs]

theorem Delivered.repliesTo_of_new (h : Delivered σ) {s : SessionId} (hs : s ∉ σ.known) :
    σ.repliesTo s = [] := by
  rw [Server.repliesTo, List.map_eq_nil_iff, List.filter_eq_nil_iff]
  intro r hr he
  exact hs ((of_decide_eq_true he) ▸ h.replies_known r hr)

theorem Delivered.writesTo_of_new (h : Delivered σ) {s : SessionId} (hs : s ∉ σ.known) :
    σ.writesTo s = [] := by
  have hp := h.inOrder s
  rwa [h.repliesTo_of_new hs, List.prefix_nil] at hp

theorem asked_of_update {a : SessionId → Bool} {s t : SessionId}
    (h : Function.update a s false t = true) : t ≠ s ∧ a t = true := by
  by_cases he : t = s
  · simp [he] at h
  · exact ⟨he, by simpa [Function.update_of_ne he] using h⟩

theorem Delivered.established (h : Delivered σ) {s : SessionId} (hs : s ∉ σ.known) :
    Delivered { σ with
      plugin := { σ.plugin with
        sessions := σ.plugin.sessions.insertFront s
        linked := σ.plugin.linked + 1
        last := Function.update σ.plugin.last s σ.plugin.current }
      live := s :: σ.live
      known := s :: σ.known
      asked := Function.update σ.asked s false
      joined := Function.update σ.joined s σ.plugin.current } := by
  refine ⟨h.numbered.established hs, ?_, ?_, ?_, ?_, h.inOrder⟩
  · intro r hr
    exact List.mem_cons_of_mem _ (h.replies_known r hr)
  · intro t ht
    exact List.mem_cons_of_mem _ (h.asked_live t (asked_of_update ht).2)
  · intro t ht
    obtain ⟨hne, hat⟩ := asked_of_update ht
    obtain ⟨hl, hp⟩ := h.waiting t hat
    exact ⟨by simpa [Function.update_of_ne hne] using hl, hp⟩
  · intro t ht hat
    by_cases he : t = s
    · subst he
      exact (h.repliesTo_of_new hs).trans (h.writesTo_of_new hs).symm
    · exact h.settled t ((List.mem_cons.mp ht).resolve_left he)
        (by simpa [Function.update_of_ne he] using hat)

theorem Delivered.closed (h : Delivered σ) (s : SessionId) :
    Delivered { σ with
      plugin := { σ.plugin with sessions := σ.plugin.sessions.remove (σ.plugin.linked + 1) s }
      live := σ.live.erase s
      asked := Function.update σ.asked s false } := by
  refine ⟨h.numbered.closed s, h.replies_known, ?_,
    fun t ht => h.waiting t (asked_of_update ht).2, ?_, h.inOrder⟩
  · intro t ht
    exact (List.mem_erase_of_ne (asked_of_update ht).1).mpr (h.asked_live t (asked_of_update ht).2)
  · intro t ht hat
    have hne : t ≠ s := fun he => (h.numbered.nodup.mem_erase_iff.mp ht).1 he
    exact h.settled t (List.mem_of_mem_erase ht) (by simpa [Function.update_of_ne hne] using hat)

theorem Delivered.written (h : Delivered σ) {s : SessionId} {payload : List Byte}
    (ha : σ.asked s = true) (hp : σ.plugin.amsg.payload = some payload) :
    Delivered { σ with
      plugin := { σ.plugin with last := Function.update σ.plugin.last s σ.plugin.current }
      asked := Function.update σ.asked s false
      writes := σ.writes ++ [(s, σ.plugin.current, payload.take σ.plugin.amsg.len)] } := by
  obtain ⟨hl, p, hp', howed⟩ := h.waiting s ha
  obtain rfl : payload = p := Option.some.inj (hp.symm.trans hp')
  have htake : payload.take σ.plugin.amsg.len = payload := by
    rw [(h.numbered.pending payload hp).2, List.take_length]
  refine ⟨h.numbered.written (h.asked_live s ha) hp hl, h.replies_known, ?_, ?_, ?_, ?_⟩
  · intro t ht
    exact h.asked_live t (asked_of_update ht).2
  · intro t ht
    obtain ⟨hne, hat⟩ := asked_of_update ht
    obtain ⟨hlt, q, hq, hrq⟩ := h.waiting t hat
    refine ⟨by simpa [Function.update_of_ne hne] using hlt, q, hq, ?_⟩
    rw [writesTo_append σ rfl, if_neg hne.symm, List.append_nil]
    exact hrq
  · intro t ht hat
    rw [writesTo_append σ rfl]
    by_cases he : s = t
    · subst he
      rw [if_pos rfl, htake]
      exact howed
    · rw [if_neg he, List.append_nil]
      exact h.settled t ht (by simpa [Function.update_of_ne (Ne.symm he)] using hat)
  · intro t
    rw [writesTo_append σ rfl]
    by_cases he : s = t
    · subst he
      rw [if_pos rfl, htake, ← howed]
      exact List.prefix_refl _
    · rw [if_neg he, List.append_nil]
      exact h.inOrder t

theorem Delivered.asked_eq_false (h : Delivered σ) (hcalm : ∀ s ∈ σ.live, σ.asked s = false)
    (t : SessionId) : σ.asked t = false := by
  by_contra hat
  have ht := h.asked_live t (by simpa using hat)
  exact hat (hcalm t ht)

theorem Delivered.answered (h : Delivered σ) (hcalm : ∀ s ∈ σ.live, σ.asked s = false)
    (hb : σ.plugin.current + 1 < 2 ^ 31) {s : SessionId} (hs : s ∈ σ.live) (room : Nat)
    (reply : List Byte) :
    Delivered { σ with
      plugin := { σ.plugin with
        amsg := ⟨some reply, room, reply.length⟩
        current := (σ.plugin.current + 1).bmod (2 ^ 32) }
      asked := Function.update σ.asked s true
      replies := σ.replies ++ [(s, reply)] } := by
  have hc := h.numbered.counted
  have hcur : (σ.plugin.current + 1).bmod (2 ^ 32) = σ.plugin.current + 1 :=
    Int.bmod_eq_of_le (by omega) (by omega)
  have hnone := h.asked_eq_false hcalm
  have honly : ∀ t, Function.update σ.asked s true t = true → t = s := by
    intro t ht
    by_contra he
    simp [Function.update_of_ne he, hnone t] at ht
  refine ⟨h.numbered.answered (by omega) s room reply, ?_, ?_, ?_, ?_, ?_⟩
  · intro r hr
    rcases List.mem_append.mp hr with hr | hr
    · exact h.replies_known r hr
    · rw [List.mem_singleton.mp hr]
      exact h.numbered.live_known s hs
  · intro t ht
    rw [honly t ht]
    exact hs
  · intro t ht
    obtain rfl := honly t ht
    have hle := h.numbered.last_le t hs
    refine ⟨?_, reply, rfl, ?_⟩
    · rw [hcur]
      change σ.plugin.last t ≠ σ.plugin.current + 1
      omega
    · rw [repliesTo_append σ rfl, if_pos rfl, h.settled t hs (hnone t)]
      rfl
  · intro t ht hat
    have hne : t ≠ s := by
      rintro rfl
      simp at hat
    rw [repliesTo_append σ rfl, if_neg hne.symm, List.append_nil]
    exact h.settled t ht (hnone t)
  · intro t
    rw [repliesTo_append σ rfl]
    exact (h.inOrder t).trans (List.prefix_append _ _)

variable {ndebug : Bool}

theorem Delivered.step (h : Delivered σ) {e : Event} {τ : Server} (hlib : LibraryStep σ e)
    (hfree : NoReplyPending σ e) (ht : σ.step ndebug e = some τ) : Delivered τ := by
  cases transition_of_step ht with
  | established s hs => exact h.established hs
  | closed s hs => exact h.closed s
  | quiet s m hs hq =>
    obtain ⟨ha, hm⟩ := hlib
    obtain ⟨hl, p, hp, -⟩ := h.waiting s ha
    have hm' := (hq p hp).resolve_left hl
    omega
  | written s m payload hs hp hl hm => exact h.written hlib.1 hp
  | dropped s rx system room hs => exact absurd hlib (by simp [LibraryStep])
  | answered s rx system out mem' hs hr =>
    exact h.answered hfree.1 hfree.2 hs rx.payload.length out.reply

theorem Delivered.run {es : List Event}
    (hg : AllSteps (Server.step ndebug) (fun σ e => LibraryStep σ e ∧ NoReplyPending σ e) .init es)
    (hr : run (Server.step ndebug) .init es = some σ) : Delivered σ :=
  run_invariant (fun _ _ _ h hge ht => h.step hge.1 hge.2 ht) Delivered.init hg hr

/-- A packet with another reply that comes while a session waits is what goes
wrong: once this session is written, its replies are out of order. -/
theorem Delivered.lost (h : Delivered σ) {σ' τ : Server} {s t : SessionId} {rx : RxBuffer}
    {system : SystemResult} {m : Int} (hb : σ.plugin.current + 1 < 2 ^ 31) (ha : σ.asked t = true)
    (hr : σ.step ndebug ⟨s, .receive rx true system⟩ = some σ')
    (hne : σ'.plugin.amsg.payload ≠ σ.plugin.amsg.payload)
    (hw : σ'.step ndebug ⟨t, .serverWriteable m⟩ = some τ) (hm : (σ'.plugin.amsg.len : Int) ≤ m) :
    ¬ τ.writesTo t <+: τ.repliesTo t := by
  obtain ⟨hl, p, hp, howed⟩ := h.waiting t ha
  have hc := h.numbered.counted
  have hle := h.numbered.last_le t (h.asked_live t ha)
  cases transition_of_step hr with
  | answered s rx system out mem' hs hrx =>
    have hcur : (σ.plugin.current + 1).bmod (2 ^ 32) = σ.plugin.current + 1 :=
      Int.bmod_eq_of_le (by omega) (by omega)
    cases transition_of_step hw with
    | quiet t m ht hq =>
      rcases hq out.reply rfl with hlast | hshort
      · change σ.plugin.last t = (σ.plugin.current + 1).bmod (2 ^ 32) at hlast
        omega
      · omega
    | written t m payload ht hpay hlast hlen =>
      obtain rfl : out.reply = payload := Option.some.inj hpay
      intro hprefix
      rw [writesTo_append σ rfl, repliesTo_append σ rfl, if_pos rfl, howed] at hprefix
      dsimp only at hprefix
      rw [List.take_length, List.append_assoc, List.prefix_append_right_inj, List.singleton_append,
        List.cons_prefix_cons] at hprefix
      exact hne (by rw [hp, ← hprefix.1])

end Steps

/-- In a run where every packet comes while no reply is pending, each session is
written the replies to its own packets, in order and without a gap. -/
theorem replies_delivered_in_order {ndebug : Bool} {es : List Event} {σ : Server}
    (hg : AllSteps (Server.step ndebug) (fun σ e => LibraryStep σ e ∧ NoReplyPending σ e) .init es)
    (hr : StepSystem.run (Server.step ndebug) .init es = some σ) (s : SessionId) :
    σ.writesTo s <+: σ.repliesTo s :=
  (Delivered.run hg hr).inOrder s

def alternating : List Event :=
  [⟨0, .established⟩, ⟨1, .established⟩,
    ⟨0, .receive (.ofText (lit "45,PIT905,01,000")) true statusZero⟩, ⟨0, .serverWriteable 16⟩,
    ⟨1, .receive (.ofText (lit "46,PIT906,01,000")) true statusZero⟩, ⟨1, .serverWriteable 16⟩,
    ⟨0, .receive (.ofText (lit "47,PIT905,01,000")) true statusZero⟩]

theorem replies_delivered_alternating :
    AllSteps (Server.step true)
      (fun σ e => LibraryStep σ e ∧ NoReplyPending σ e) .init alternating ∧
    ∃ σ, StepSystem.run (Server.step true) .init alternating = some σ ∧
      (σ.writesTo 0).length = 1 ∧ σ.writesTo 0 <+: σ.repliesTo 0 := by
  have hg : AllSteps (Server.step true) (fun σ e => LibraryStep σ e ∧ NoReplyPending σ e) .init
      alternating := by decide
  have hl : (StepSystem.run (Server.step true) .init alternating).map
      (fun σ => (σ.writesTo 0).length) = some 1 := by decide
  obtain ⟨σ, hr, hσ⟩ := Option.map_eq_some_iff.mp hl
  exact ⟨hg, σ, hr, hσ, replies_delivered_in_order hg hr 0⟩

def overtaking : List Event :=
  [⟨0, .established⟩, ⟨1, .established⟩,
    ⟨0, .receive (.ofText (lit "45,PIT905,01,000")) true statusZero⟩,
    ⟨1, .receive (.ofText (lit "46,PIT906,01,000")) true statusZero⟩, ⟨0, .serverWriteable 16⟩]

theorem reply_misdelivered_overtaking :
    ¬ ∀ (ndebug : Bool) (es : List Event) (σ : Server),
      AllSteps (Server.step ndebug) LibraryStep .init es →
      StepSystem.run (Server.step ndebug) .init es = some σ →
        ∀ s, σ.writesTo s <+: σ.repliesTo s := by
  intro h
  have hw : (StepSystem.run (Server.step true) .init overtaking).map
      (fun σ => (σ.writesTo 0, σ.repliesTo 0)) = some ([getNck 46], [getNck 45]) := by decide
  obtain ⟨σ, hr, hσ⟩ := Option.map_eq_some_iff.mp hw
  obtain ⟨h0, h1⟩ := Prod.mk.inj hσ
  have hp := h true overtaking σ (by decide) hr 0
  rw [h0, h1] at hp
  exact absurd hp (by decide)

end Comlink
