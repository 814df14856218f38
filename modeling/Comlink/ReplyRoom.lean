import Comlink.Plugin
import Comlink.ReplyBuffers

/-! The room behind `LWS_PRE` is the length of the received message; the bytes
copied there are those of the reply. -/

namespace Comlink

open CText StepSystem

/-- The reply that the handler copies. This is done before a second token is
read, so also where the handler does not return. -/
def copiedReply (ndebug : Bool) (rx : RxBuffer) : Option (List Byte) :=
  match strSplit ndebug rx.mem comma with
  | .error _ => none
  | .ok (tokens, _) =>
    tokens[0]?.map (fun first =>
      if isCRCValid (atoi first) (bufferData rx.payload) = true then getACK (atoi first)
      else getNck (atoi first))

/-- Thirteen bytes and the number of the first token. -/
def RoomForReply (rx : RxBuffer) : Prop :=
  13 + (sprintfInt (firstNumber (cstr rx.mem))).length ≤ rx.payload.length

def Event.RoomForReply (e : Event) : Prop :=
  match e.reason with
  | .receive rx true _ => Comlink.RoomForReply rx
  | _ => True

instance (rx : RxBuffer) : Decidable (RoomForReply rx) := inferInstanceAs (Decidable (_ ≤ _))

instance : (e : Event) → Decidable e.RoomForReply
  | ⟨_, .receive rx true _⟩ => inferInstanceAs (Decidable (Comlink.RoomForReply rx))
  | ⟨_, .receive _ false _⟩ => inferInstanceAs (Decidable True)
  | ⟨_, .serverWriteable _⟩ => inferInstanceAs (Decidable True)
  | ⟨_, .established⟩ => inferInstanceAs (Decidable True)
  | ⟨_, .closed⟩ => inferInstanceAs (Decidable True)

/-- A pending reply lies inside its allocation, and so do the bytes that are
handed to `lws_write`. -/
def Server.ReplyFits (σ : Server) : Prop :=
  ∀ p, σ.plugin.amsg.payload = some p →
    p.length ≤ σ.plugin.amsg.room ∧ σ.plugin.amsg.len ≤ σ.plugin.amsg.room

theorem length_reply {head tail : List Byte} (hhead : 0 ∉ head) (htail : 0 ∉ tail)
    (hlen : head.length + tail.length = 9) (n : Int) :
    (getReply head tail n).length = 13 + (sprintfInt n).length := by
  rw [length_getReply hhead htail]
  omega

section Handler

variable {ndebug : Bool} {system : SystemResult} {rx : RxBuffer}

theorem length_copiedReply {reply : List Byte} (h : copiedReply ndebug rx = some reply) :
    reply.length = 13 + (sprintfInt (firstNumber (cstr rx.mem))).length := by
  rw [copiedReply] at h
  cases hs : strSplit ndebug rx.mem comma with
  | error fault => simp [hs] at h
  | ok result =>
    obtain ⟨tokens, mem'⟩ := result
    simp only [hs] at h
    obtain ⟨first, hfirst, rfl⟩ := Option.map_eq_some_iff.mp h
    rw [tokens_of_strSplit comma_ne_zero rx.zero_mem hs] at hfirst
    rw [firstNumber_eq hfirst]
    split_ifs
    · exact length_reply (by decide) (by decide) (by decide) _
    · exact length_reply (by decide) (by decide) (by decide) _

theorem copiedReply_fits_iff {reply : List Byte} (h : copiedReply ndebug rx = some reply) :
    reply.length ≤ rx.payload.length ↔ RoomForReply rx := by
  rw [length_copiedReply h, RoomForReply]

theorem reply_of_handleTokens {tokens : List (List Byte)} {packet : List Byte} {out : Received}
    (h : handleTokens system tokens packet = .ok out) :
    ∃ first, tokens[0]? = some first ∧ out.reply =
      if isCRCValid (atoi first) packet = true then getACK (atoi first)
        else getNck (atoi first) := by
  rw [handleTokens] at h
  cases hfirst : tokens[0]? with
  | none => simp [hfirst] at h
  | some first =>
    refine ⟨first, rfl, ?_⟩
    by_cases hv : isCRCValid (atoi first) packet = true
    · cases hsecond : tokens[1]? with
      | none => simp [hfirst, hv, hsecond] at h
      | some device =>
        simp only [hfirst, hv, hsecond, if_true] at h ⊢
        rw [← (runCommands_eq_ok_iff.mp h).1, Received.ofRight]
    · simp only [hfirst, hv, Bool.false_eq_true, if_false, Except.ok.injEq] at h ⊢
      rw [← h, Received.ofBad]

theorem copiedReply_of_receive {out : Received} {mem' : List Byte}
    (h : receive ndebug system rx = .ok (out, mem')) : copiedReply ndebug rx = some out.reply := by
  rw [receive] at h
  rw [copiedReply]
  cases hs : strSplit ndebug rx.mem comma with
  | error fault => simp [hs] at h
  | ok result =>
    obtain ⟨tokens, mem''⟩ := result
    cases ht : handleTokens system tokens (bufferData rx.payload) with
    | error fault => simp [hs, ht] at h
    | ok out' =>
      obtain ⟨first, hfirst, hreply⟩ := reply_of_handleTokens ht
      simp only [hs, ht, Except.ok.injEq, Prod.mk.injEq] at h
      rw [← h.1, hreply]
      simp [hfirst]

end Handler

section Steps

variable {ndebug : Bool} {σ τ : Server} {e : Event}

theorem replyFits_answered_iff {s : SessionId} {rx : RxBuffer} {system : SystemResult}
    (ht : σ.step ndebug ⟨s, .receive rx true system⟩ = some τ) : τ.ReplyFits ↔ RoomForReply rx := by
  cases transition_of_step ht with
  | answered s rx system out mem' hs hr =>
    rw [← copiedReply_fits_iff (copiedReply_of_receive hr), Server.ReplyFits]
    simp

theorem Server.ReplyFits.step (h : σ.ReplyFits) (he : e.RoomForReply)
    (ht : σ.step ndebug e = some τ) : τ.ReplyFits := by
  cases transition_of_step ht with
  | established | closed | quiet | written => exact h
  | dropped s rx system room hs =>
    intro p hp
    cases hp
  | answered s rx system out mem' hs hr => exact (replyFits_answered_iff ht).mpr he

end Steps

/-- A copied reply fits exactly if the message has room for it, and the states
of a run all hold a reply that fits exactly if every received message has. -/
theorem replies_fit_iff (ndebug : Bool) :
    (∀ rx reply, copiedReply ndebug rx = some reply →
      (reply.length ≤ rx.payload.length ↔ RoomForReply rx)) ∧
    ∀ (es : List Event) (σ : Server), StepSystem.run (Server.step ndebug) .init es = some σ →
      ((∀ es' τ, es' <+: es → StepSystem.run (Server.step ndebug) .init es' = some τ →
        τ.ReplyFits) ↔
        ∀ e ∈ es, e.RoomForReply) := by
  refine ⟨fun rx reply h => copiedReply_fits_iff h, fun es σ hr => ⟨fun h e he => ?_, ?_⟩⟩
  · obtain ⟨pre, post, rfl⟩ := List.append_of_mem he
    obtain ⟨ρ, hpre, hpost⟩ := run_append.mp hr
    obtain ⟨τ, ht, -⟩ := run_cons.mp hpost
    have hrun : run (Server.step ndebug) .init (pre ++ [e]) = some τ :=
      run_append.mpr ⟨ρ, hpre, run_cons.mpr ⟨τ, ht, rfl⟩⟩
    have hfits := h (pre ++ [e]) τ ⟨post, by simp⟩ hrun
    obtain ⟨s, reason⟩ := e
    match reason with
    | .receive rx true system => exact (replyFits_answered_iff ht).mp hfits
    | .receive rx false system => trivial
    | .established | .closed | .serverWriteable m => trivial
  · intro h es' τ hpre hrun
    have hinit : Server.ReplyFits .init := by
      intro p hp
      cases hp
    refine (run_induction (P := fun σ es => σ.ReplyFits ∧ ∀ e ∈ es, e.RoomForReply) ?_
      ⟨hinit, fun e he => h e (hpre.subset he)⟩ hrun).1
    rintro σ e es τ ⟨hfits, hroom⟩ ht
    exact ⟨hfits.step (hroom e List.mem_cons_self) ht,
      fun f hf => hroom f (List.mem_cons_of_mem e hf)⟩

def oneController : List Event :=
  [⟨0, .established⟩,
    ⟨0, .receive (.ofText (lit "45,PIT905,01,01,00,05,04,4,4,4,0,0,0,071")) true statusZero⟩,
    ⟨0, .serverWriteable 15⟩]

theorem replies_fit_one_controller :
    ∃ σ p, StepSystem.run (Server.step true) .init oneController = some σ ∧
      σ.plugin.amsg.payload = some p ∧ p.length ≤ σ.plugin.amsg.room := by
  have hp : (StepSystem.run (Server.step true) .init oneController).map
      (fun σ => σ.plugin.amsg.payload) = some (some (getACK 45)) := by decide
  obtain ⟨σ, hr, hpay⟩ := Option.map_eq_some_iff.mp hp
  have hfits := ((replies_fit_iff true).2 oneController σ hr).mpr (by decide) oneController σ
    List.prefix_rfl hr
  exact ⟨σ, _, hr, hpay, (hfits _ hpay).1⟩

/-- A rejected packet of 8 bytes and an accepted one of 13 both get a reply of 15. -/
theorem replies_overflow_short_packets :
    (¬ ∀ (ndebug : Bool) (rx : RxBuffer) (reply : List Byte), copiedReply ndebug rx = some reply →
      reply.length ≤ rx.payload.length) ∧
    ¬ ∀ (ndebug : Bool) (es : List Event) (σ : Server),
      StepSystem.run (Server.step ndebug) .init es = some σ → σ.ReplyFits := by
  constructor
  · intro h
    have hr : copiedReply false (.ofText (lit "45,P,000")) = some (getNck 45) := by decide
    exact absurd (h _ _ _ hr) (by decide)
  · intro h
    have hp : (StepSystem.run (Server.step false) .init [⟨0, .established⟩,
        ⟨0, .receive (.ofText (lit "45,PIT905,076")) true statusZero⟩]).map
        (fun σ => (σ.plugin.amsg.payload, σ.plugin.amsg.room)) = some (some (getACK 45), 13) := by
      decide
    obtain ⟨σ, hr, hσ⟩ := Option.map_eq_some_iff.mp hp
    obtain ⟨hpay, hroom⟩ := Prod.mk.inj hσ
    have hle := (h _ _ σ hr _ hpay).1
    rw [hroom] at hle
    exact absurd hle (by decide)

end Comlink
