import Comlink.AsyncStore
import Comlink.Receive

/-! The Redis store behind the plugin. The command of an accepted packet ends
in an ampersand, so the process that stores the packet runs in the background. -/

namespace Comlink

open CText StepSystem AsyncStore

/-- The process that the redis command of a handled message starts: its key and packet. -/
def redisWriter (packet : List Byte) (out : Received) : Option (List Byte × List Byte) :=
  out.key.map (fun key => (key, cstr packet))

inductive StoreEvent where
  | packet (rx : RxBuffer) (system : SystemResult)
  -- The process at this position sets its key.
  | settle (i : Nat)

abbrev PacketStore := AsyncStore.State (List Byte) (List Byte)

def PacketStore.step (ndebug : Bool) (σ : PacketStore) : StoreEvent → Option PacketStore
  | .packet rx system =>
    match receive ndebug system rx with
    | .error _ => none
    | .ok (out, _) =>
      match redisWriter (bufferData rx.payload) out with
      | none => some σ
      | some w => some (σ.launch w)
  | .settle i => σ.settle i

/-- When a packet is accepted, every process still in flight for its device
carries the same packet. -/
def NoOlderWriter (ndebug : Bool) (σ : PacketStore) : StoreEvent → Prop
  | .packet rx system => ∀ out mem', receive ndebug system rx = .ok (out, mem') →
      ∀ w, redisWriter (bufferData rx.payload) out = some w →
        ∀ u ∈ σ.inFlight, u.1 = w.1 → u.2 = w.2
  | .settle _ => True

theorem fresh_step {ndebug : Bool} {σ τ : PacketStore} {e : StoreEvent} (h : σ.Fresh)
    (hg : NoOlderWriter ndebug σ e) (hs : PacketStore.step ndebug σ e = some τ) : τ.Fresh := by
  cases e with
  | settle i => exact h.settle hs
  | packet rx system =>
    cases hr : receive ndebug system rx with
    | error fault => simp [PacketStore.step, hr] at hs
    | ok result =>
      obtain ⟨out, mem'⟩ := result
      cases hw : redisWriter (bufferData rx.payload) out with
      | none =>
        simp only [PacketStore.step, hr, hw, Option.some.injEq] at hs
        exact hs ▸ h
      | some w =>
        simp only [PacketStore.step, hr, hw, Option.some.injEq] at hs
        exact hs ▸ h.launch (hg out mem' hr w hw)

/-- In a run where no packet finds an older one of its device in flight, the
store ends with the newest packet of every device. -/
theorem store_holds_newest {ndebug : Bool} {es : List StoreEvent} {σ : PacketStore}
    (hg : AllSteps (PacketStore.step ndebug) (NoOlderWriter ndebug) .init es)
    (hr : StepSystem.run (PacketStore.step ndebug) .init es = some σ) (hdone : σ.inFlight = [])
    (key : List Byte) : σ.store key = σ.newest key := by
  have h : σ.Fresh := run_invariant (fun _ _ _ h hge hs => fresh_step h hge hs) fresh_init hg hr
  exact h.store_eq hdone key

theorem run_settle (ndebug : Bool) (σ : PacketStore) (is : List Nat) :
    StepSystem.run (PacketStore.step ndebug) σ (is.map .settle) =
      StepSystem.run AsyncStore.State.settle σ is := by
  induction is generalizing σ with
  | nil => rfl
  | cons i is ih =>
    rw [List.map_cons, StepSystem.run, StepSystem.run]
    exact congrArg (Option.bind (σ.settle i)) (funext ih)

/-- Without the condition there is an order of the processes in which the older
packet is stored last. -/
theorem older_packet_can_win {ndebug : Bool} {σ : PacketStore} {rx : RxBuffer}
    {system : SystemResult} {out : Received} {mem' : List Byte} {w u : List Byte × List Byte}
    (hr : receive ndebug system rx = .ok (out, mem'))
    (hw : redisWriter (bufferData rx.payload) out = some w) (hu : u ∈ σ.inFlight)
    (hk : u.1 = w.1) (hne : u.2 ≠ w.2) :
    ∃ (is : List Nat) (τ : PacketStore),
      StepSystem.run (PacketStore.step ndebug) σ (.packet rx system :: is.map .settle) = some τ ∧
      τ.inFlight = [] ∧ τ.store w.1 ≠ τ.newest w.1 := by
  have hstep : PacketStore.step ndebug σ (.packet rx system) = some (σ.launch w) := by
    simp [PacketStore.step, hr, hw]
  obtain ⟨is, τ, his, hdone, hstore, hl⟩ :=
    exists_settled_last (σ := σ.launch w) (List.mem_append_left _ hu)
  refine ⟨is, τ, run_cons.mpr ⟨_, hstep, by rw [run_settle, his]⟩, hdone, ?_⟩
  have hnew : τ.newest w.1 = some w.2 := by
    have h := newest_launch σ w w.1
    rw [if_pos rfl] at h
    rw [AsyncStore.State.newest, hl]
    exact h
  rw [← hk, hstore, hk, hnew]
  simpa using hne

def inTurn : List StoreEvent :=
  [.packet (.ofText (lit "45,PIT905,01,217")) statusZero, .settle 0,
    .packet (.ofText (lit "46,PIT905,01,218")) statusZero, .settle 0]

theorem store_holds_newest_in_turn :
    ∃ σ, AllSteps (PacketStore.step true) (NoOlderWriter true) .init inTurn ∧
      StepSystem.run (PacketStore.step true) .init inTurn = some σ ∧ σ.inFlight = [] ∧
      σ.newest (lit "PIT905_PACKET") = some (lit "46,PIT905,01,218") ∧
      σ.store (lit "PIT905_PACKET") = σ.newest (lit "PIT905_PACKET") := by
  have hn : (StepSystem.run (PacketStore.step true) .init inTurn).map
      (fun σ => (σ.inFlight, σ.newest (lit "PIT905_PACKET"))) =
      some ([], some (lit "46,PIT905,01,218")) := by decide
  obtain ⟨σ, hr, hσ⟩ := Option.map_eq_some_iff.mp hn
  obtain ⟨hdone, hnew⟩ := Prod.mk.inj hσ
  have hg : AllSteps (PacketStore.step true) (NoOlderWriter true) .init inTurn := by
    refine ⟨?_, fun σ₁ h₁ => ⟨trivial,
      fun σ₂ h₂ => ⟨?_, fun σ₃ h₃ => ⟨trivial, fun _ _ => trivial⟩⟩⟩⟩
    · intro out mem' _ w _ u hu
      exact absurd hu (by simp [AsyncStore.State.init])
    · have hempty : ((PacketStore.step true .init
          (.packet (.ofText (lit "45,PIT905,01,217")) statusZero)).bind
            (fun σ => PacketStore.step true σ (.settle 0))).map (·.inFlight) = some [] := by decide
      rw [h₁, Option.bind_some, h₂] at hempty
      intro out mem' _ w _ u hu
      simp [Option.some.inj hempty] at hu
  exact ⟨σ, hg, hr, hdone, hnew, store_holds_newest hg hr hdone _⟩

def outOfTurn : List StoreEvent :=
  [.packet (.ofText (lit "45,PIT905,01,217")) statusZero,
    .packet (.ofText (lit "46,PIT905,01,218")) statusZero, .settle 1, .settle 0]

theorem store_holds_older_out_of_turn :
    ¬ ∀ (ndebug : Bool) (es : List StoreEvent) (σ : PacketStore),
      StepSystem.run (PacketStore.step ndebug) .init es = some σ → σ.inFlight = [] →
      ∀ key, σ.store key = σ.newest key := by
  intro h
  have hn : (StepSystem.run (PacketStore.step true) .init outOfTurn).map
      (fun σ => (σ.inFlight, σ.store (lit "PIT905_PACKET"), σ.newest (lit "PIT905_PACKET"))) =
      some ([], some (lit "45,PIT905,01,217"), some (lit "46,PIT905,01,218")) := by decide
  obtain ⟨σ, hr, hσ⟩ := Option.map_eq_some_iff.mp hn
  obtain ⟨hdone, hσ⟩ := Prod.mk.inj hσ
  obtain ⟨hstore, hnew⟩ := Prod.mk.inj hσ
  have hk := h true outOfTurn σ hr hdone (lit "PIT905_PACKET")
  rw [hstore, hnew] at hk
  exact absurd hk (by decide)

end Comlink
