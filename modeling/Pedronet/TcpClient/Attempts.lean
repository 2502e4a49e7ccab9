import Pedronet.TcpClient

namespace Pedronet
namespace TcpClient
open TcpConnection (World Thread)

variable {s t : TcpClient}

def AttemptPc.pending : AttemptPc → Bool
  | .create | .starting => false
  | .raiseConnection | .connect | .retry | .offline | .handleConnection => true

def AttemptPc.creates (pc : AttemptPc) : Bool := pc == .create

def CallPc.schedules (pc : CallPc) : Bool := pc == .schedule

def pending (s : TcpClient) : Nat :=
  s.tasks + s.timers + s.attempts.countP AttemptPc.pending +
    s.calls.countP fun call => call.2.schedules

def connections (s : TcpClient) : Nat := s.created + s.attempts.countP AttemptPc.creates

def State.connecting : State → Nat
  | .kConnecting => 1
  | .kOffline | .kConnected | .kDisconnecting | .kDisconnected => 0

def State.established : State → Nat
  | .kOffline | .kConnecting => 0
  | .kConnected | .kDisconnecting | .kDisconnected => 1

structure Single (s : TcpClient) : Prop where
  pending : s.pending = s.state.connecting
  connections : s.connections = s.state.established
  starts : s.connections + s.pending ≤ s.started
  unconnected : s.created = 0 → s.world = .init ∧ s.conn = false
  starting : .starting ∈ s.attempts → 0 < s.created

theorem calls_count {thread : Thread} {pc : CallPc} {next : Option CallPc}
    (h : Calls s thread pc t next) :
    t.tasks + t.timers + t.attempts.countP AttemptPc.pending + next.toList.countP CallPc.schedules +
        s.state.connecting = s.tasks + s.timers + s.attempts.countP AttemptPc.pending +
          (if pc.schedules then 1 else 0) + t.state.connecting ∧
      t.attempts.countP AttemptPc.creates = s.attempts.countP AttemptPc.creates ∧
      t.state.established = s.state.established ∧
      s.started + t.state.connecting = t.started + s.state.connecting := by
  cases h with
  | start h => simp [h, State.connecting, State.established, CallPc.schedules]
  | inlined => simp [AttemptPc.pending, AttemptPc.creates, CallPc.schedules]; omega
  | queued => simp [CallPc.schedules]; omega
  | closer op h => simp [h, State.connecting, State.established, CallPc.schedules]
  | startLost | closerLost | found | lost | apply | null => simp [CallPc.schedules]

theorem calls_keep {thread : Thread} {pc : CallPc} {next : Option CallPc}
    (h : Calls s thread pc t next) :
    t.calls = s.calls ∧ t.created = s.created ∧ t.conn = s.conn ∧
      (t.world = s.world ∨ s.conn = true) ∧ (.starting ∈ t.attempts → .starting ∈ s.attempts) := by
  cases h with
  | inlined => exact ⟨rfl, rfl, rfl, .inl rfl, by simp⟩
  | apply op w h => exact ⟨rfl, rfl, rfl, .inr h, id⟩
  | _ => exact ⟨rfl, rfl, rfl, .inl rfl, id⟩

theorem attempts_count {pc : AttemptPc} {next : Option AttemptPc} (h : Attempts s pc t next)
    (hp : pc.pending = true → s.state = .kConnecting) :
    t.tasks + t.timers + next.toList.countP AttemptPc.pending + s.state.connecting =
        s.tasks + s.timers + (if pc.pending then 1 else 0) + t.state.connecting ∧
      t.created + next.toList.countP AttemptPc.creates + s.state.established =
        s.created + (if pc.creates then 1 else 0) + t.state.established ∧
      s.state.connecting + s.state.established =
        t.state.connecting + t.state.established + (if pc = .offline then 1 else 0) := by
  cases h with
  | notConnecting h | handleLost h => exact absurd (hp rfl) h
  | offline => simp [hp rfl, State.connecting, State.established, AttemptPc.pending, AttemptPc.creates]
  | handle h => simp [h, State.connecting, State.established, AttemptPc.pending, AttemptPc.creates]
  | raise | connected | refused | failed | retry | create | starting =>
    simp [AttemptPc.pending, AttemptPc.creates] <;> omega

theorem attempts_keep {pc : AttemptPc} {next : Option AttemptPc} (h : Attempts s pc t next) :
    t.attempts = s.attempts ∧ t.calls = s.calls ∧ t.started = s.started ∧
      s.created ≤ t.created ∧ (next = some .starting → 0 < t.created) ∧
      (t.created = 0 → pc = .starting ∨ (t.world = s.world ∧ t.conn = s.conn)) := by
  cases h <;> simp

theorem single_advance {index : Nat} {inline : Bool} (k : Single s)
    (h : step s (.advance index inline) = some t) : Single t := by
  obtain ⟨thread, pc, u, next, hc, hu, rfl⟩ := step_advance h
  obtain ⟨h1, h2, h3, h4⟩ := calls_count hu
  obtain ⟨k1, k2, k3, k4, k5⟩ := calls_keep hu
  have hcount := Pool.count_replace (fun call => call.2.schedules)
    (next.map fun pc => (thread, pc)) hc
  have hnext : (next.map fun pc => (thread, pc)).toList.countP (fun call => call.2.schedules) =
      next.toList.countP CallPc.schedules := by
    cases next <;> simp [List.countP_cons]
  rw [hnext] at hcount
  obtain ⟨hp, hn, hs, hw, hst⟩ := k
  simp only [pending, connections] at hp hn hs
  refine ⟨?_, ?_, ?_, fun h0 => ?_, fun hm => k2 ▸ hst (k5 hm)⟩
  · simp only [pending, k1]
    simp only at hcount
    omega
  · simp only [connections]
    omega
  · simp only [pending, connections, k1]
    simp only at hcount
    omega
  · obtain ⟨hw1, hw2⟩ := hw (k2 ▸ h0)
    refine ⟨?_, k3.trans hw2⟩
    rcases k4 with he | he
    · exact he.trans hw1
    · rw [hw2] at he
      cases he

theorem single_attempt {index code : Nat} (k : Single s)
    (h : step s (.attempt index code) = some t) : Single t := by
  obtain ⟨pc, u, next, ha, hu, rfl⟩ := step_attempt h
  have hpend := Pool.count_replace AttemptPc.pending next ha
  have hcreate := Pool.count_replace AttemptPc.creates next ha
  obtain ⟨k1, k2, k3, k4, k5, k6⟩ := attempts_keep hu
  obtain ⟨hp, hn, hs, hw, hst⟩ := k
  simp only [pending, connections] at hp hn hs
  have hpos : pc.pending = true → s.state = .kConnecting := by
    intro hpc
    have hpos := List.countP_pos_iff.mpr ⟨pc, List.mem_of_getElem? ha, hpc⟩
    cases hstate : s.state <;> first | rfl | (rw [hstate] at hp; simp only [State.connecting] at hp; omega)
  obtain ⟨h1, h2, h3⟩ := attempts_count hu hpos
  refine ⟨?_, ?_, ?_, fun h0 => ?_, fun hm => ?_⟩
  · simp only [pending, k1, k2]
    omega
  · simp only [connections, k1]
    omega
  · simp only [pending, connections, k1, k2, k3]
    omega
  · have h0' : s.created = 0 := Nat.le_zero.mp (h0 ▸ k4)
    obtain ⟨hw1, hw2⟩ := hw h0'
    rcases k6 h0 with rfl | ⟨he1, he2⟩
    · have := hst (List.mem_of_getElem? ha)
      omega
    · exact ⟨he1.trans hw1, he2.trans hw2⟩
  · rcases Pool.mem_replace ha (k1 ▸ hm) with hm | hm
    · exact k5 hm
    · exact Nat.lt_of_lt_of_le (hst hm) k4

theorem single_raised {n m : Nat} (k : Single s) (h : n + m + 1 = s.tasks + s.timers) :
    Single { s with tasks := n, timers := m, attempts := s.attempts ++ [.raiseConnection] } := by
  obtain ⟨hp, hc, hs, hw, hst⟩ := k
  simp only [pending, connections] at hp hc hs
  refine ⟨?_, ?_, ?_, hw, fun hm => hst (by simpa using hm)⟩
  all_goals
    simp only [pending, connections, List.countP_append, List.countP_singleton, AttemptPc.pending,
      AttemptPc.creates]
    simp
    omega

theorem single_called {thread : Thread} {op : Op} (k : Single s) :
    Single { s with calls := s.calls ++ [(thread, op.entry)] } := by
  have hcount : (s.calls ++ [(thread, op.entry)]).countP (fun call => call.2.schedules) =
      s.calls.countP fun call => call.2.schedules := by
    cases op <;> simp [Op.entry, CallPc.schedules]
  refine ⟨?_, k.connections, ?_, k.unconnected, k.starting⟩
  · have := k.pending
    simp only [pending, hcount] at this ⊢
    exact this
  · have := k.starts
    simp only [pending, connections, hcount] at this ⊢
    exact this

theorem single_store (k : Single s) (hl : s.world.loop.head? = some .afterClose) :
    Single { s with state := .kDisconnected, stored := true } := by
  have hne : s.created ≠ 0 := by
    intro h0
    rw [(k.unconnected h0).1] at hl
    cases hl
  obtain ⟨hp, hc, hs, hw, hst⟩ := k
  simp only [pending, connections] at hp hc hs
  refine ⟨?_, ?_, ?_, hw, hst⟩
  all_goals
    cases hstate : s.state <;> rw [hstate] at hp hc <;>
      simp only [State.connecting, State.established] at hp hc <;>
      simp only [pending, connections, State.connecting, State.established] <;> omega

theorem single_step {a : Action} (k : Single s) (h : step s a = some t) : Single t := by
  cases step_moves h with
  | call thread op => exact single_called k
  | advance => exact single_advance k h
  | task hn => exact single_raised k (by omega)
  | timer hn => exact single_raised k (by omega)
  | attempt => exact single_attempt k h
  | reset hpos | conn hpos =>
    have hne : s.created ≠ 0 := Nat.pos_iff_ne_zero.mp hpos
    exact ⟨k.pending, k.connections, k.starts, fun h0 => absurd h0 hne, k.starting⟩
  | store hl => exact single_store k hl

theorem single_init : Single init where
  pending := rfl
  connections := rfl
  starts := Nat.le_refl _
  unconnected _ := ⟨rfl, rfl⟩
  starting h := by cases h

def SingleAttempt (s : TcpClient) : Prop :=
  (s.attempts = [] → (∀ call ∈ s.calls, call.2 ≠ .start ∧ call.2 ≠ .schedule) →
    s.tasks + s.timers = if s.state = .kConnecting then 1 else 0) ∧ s.created ≤ s.started

theorem single_attempt_holds (k : Single s) : SingleAttempt s := by
  constructor
  · intro ha hc
    have hcalls : s.calls.countP (fun call => call.2.schedules) = 0 := by
      rw [List.countP_eq_zero]
      intro call hm
      simpa [CallPc.schedules] using (hc call hm).2
    have hp := k.pending
    simp only [pending, ha, hcalls, List.countP_nil, Nat.add_zero] at hp
    rw [hp]
    cases s.state <;> rfl
  · have := k.starts
    simp only [connections] at this
    omega

theorem one_attempt_at_a_time (as : List Action) : system.Always SingleAttempt init as :=
  Transition.System.always_of_along (M := system) (I := Single) (G := fun _ _ => True)
    (fun _ _ _ k _ h => single_step k h) (fun _ => single_attempt_holds) single_init
    Transition.System.along_true

end TcpClient
end Pedronet
