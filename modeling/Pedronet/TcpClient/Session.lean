import Pedronet.Session
import Pedronet.TcpClient.Agreement
import Pedronet.TcpClient.Closers

namespace Pedronet
namespace TcpClient
variable {s t : TcpClient}

def State.session : State → Session
  | .kOffline => .idle
  | .kConnecting => .dialling
  | .kConnected => .up
  | .kDisconnecting => .leaving
  | .kDisconnected => .gone

-- The stores and the exchanges of state_ that change it.
def shows (s : TcpClient) : Action → List (Session.Event Closer)
  | .advance index _ =>
    match s.calls[index]? with
    | some (_, .start) => if s.state = .kOffline then [.dial] else []
    | some (_, .closer op) => if s.state = .kConnected then [.leave op] else []
    | _ => []
  | .attempt index _ =>
    match s.attempts[index]? with
    | some .offline => [.giveUp]
    | some .handleConnection => if s.state = .kConnecting then [.connect] else []
    | _ => []
  | .onCloseStore => if s.state = .kDisconnected then [] else [.vanish]
  | .call _ _ | .task | .timer | .conn _ => []

theorem pending_connecting {pc : AttemptPc} (k : Single s) (hm : pc ∈ s.attempts)
    (hp : pc.pending = true) : s.state = .kConnecting := by
  have hpos := List.countP_pos_iff.mpr ⟨pc, hm, hp⟩
  have hsum := k.pending
  simp only [pending] at hsum
  cases hs : s.state <;> first
    | rfl
    | (simp only [hs, State.connecting] at hsum; omega)

theorem close_established (k : Single s) (hl : s.world.loop.head? = some .afterClose) :
    s.state.established = 1 := by
  have hne : s.created ≠ 0 := by
    intro h0
    rw [(k.unconnected h0).1] at hl
    cases hl
  have hsum := k.connections
  simp only [connections] at hsum
  have hle : s.state.established ≤ 1 := by cases s.state <;> decide
  omega

theorem session_step {a : Action} (k : Single s) (h : step s a = some t) :
    (Session.system Closer).run s.state.session (shows s a) = some t.state.session := by
  cases step_moves h with
  | advance hc hv =>
    cases hv with
    | start hs | closer op hs =>
      simp only [shows, hc, hs, if_true]
      rfl
    | startLost hs | closerLost op hs =>
      simp only [shows, hc, if_neg hs]
      rfl
    | _ =>
      simp only [shows, hc]
      rfl
  | attempt ha hv =>
    cases hv with
    | offline =>
      simp only [shows, ha, pending_connecting k (List.mem_of_getElem? ha) rfl]
      rfl
    | handle hs =>
      simp only [shows, ha, hs, if_true]
      rfl
    | handleLost hs =>
      simp only [shows, ha, if_neg hs]
      rfl
    | _ =>
      simp only [shows, ha]
      rfl
  | store hl =>
    have he := close_established k hl
    by_cases hs : s.state = .kDisconnected
    · simp only [shows, hs, if_true]
      rfl
    · simp only [shows, if_neg hs]
      cases hst : s.state with
      | kOffline | kConnecting =>
        rw [hst] at he
        cases he
      | kConnected | kDisconnecting => rfl
      | kDisconnected => exact absurd hst hs
  | _ => rfl

theorem won_step {a : Action} (h : step s a = some t) :
    t.won = s.won ++ (shows s a).flatMap Session.Event.ways := by
  cases step_moves h with
  | advance hc hv =>
    cases hv with
    | closer op hs =>
      simp only [shows, hc, hs, if_true]
      simp [Session.Event.ways]
    | start hs =>
      simp only [shows, hc, hs, if_true]
      simp [Session.Event.ways]
    | startLost hs | closerLost op hs =>
      simp only [shows, hc, if_neg hs]
      simp
    | _ =>
      simp only [shows, hc]
      simp
  | attempt ha hv =>
    cases hv with
    | handle hs =>
      simp only [shows, ha, hs, if_true]
      simp [Session.Event.ways]
    | handleLost hs =>
      simp only [shows, ha, if_neg hs]
      simp
    | _ =>
      simp only [shows, ha]
      simp [Session.Event.ways]
  | store hl =>
    simp only [shows]
    split <;> simp [Session.Event.ways]
  | _ => exact (List.append_nil _).symm

def Backed (s : TcpClient) : Prop :=
  ∀ op, s.applied.count op + (s.calls.countP fun call => call.2.carries op) ≤ s.won.count op

theorem backed_step {a : Action} (b : Backed s) (h : step s a = some t) : Backed t := by
  cases step_moves h with
  | call thread op =>
    intro o
    have hentry : op.entry.carries o = false := by cases op <;> rfl
    simpa [hentry] using b o
  | @advance index _ thread pc u next hc hv =>
    intro op
    have hcarry := calls_carry hv op
    have hcount := Pool.count_replace (fun call => call.2.carries op)
      (next.map fun pc => (thread, pc)) hc
    have hnext : (next.map fun pc => (thread, pc)).toList.countP (fun call => call.2.carries op) =
        next.toList.countP (CallPc.carries op) := by
      cases next <;> simp [List.countP_cons]
    have hb := b op
    rw [hnext] at hcount
    simp only [(calls_keep hv).1] at hcount ⊢
    omega
  | attempt _ hv => cases hv <;> exact b
  | _ => exact b

-- What a client is good for: one session, from the first Start to the OnClose of its connection.
structure OneSession (es : List (Session.Event Closer)) (s : TcpClient) : Prop where
  lives : (Session.system Closer).run .idle es = some s.state.session
  won : s.won = es.flatMap Session.Event.ways
  wins : s.won.length ≤ 1
  applied : ∀ op, s.applied.count op ≤ s.won.count op
  connects : (es.map Session.Event.connects).sum ≤ 1
  created : s.created ≤ (es.map Session.Event.connects).sum
  connected : 0 < s.created → s.tasks = 0 ∧ s.timers = 0 ∧ ∀ pc ∈ s.attempts, pc.pending = false
  gone : s.state = .kDisconnected → ∀ bs t, system.run s bs = some t →
    t.state = .kDisconnected ∧ system.trace shows s bs = []

theorem session_run {as : List Action} (k : Single s) (h : system.run s as = some t) :
    (Session.system Closer).run s.state.session (system.trace shows s as) =
      some t.state.session ∧ Single t := by
  have hstep : ∀ s a t u, Single s ∧ u = s.state.session → system.step s a = some t →
      ∃ v, (Session.system Closer).run u (shows s a) = some v ∧
        Single t ∧ v = t.state.session :=
    fun s a t u ⟨k, hu⟩ hs => ⟨_, hu ▸ session_step k hs, single_step k hs, rfl⟩
  obtain ⟨v, hv, kt, rfl⟩ := Transition.System.run_refines
    (R := fun s v => Single s ∧ v = s.state.session) hstep ⟨k, rfl⟩ h
  exact ⟨hv, kt⟩

theorem single_connected (k : Single s) (hc : 0 < s.created) :
    s.tasks = 0 ∧ s.timers = 0 ∧ ∀ pc ∈ s.attempts, pc.pending = false := by
  have hconn := k.connections
  have hsum := k.pending
  simp only [connections] at hconn
  simp only [pending] at hsum
  have hle : s.state.established ≤ 1 ∧ (s.state.established = 1 → s.state.connecting = 0) := by
    cases s.state <;> decide
  have hzero := hle.2 (by omega)
  have hcount : s.attempts.countP AttemptPc.pending = 0 := by omega
  refine ⟨by omega, by omega, fun pc hm => ?_⟩
  exact Bool.eq_false_iff.mpr (List.countP_eq_zero.mp hcount pc hm)

theorem session_connected (state : State) : state.session.connected = state.established := by
  cases state <;> rfl

theorem lives_once (as : List Action) (h : system.run init as = some s) :
    OneSession (system.trace shows init as) s := by
  obtain ⟨hlives, k⟩ := session_run single_init h
  have hwon : s.won = (system.trace shows init as).flatMap Session.Event.ways :=
    Transition.System.log_run (M := system) (C := Closer) (fun _ _ _ hs => won_step hs) h
  have hback : Backed s := by
    refine Transition.System.run_invariant (M := system) (I := Backed) (G := fun _ _ => True)
      (fun _ _ _ b _ hs => backed_step b hs) (fun _ => by simp [init])
      Transition.System.along_true h
  have hconnects : ((system.trace shows init as).map Session.Event.connects).sum =
      s.state.session.connected := Session.connects_run hlives
  have hsum := k.connections
  rw [session_connected] at hconnects
  simp only [connections] at hsum
  refine ⟨hlives, hwon, ?_, fun op => ?_, ?_, by omega, single_connected k, fun hd bs t ht => ?_⟩
  · rw [hwon]
    exact Nat.le_trans (Session.ways_run hlives) (Session.asked_le _)
  · exact Nat.le_trans (Nat.le_add_right _ _) (hback op)
  · have hle : s.state.established ≤ 1 := by cases s.state <;> decide
    omega
  · obtain ⟨hrest, -⟩ := session_run k ht
    rw [hd] at hrest
    obtain ⟨he, hst⟩ := Session.run_gone hrest
    refine ⟨?_, he⟩
    cases hs : t.state <;> rw [hs] at hst <;> first | rfl | cases hst

def closedTwice : List Action :=
  connected ++ ([.call (.user 0) (.closer .close), .advance 0 false, .advance 0 false,
    .advance 0 false, .call (.user 1) (.closer .shutdown), .advance 0 false,
    .call (.user 2) .start, .advance 0 false] : List Action)

theorem lives_once_closed_twice : ∃ s, system.run init closedTwice = some s ∧
    system.trace shows init closedTwice = [.dial, .connect, .leave .close] ∧
    s.won = [.close] ∧ OneSession [.dial, .connect, .leave .close] s := by
  obtain ⟨s, hs, ht, hw⟩ : ∃ s, system.run init closedTwice = some s ∧
      system.trace shows init closedTwice = [.dial, .connect, .leave .close] ∧
      s.won = [.close] := ⟨_, rfl, rfl, rfl⟩
  exact ⟨s, hs, ht, hw, ht ▸ lives_once closedTwice hs⟩

end TcpClient
end Pedronet
