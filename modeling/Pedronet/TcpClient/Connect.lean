import Pedronet.TcpClient.Attempts

namespace Pedronet
namespace Socket

structure Errno where
  value : Nat
  pos : 0 < value
deriving DecidableEq

inductive SoError where
  | value (val : Nat)
  | failed (errno : Errno)
deriving DecidableEq

-- The result of `connect(2)`, and where it fails what the socket's own error is read as.
inductive Connect where
  | success
  | failed (errno : Errno) (soError : SoError)
deriving DecidableEq

def getError : SoError → Nat
  | .value val => val
  | .failed errno => errno.value

def connect : Connect → Nat
  | .success => 0
  | .failed _ soError => getError soError

def Connect.errno : Connect → Option Nat
  | .success => none
  | .failed errno _ => some errno.value

end Socket

namespace TcpClient
open Socket (Connect)

inductive SocketState where
  | opened
  | closed
  | moved
deriving DecidableEq, Repr

-- `socket` is the local variable of the last raiseConnection that has created one.
structure Raising where
  client : TcpClient
  socket : Option SocketState

inductive RaiseAction where
  | other (action : Action)
  | attempt (index : Nat) (result : Connect)
deriving DecidableEq

def Action.attempts : Action → Bool
  | .attempt _ _ => true
  | .call _ _ | .advance _ _ | .task | .timer | .conn _ | .onCloseStore => false

def socketAfter (w : Raising) : Option AttemptPc → Option SocketState
  | some .raiseConnection =>
    if w.client.state = .kConnecting then some .opened else w.socket
  | some .retry => some .closed
  | some .handleConnection => some .moved
  | some .connect | some .offline | some .create | some .starting | none => w.socket

def Raising.step (w : Raising) : RaiseAction → Option Raising
  | .other a =>
    if a.attempts then none else (TcpClient.step w.client a).map fun s => { w with client := s }
  | .attempt index result =>
    (TcpClient.step w.client (.attempt index (Socket.connect result))).map fun s =>
      ⟨s, socketAfter w w.client.attempts[index]?⟩

def raising : Transition.System Raising RaiseAction where
  start w := w = ⟨init, none⟩
  step := Raising.step

-- raiseConnection up to where it has called retry, stored kOffline or passed the compare-exchange
-- of handleConnection, with what others do before, between and after its steps.
def raiseRun (index : Nat) (result : Connect) (before between after : List Action) :
    List RaiseAction :=
  before.map .other ++ .attempt index result :: (between.map .other ++
    .attempt index result :: (after.map .other ++ [.attempt index result]))

def inProgress : List Nat := [EINPROGRESS, EINTR, EISCONN]

def retried : List Nat := [EAGAIN, EADDRINUSE, EADDRNOTAVAIL, ECONNREFUSED, ENETUNREACH]

structure Classified (result : Connect) (s : TcpClient) (t : Raising) : Prop where
  retried : ∀ e ∈ result.errno, e ∈ retried → t.socket = some .closed ∧
    t.client.timers = s.timers + 1 ∧ t.client.state = .kConnecting ∧ t.client.created = s.created
  offline : ∀ e ∈ result.errno, e ∉ TcpClient.retried → e ∉ inProgress →
    t.client.state = .kOffline ∧ t.client.created = s.created
  connected : t.client.state = .kConnected → ∀ e ∈ result.errno, e ∈ inProgress

-- The switch over the error GetError reads takes the way it takes for errno.
def ReadsOwn : Connect → Prop
  | .success => True
  | .failed errno soError => errno.value ∈ inProgress ∨
    connectResult (Socket.getError soError) = connectResult errno.value

instance : DecidablePred ReadsOwn
  | .success => isTrue trivial
  | .failed _ _ => inferInstanceAs (Decidable (_ ∨ _))

variable {s t u : TcpClient}

theorem single_connecting (k : Single s) (hs : s.state = .kConnecting) {pc : AttemptPc}
    (hp : pc ∈ s.attempts) (hpend : pc.pending = true) :
    s.tasks = 0 ∧ s.timers = 0 ∧ (∀ call ∈ s.calls, call.2 ≠ .schedule) ∧ s.created = 0 := by
  have h1 := k.pending
  have h2 := k.connections
  have hpos := List.countP_pos_iff.mpr ⟨pc, hp, hpend⟩
  simp only [pending, connections, hs, State.connecting, State.established] at h1 h2
  have hcalls : s.calls.countP (fun call => call.2.schedules) = 0 := by omega
  refine ⟨by omega, by omega, fun call hm hc => ?_, by omega⟩
  have hn := List.countP_eq_zero.mp hcalls call hm
  rw [hc] at hn
  exact hn rfl

structure Left (s t : TcpClient) : Prop where
  state : t.state = s.state
  attempts : t.attempts = s.attempts
  timers : t.timers = s.timers
  created : t.created = s.created

theorem left_step {a : Action} (k : Single s) (hs : s.state = .kConnecting) {pc : AttemptPc}
    (hp : pc ∈ s.attempts) (hpend : pc.pending = true) (ha : a.attempts = false)
    (h : step s a = some t) : Left s t := by
  obtain ⟨htasks, htimers, hcalls, hcreated⟩ := single_connecting k hs hp hpend
  obtain ⟨hworld, hconn⟩ := k.unconnected hcreated
  cases step_moves h with
  | call => exact ⟨rfl, rfl, rfl, rfl⟩
  | advance hc hu =>
    cases hu with
    | start hn | closer _ hn =>
      rw [hs] at hn
      cases hn
    | inlined | queued => exact absurd rfl (hcalls _ (List.mem_of_getElem? hc))
    | found _ hf | apply _ _ hf =>
      rw [hconn] at hf
      cases hf
    | startLost | closerLost | lost | null => exact ⟨rfl, rfl, rfl, rfl⟩
  | task hn =>
    rw [htasks] at hn
    cases hn
  | timer hn =>
    rw [htimers] at hn
    cases hn
  | attempt => cases ha
  | reset hpos | conn hpos => exact absurd hpos (by omega)
  | store hl =>
    rw [hworld] at hl
    cases hl

variable {w v : Raising} {index : Nat} {result : Connect}

theorem raising_other {a : Action} (h : w.step (.other a) = some v) :
    ∃ t, a.attempts = false ∧ step w.client a = some t ∧ v = { w with client := t } := by
  simp only [Raising.step] at h
  split at h
  · cases h
  · rename_i ha
    obtain ⟨t, ht, rfl⟩ := Option.map_eq_some_iff.mp h
    exact ⟨t, by simpa using ha, ht, rfl⟩

theorem left_run {as : List Action} (k : Single w.client) (hs : w.client.state = .kConnecting)
    {pc : AttemptPc} (hp : w.client.attempts[index]? = some pc) (hpend : pc.pending = true)
    (h : raising.run w (as.map .other) = some v) :
    Single v.client ∧ Left w.client v.client ∧ v.socket = w.socket := by
  induction as generalizing w with
  | nil =>
    cases h
    exact ⟨k, ⟨rfl, rfl, rfl, rfl⟩, rfl⟩
  | cons a as ih =>
    obtain ⟨u, hu, hv⟩ := Transition.System.run_cons h
    obtain ⟨t, ha, ht, rfl⟩ := raising_other hu
    have hl := left_step k hs (List.mem_of_getElem? hp) hpend ha ht
    obtain ⟨k', hl', hx⟩ := ih (single_step k ht) (hl.state.trans hs) (hl.attempts ▸ hp) hv
    exact ⟨k', ⟨hl'.state.trans hl.state, hl'.attempts.trans hl.attempts,
      hl'.timers.trans hl.timers, hl'.created.trans hl.created⟩, hx⟩

theorem raising_single (k : Single w.client) (h : w.step (.attempt index result) = some v) :
    Single v.client := by
  obtain ⟨t, ht, rfl⟩ := Option.map_eq_some_iff.mp h
  exact single_step k ht

theorem raising_raise (hs : w.client.state = .kConnecting)
    (hi : w.client.attempts[index]? = some .raiseConnection)
    (h : w.step (.attempt index result) = some v) :
    v = ⟨{ w.client with attempts := w.client.attempts.set index .connect }, some .opened⟩ := by
  simpa [Raising.step, TcpClient.step, hi, attemptStep, hs, Pool.replace, socketAfter] using h.symm

theorem raising_connect (hi : w.client.attempts[index]? = some .connect)
    (h : w.step (.attempt index result) = some v) :
    v = { w with
      client := { w.client with
        attempts := w.client.attempts.set index (connectResult (Socket.connect result)) } } := by
  simpa [Raising.step, TcpClient.step, hi, attemptStep, Pool.replace, socketAfter] using h.symm

theorem connect_result_cases (code : Nat) :
    (connectResult code = .handleConnection ∧ code ∈ 0 :: inProgress) ∨
      (connectResult code = .retry ∧ code ∈ retried ∧ code ∉ 0 :: inProgress) ∨
      (connectResult code = .offline ∧ code ∉ retried ∧ code ∉ 0 :: inProgress) := by
  by_cases h0 : code ∈ 0 :: inProgress
  · exact .inl ⟨if_pos h0, h0⟩
  · by_cases h1 : code ∈ retried
    · exact .inr (.inl ⟨(if_neg h0).trans (if_pos h1), h1, h0⟩)
    · exact .inr (.inr ⟨(if_neg h0).trans (if_neg h1), h1, h0⟩)

structure Chosen (result : Connect) (index : Nat) (s : TcpClient) (w : Raising) : Prop where
  state : w.client.state = .kConnecting
  timers : w.client.timers = s.timers
  created : w.client.created = s.created
  attempt : w.client.attempts[index]? = some (connectResult (Socket.connect result))

theorem connect_result_pending (code : Nat) : (connectResult code).pending = true := by
  rcases connect_result_cases code with ⟨h, -⟩ | ⟨h, -⟩ | ⟨h, -⟩ <;> rw [h] <;> rfl

theorem raise_run {before between after : List Action} (k : Single s) (hs : s.state = .kConnecting)
    (hi : s.attempts[index]? = some .raiseConnection) {socket : Option SocketState}
    (h : raising.run ⟨s, socket⟩ (raiseRun index result before between after) = some v) :
    ∃ w, Chosen result index s w ∧ w.step (.attempt index result) = some v := by
  obtain ⟨w1, h1, h⟩ := Transition.System.run_append.mp h
  obtain ⟨w2, h2, h⟩ := Transition.System.run_cons h
  obtain ⟨w3, h3, h⟩ := Transition.System.run_append.mp h
  obtain ⟨w4, h4, h⟩ := Transition.System.run_cons h
  obtain ⟨w5, h5, h⟩ := Transition.System.run_append.mp h
  obtain ⟨w6, h6, h⟩ := Transition.System.run_cons h
  cases h
  obtain ⟨k1, l1, -⟩ := left_run k hs hi rfl h1
  have hs1 : w1.client.state = .kConnecting := l1.state.trans hs
  have hi1 : w1.client.attempts[index]? = some .raiseConnection := l1.attempts ▸ hi
  have hlt := (List.getElem?_eq_some_iff.mp hi1).1
  have k2 := raising_single k1 h2
  cases raising_raise hs1 hi1 h2
  have hi2 : (w1.client.attempts.set index .connect)[index]? = some .connect := by simp [hlt]
  obtain ⟨k3, l3, -⟩ := left_run k2 hs1 hi2 rfl h3
  have hi3 : w3.client.attempts[index]? = some .connect := l3.attempts ▸ hi2
  have hlt := (List.getElem?_eq_some_iff.mp hi3).1
  have k4 := raising_single k3 h4
  cases raising_connect hi3 h4
  have hs3 : w3.client.state = .kConnecting := l3.state.trans hs1
  have hi4 : (w3.client.attempts.set index (connectResult (Socket.connect result)))[index]? =
      some (connectResult (Socket.connect result)) := by simp [hlt]
  obtain ⟨-, l5, -⟩ := left_run k4 hs3 hi4 (connect_result_pending _) h5
  exact ⟨w5, ⟨l5.state.trans hs3, (l5.timers.trans l3.timers).trans l1.timers,
    (l5.created.trans l3.created).trans l1.created, l5.attempts ▸ hi4⟩, h6⟩

inductive Outcome (s : TcpClient) (t : Raising) : AttemptPc → Prop where
  | connected (h : t.client.state = .kConnected) : Outcome s t .handleConnection
  | retry (hk : t.socket = some .closed) (ht : t.client.timers = s.timers + 1)
    (hs : t.client.state = .kConnecting) (hc : t.client.created = s.created) : Outcome s t .retry
  | offline (hs : t.client.state = .kOffline) (hc : t.client.created = s.created) :
    Outcome s t .offline

theorem chosen_outcome (c : Chosen result index s w)
    (h : w.step (.attempt index result) = some v) :
    Outcome s v (connectResult (Socket.connect result)) := by
  have hi := c.attempt
  rcases connect_result_cases (Socket.connect result) with ⟨hr, -⟩ | ⟨hr, -⟩ | ⟨hr, -⟩
  all_goals
    rw [hr] at hi ⊢
    simp only [Raising.step, TcpClient.step, hi, attemptStep, c.state, if_true, Option.map_some,
      Pool.replace, socketAfter, Option.some.injEq] at h
    subst h
  · exact .connected rfl
  · exact .retry rfl (congrArg (· + 1) c.timers) rfl c.created
  · exact .offline rfl c.created

theorem retried_not_in_progress : ∀ e ∈ retried, e ∉ inProgress := by decide

theorem outcome_retried {way : AttemptPc} (o : Outcome s v way) :
    (v.socket = some .closed ∧ v.client.timers = s.timers + 1 ∧ v.client.state = .kConnecting ∧
      v.client.created = s.created) ↔ way = .retry := by
  constructor
  · rintro ⟨-, -, hs, -⟩
    cases o with
    | connected h =>
      rw [hs] at h
      cases h
    | retry => rfl
    | offline h =>
      rw [hs] at h
      cases h
  · rintro rfl
    cases o with
    | retry hk ht hs hc => exact ⟨hk, ht, hs, hc⟩

theorem outcome_offline {way : AttemptPc} (o : Outcome s v way) :
    (v.client.state = .kOffline ∧ v.client.created = s.created) ↔ way = .offline := by
  constructor
  · rintro ⟨hs, -⟩
    cases o with
    | connected h =>
      rw [hs] at h
      cases h
    | retry _ _ h =>
      rw [hs] at h
      cases h
    | offline => rfl
  · rintro rfl
    cases o with
    | offline hs hc => exact ⟨hs, hc⟩

theorem outcome_classified {errno : Socket.Errno} {soError : Socket.SoError}
    (o : Outcome s v (connectResult (Socket.getError soError))) :
    Classified (.failed errno soError) s v ↔ ReadsOwn (.failed errno soError) := by
  have hne : errno.value ≠ 0 := Nat.ne_of_gt errno.pos
  rcases connect_result_cases errno.value with ⟨-, he⟩ | ⟨hr, he, hn⟩ | ⟨hr, he, hn⟩
  · have he := (List.mem_cons.mp he).resolve_left hne
    refine iff_of_true ⟨fun e hm hr => ?_, fun e hm _ hn => ?_, fun _ e hm => ?_⟩ (.inl he)
    all_goals cases hm
    · exact absurd he (retried_not_in_progress _ hr)
    · exact absurd he hn
    · exact he
  · have hn : errno.value ∉ inProgress := fun hm => hn (List.mem_cons_of_mem _ hm)
    constructor
    · intro c
      exact .inr (((outcome_retried o).mp (c.retried _ rfl he)).trans hr.symm)
    · intro hw
      have hw := (hw.resolve_left hn).trans hr
      have ho := (outcome_retried o).mpr hw
      refine ⟨fun _ _ _ => ho, fun e hm hx _ => ?_, fun hs => ?_⟩
      · cases hm
        exact absurd he hx
      · rw [ho.2.2.1] at hs
        cases hs
  · have hn : errno.value ∉ inProgress := fun hm => hn (List.mem_cons_of_mem _ hm)
    constructor
    · intro c
      exact .inr (((outcome_offline o).mp (c.offline _ rfl he hn)).trans hr.symm)
    · intro hw
      have hw := (hw.resolve_left hn).trans hr
      have ho := (outcome_offline o).mpr hw
      refine ⟨fun e hm hx => ?_, fun _ _ _ _ => ho, fun hs => ?_⟩
      · cases hm
        exact absurd hx he
      · rw [ho.1] at hs
        cases hs

theorem connect_classified_iff (as : List Action) (index : Nat) (result : Connect)
    (before between after : List Action) {s : TcpClient} {t : Raising}
    (hr : system.run init as = some s) (hs : s.state = .kConnecting)
    (hi : s.attempts[index]? = some .raiseConnection)
    (ht : raising.run ⟨s, none⟩ (raiseRun index result before between after) = some t) :
    Classified result s t ↔ ReadsOwn result := by
  have k : Single s := Transition.System.run_invariant (M := system) (G := fun _ _ => True)
    (fun _ _ _ k _ h => single_step k h) single_init Transition.System.along_true hr
  obtain ⟨w, c, h⟩ := raise_run k hs hi ht
  have o := chosen_outcome c h
  cases result with
  | success =>
    exact iff_of_true ⟨(fun _ h => by cases h), (fun _ h => by cases h), fun _ _ h => by cases h⟩
      trivial
  | failed errno soError => exact outcome_classified o

def raised : List Action := [.call (.user 0) .start, .advance 0 false, .advance 0 false, .task]

def refused (soError : Socket.SoError) : Connect := .failed ⟨ECONNREFUSED, by decide⟩ soError

-- A Start of another thread is turned down in between.
theorem connect_classified_refused : ∃ s t,
    raising.run ⟨s, none⟩ (raiseRun 0 (refused (.value ECONNREFUSED)) [.call (.user 1) .start]
      [.advance 0 false] []) = some t ∧
      (Classified (refused (.value ECONNREFUSED)) s t ↔ ReadsOwn (refused (.value ECONNREFUSED))) := by
  refine ⟨_, _, ?_, connect_classified_iff raised 0 (refused (.value ECONNREFUSED))
    [.call (.user 1) .start] [.advance 0 false] [] rfl rfl rfl rfl⟩
  rfl

theorem refused_connects : ¬ ∀ (as : List Action) (index : Nat) (result : Connect)
    (before between after : List Action) (s : TcpClient) (t : Raising),
    system.run init as = some s → s.state = .kConnecting →
    s.attempts[index]? = some .raiseConnection →
    raising.run ⟨s, none⟩ (raiseRun index result before between after) = some t →
    Classified result s t := by
  intro h
  have hc := h raised 0 (refused (.value 0)) [] [] [] _ _ rfl rfl rfl rfl
  exact absurd (hc.connected rfl _ rfl) (by decide)

end TcpClient
end Pedronet
