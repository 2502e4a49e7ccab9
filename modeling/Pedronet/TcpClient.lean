import Pedronet.TcpConnection
import Pedronet.Pool

namespace Pedronet
namespace TcpClient

inductive State where
  | kOffline
  | kConnecting
  | kConnected
  | kDisconnecting
  | kDisconnected
deriving DecidableEq, Repr

def EINTR : Nat := 4
def EAGAIN : Nat := 11
def EADDRINUSE : Nat := 98
def EADDRNOTAVAIL : Nat := 99
def ENETUNREACH : Nat := 101
def EISCONN : Nat := 106
def ECONNREFUSED : Nat := 111
def EINPROGRESS : Nat := 115

inductive Closer where
  | close
  | forceClose
  | shutdown
  | forceShutdown
deriving DecidableEq, Repr

def Closer.op : Closer → TcpConnection.Op
  | .close => .close
  | .forceClose => .forceClose
  | .shutdown => .shutdown
  | .forceShutdown => .forceShutdown

inductive Op where
  | start
  | closer (op : Closer)
deriving DecidableEq, Repr

inductive CallPc where
  | start
  | schedule
  | closer (op : Closer)
  | test (op : Closer)
  | apply (op : Closer)
  | crashed (op : Closer)
deriving DecidableEq, Repr

def Op.entry : Op → CallPc
  | .start => .start
  | .closer op => .closer op

inductive AttemptPc where
  | raiseConnection
  | connect
  | retry
  | offline
  | handleConnection
  | create
  | starting
deriving DecidableEq, Repr

end TcpClient

open TcpClient

-- `world` is that of the last connection created, `stored` tells that its OnClose has stored
-- kDisconnected and not reset conn_ yet; from `started` on the fields are history. The end of a
-- connection's life is left out: conn_.reset() may destroy it inside its own handleRemove.
structure TcpClient where
  state : State
  conn : Bool
  created : Nat
  world : TcpConnection.World
  stored : Bool
  tasks : Nat
  timers : Nat
  attempts : List AttemptPc
  calls : List (TcpConnection.Thread × CallPc)
  started : Nat
  won : List Closer
  applied : List Closer

namespace TcpClient
open TcpConnection (World Thread)

inductive Action where
  | call (thread : Thread) (op : Op)
  | advance (index : Nat) (inline : Bool)
  | task
  | timer
  | attempt (index : Nat) (code : Nat)
  | conn (action : TcpConnection.Action)
  | onCloseStore
deriving DecidableEq, Repr

def init : TcpClient := ⟨.kOffline, false, 0, .init, false, 0, 0, [], [], 0, [], []⟩

def starting (s : TcpClient) : Bool := s.attempts.contains .starting

-- The frame of the callback that runs handleConnection is all that is left of Start.
def returned (s : TcpClient) : Bool := s.world.loop == [.handler .other]

def loopCalls (s : TcpClient) : Bool := s.calls.any fun call => call.1 == .loop

def loopFree (s : TcpClient) : Bool := !s.loopCalls && !(s.starting && s.returned)

def inHandler (s : TcpClient) : Bool :=
  match s.world.loop with
  | .handler _ :: _ => s.loopFree
  | _ => false

-- `inline` tells that Start is called on the loop it has chosen.
def callStep (s : TcpClient) (thread : Thread) (inline : Bool) :
    CallPc → Option (TcpClient × Option CallPc)
  | .start =>
    some (if s.state = .kOffline then
      ({ s with state := .kConnecting, started := s.started + 1 }, some .schedule)
    else (s, none))
  | .schedule =>
    some (if inline then { s with attempts := s.attempts ++ [.raiseConnection] }
    else { s with tasks := s.tasks + 1 }, none)
  | .closer op =>
    some (if s.state = .kConnected then
      ({ s with state := .kDisconnecting, won := s.won ++ [op] }, some (.test op))
    else (s, none))
  | .test op => some (s, if s.conn then some (.apply op) else none)
  | .apply op =>
    -- A conn_ that OnClose has reset since the test is null here.
    if s.conn then
      (TcpConnection.step s.world (.call thread op.op)).map fun w =>
        ({ s with world := w, applied := s.applied ++ [op] }, none)
    else some (s, some (.crashed op))
  | .crashed _ => none

def connectResult (code : Nat) : AttemptPc :=
  if code ∈ [0, EINPROGRESS, EINTR, EISCONN] then .handleConnection
  else if code ∈ [EAGAIN, EADDRINUSE, EADDRNOTAVAIL, ECONNREFUSED, ENETUNREACH] then .retry
  else .offline

def startCall : List TcpConnection.Action := [.enter, .call .loop .start]

def attemptStep (s : TcpClient) (code : Nat) : AttemptPc → Option (TcpClient × Option AttemptPc)
  | .raiseConnection => some (s, if s.state = .kConnecting then some .connect else none)
  | .connect => some (s, some (connectResult code))
  | .retry => some ({ s with timers := s.timers + 1 }, none)
  | .offline => some ({ s with state := .kOffline }, none)
  | .handleConnection =>
    some (if s.state = .kConnecting then ({ s with state := .kConnected }, some .create)
    else (s, none))
  | .create =>
    (TcpConnection.system.run .init startCall).map fun w =>
      ({ s with world := w, created := s.created + 1 }, some .starting)
  | .starting =>
    if s.returned then
      (TcpConnection.step s.world .ret).map fun w => ({ s with world := w, conn := true }, none)
    else none

-- TcpConnection::Start is called by handleConnection only.
def allowed (s : TcpClient) : TcpConnection.Action → Bool
  | .call _ .start => false
  | .call (.user _) _ | .user _ => true
  | .call .loop _ | .exec _ | .ret | .enter | .task _ | .events _ => s.loopFree

-- TcpClientChannelHandler::OnClose resets conn_ after the user's OnClose and its own store.
def connStep (s : TcpClient) (a : TcpConnection.Action) : Option TcpClient :=
  (TcpConnection.step s.world a).bind fun w =>
    match a, s.world.loop with
    | .exec _, .afterClose :: _ =>
      if s.stored then some { s with world := w, conn := false, stored := false } else none
    | _, _ => some { s with world := w }

def step (s : TcpClient) : Action → Option TcpClient
  | .call thread op =>
    if (s.calls.any fun call => call.1 == thread) = false ∧
        (thread = .loop → s.inHandler = true) then
      some { s with calls := s.calls ++ [(thread, op.entry)] }
    else none
  | .advance index inline =>
    match s.calls[index]? with
    | some (thread, pc) =>
      (s.callStep thread inline pc).map fun (t, next) =>
        { t with calls := Pool.replace t.calls index (next.map fun pc => (thread, pc)) }
    | none => none
  | .task =>
    match s.tasks with
    | n + 1 => some { s with tasks := n, attempts := s.attempts ++ [.raiseConnection] }
    | 0 => none
  | .timer =>
    match s.timers with
    | n + 1 => some { s with timers := n, attempts := s.attempts ++ [.raiseConnection] }
    | 0 => none
  | .attempt index code =>
    match s.attempts[index]? with
    | some pc =>
      (s.attemptStep code pc).map fun (t, next) =>
        { t with attempts := Pool.replace t.attempts index next }
    | none => none
  | .conn a => if 0 < s.created ∧ s.allowed a = true then s.connStep a else none
  | .onCloseStore =>
    if s.world.loop.head? = some .afterClose ∧ s.stored = false then
      some { s with state := .kDisconnected, stored := true }
    else none

def system : Transition.System TcpClient Action where
  start s := s = init
  step := step

-- The steps of one Start up to the call of OnConnect, and on to the end of handleConnection.
def connecting : List Action :=
  ([.call (.user 0) .start, .advance 0 false, .advance 0 false, .task, .attempt 0 0, .attempt 0 0,
    .attempt 0 0, .attempt 0 0] : List Action) ++ List.replicate 4 (.conn (.exec .none))

def connected : List Action :=
  connecting ++ ([.conn .ret, .conn (.exec .none), .attempt 0 0] : List Action)

variable {s t : TcpClient}

theorem step_call {thread : Thread} {op : Op} (h : step s (.call thread op) = some t) :
    (thread = .loop → s.inHandler = true) ∧
      t = { s with calls := s.calls ++ [(thread, op.entry)] } := by
  simp only [step] at h
  split at h
  · rename_i hc
    exact ⟨hc.2, by simpa using h.symm⟩
  · cases h

inductive Calls (s : TcpClient) (thread : Thread) : CallPc → TcpClient → Option CallPc → Prop where
  | start (h : s.state = .kOffline) :
    Calls s thread .start { s with state := .kConnecting, started := s.started + 1 } (some .schedule)
  | startLost (h : s.state ≠ .kOffline) : Calls s thread .start s none
  | inlined :
    Calls s thread .schedule { s with attempts := s.attempts ++ [.raiseConnection] } none
  | queued : Calls s thread .schedule { s with tasks := s.tasks + 1 } none
  | closer (op : Closer) (h : s.state = .kConnected) :
    Calls s thread (.closer op) { s with state := .kDisconnecting, won := s.won ++ [op] }
      (some (.test op))
  | closerLost (op : Closer) (h : s.state ≠ .kConnected) : Calls s thread (.closer op) s none
  | found (op : Closer) (h : s.conn = true) : Calls s thread (.test op) s (some (.apply op))
  | lost (op : Closer) (h : s.conn = false) : Calls s thread (.test op) s none
  | apply (op : Closer) (w : World) (h : s.conn = true)
    (hw : TcpConnection.step s.world (.call thread op.op) = some w) :
    Calls s thread (.apply op) { s with world := w, applied := s.applied ++ [op] } none
  | null (op : Closer) (h : s.conn = false) : Calls s thread (.apply op) s (some (.crashed op))

theorem call_step_calls {thread : Thread} {inline : Bool} {pc : CallPc} {next : Option CallPc}
    (h : s.callStep thread inline pc = some (t, next)) : Calls s thread pc t next := by
  cases pc with
  | start =>
    simp only [callStep, Option.some.injEq] at h
    split at h <;> cases h
    · exact .start ‹_›
    · exact .startLost ‹_›
  | schedule =>
    simp only [callStep, Option.some.injEq, Prod.mk.injEq] at h
    obtain ⟨rfl, rfl⟩ := h
    split
    · exact .inlined
    · exact .queued
  | closer op =>
    simp only [callStep, Option.some.injEq] at h
    split at h <;> cases h
    · exact .closer op ‹_›
    · exact .closerLost op ‹_›
  | test op =>
    simp only [callStep, Option.some.injEq, Prod.mk.injEq] at h
    obtain ⟨rfl, rfl⟩ := h
    split
    · exact .found op ‹_›
    · exact .lost op (Bool.eq_false_iff.mpr ‹_›)
  | apply op =>
    simp only [callStep] at h
    split at h
    · obtain ⟨w, hw, he⟩ := Option.map_eq_some_iff.mp h
      cases he
      exact .apply op w ‹_› hw
    · cases h
      exact .null op (Bool.eq_false_iff.mpr ‹_›)
  | crashed op => cases h

theorem step_advance {index : Nat} {inline : Bool} (h : step s (.advance index inline) = some t) :
    ∃ thread pc u next, s.calls[index]? = some (thread, pc) ∧ Calls s thread pc u next ∧
      t = { u with calls := Pool.replace u.calls index (next.map fun pc => (thread, pc)) } := by
  simp only [step] at h
  split at h
  · rename_i thread pc hc
    obtain ⟨⟨u, next⟩, hu, rfl⟩ := Option.map_eq_some_iff.mp h
    exact ⟨thread, pc, u, next, hc, call_step_calls hu, rfl⟩
  · cases h

theorem step_task (h : step s .task = some t) :
    ∃ n, s.tasks = n + 1 ∧
      t = { s with tasks := n, attempts := s.attempts ++ [.raiseConnection] } := by
  simp only [step] at h
  split at h
  · rename_i n hn
    exact ⟨n, hn, by simpa using h.symm⟩
  · cases h

theorem step_timer (h : step s .timer = some t) :
    ∃ n, s.timers = n + 1 ∧
      t = { s with timers := n, attempts := s.attempts ++ [.raiseConnection] } := by
  simp only [step] at h
  split at h
  · rename_i n hn
    exact ⟨n, hn, by simpa using h.symm⟩
  · cases h

inductive Attempts (s : TcpClient) : AttemptPc → TcpClient → Option AttemptPc → Prop where
  | raise (h : s.state = .kConnecting) : Attempts s .raiseConnection s (some .connect)
  | notConnecting (h : s.state ≠ .kConnecting) : Attempts s .raiseConnection s none
  | connected : Attempts s .connect s (some .handleConnection)
  | refused : Attempts s .connect s (some .retry)
  | failed : Attempts s .connect s (some .offline)
  | retry : Attempts s .retry { s with timers := s.timers + 1 } none
  | offline : Attempts s .offline { s with state := .kOffline } none
  | handle (h : s.state = .kConnecting) :
    Attempts s .handleConnection { s with state := .kConnected } (some .create)
  | handleLost (h : s.state ≠ .kConnecting) : Attempts s .handleConnection s none
  | create (w : World) (h : TcpConnection.system.run .init startCall = some w) :
    Attempts s .create { s with world := w, created := s.created + 1 } (some .starting)
  | starting (w : World) (h : s.world.loop = [.handler .other])
    (hw : TcpConnection.step s.world .ret = some w) :
    Attempts s .starting { s with world := w, conn := true } none

theorem attempt_step_attempts {code : Nat} {pc : AttemptPc} {next : Option AttemptPc}
    (h : s.attemptStep code pc = some (t, next)) : Attempts s pc t next := by
  cases pc with
  | raiseConnection =>
    simp only [attemptStep, Option.some.injEq, Prod.mk.injEq] at h
    obtain ⟨rfl, rfl⟩ := h
    split
    · exact .raise ‹_›
    · exact .notConnecting ‹_›
  | connect =>
    cases h
    unfold connectResult
    split
    · exact .connected
    · split
      · exact .refused
      · exact .failed
  | retry => cases h; exact .retry
  | offline => cases h; exact .offline
  | handleConnection =>
    simp only [attemptStep, Option.some.injEq] at h
    split at h <;> cases h
    · exact .handle ‹_›
    · exact .handleLost ‹_›
  | create =>
    simp only [attemptStep] at h
    obtain ⟨w, hw, he⟩ := Option.map_eq_some_iff.mp h
    cases he
    exact .create w hw
  | starting =>
    simp only [attemptStep] at h
    split at h
    · rename_i hr
      obtain ⟨w, hw, he⟩ := Option.map_eq_some_iff.mp h
      cases he
      exact .starting w (by simpa [returned] using hr) hw
    · cases h

theorem step_attempt {index code : Nat} (h : step s (.attempt index code) = some t) :
    ∃ pc u next, s.attempts[index]? = some pc ∧ Attempts s pc u next ∧
      t = { u with attempts := Pool.replace u.attempts index next } := by
  simp only [step] at h
  split at h
  · rename_i pc hp
    obtain ⟨⟨u, next⟩, hu, rfl⟩ := Option.map_eq_some_iff.mp h
    exact ⟨pc, u, next, hp, attempt_step_attempts hu, rfl⟩
  · cases h

theorem step_conn {a : TcpConnection.Action} (h : step s (.conn a) = some t) :
    0 < s.created ∧ s.allowed a = true ∧ ∃ w, TcpConnection.step s.world a = some w ∧
      ((∃ env rest, a = .exec env ∧ s.world.loop = .afterClose :: rest ∧ s.stored = true ∧
          t = { s with world := w, conn := false, stored := false }) ∨
        (∀ env rest, a = .exec env → s.world.loop ≠ .afterClose :: rest) ∧
          t = { s with world := w }) := by
  simp only [step] at h
  split at h
  · rename_i hc
    obtain ⟨w, hw, h⟩ := Option.bind_eq_some_iff.mp h
    refine ⟨hc.1, hc.2, w, hw, ?_⟩
    split at h
    · rename_i env rest hl _
      split at h
      · cases h
        exact .inl ⟨env, rest, rfl, hl, ‹_›, rfl⟩
      · cases h
    · rename_i hn
      cases h
      exact .inr ⟨fun env rest ha hl => hn env rest ha hl, rfl⟩
  · cases h

theorem step_on_close_store (h : step s .onCloseStore = some t) :
    s.world.loop.head? = some .afterClose ∧ s.stored = false ∧
      t = { s with state := .kDisconnected, stored := true } := by
  simp only [step] at h
  split at h
  · rename_i hc
    exact ⟨hc.1, hc.2, by simpa using h.symm⟩
  · cases h

inductive Moves (s : TcpClient) : Action → TcpClient → Prop where
  | call (thread : Thread) (op : Op) (h : thread = .loop → s.inHandler = true) :
    Moves s (.call thread op) { s with calls := s.calls ++ [(thread, op.entry)] }
  | advance {index : Nat} {inline : Bool} {thread : Thread} {pc : CallPc} {u : TcpClient}
    {next : Option CallPc} (hc : s.calls[index]? = some (thread, pc)) (hu : Calls s thread pc u next) :
    Moves s (.advance index inline)
      { u with calls := Pool.replace u.calls index (next.map fun pc => (thread, pc)) }
  | task {n : Nat} (h : s.tasks = n + 1) :
    Moves s .task { s with tasks := n, attempts := s.attempts ++ [.raiseConnection] }
  | timer {n : Nat} (h : s.timers = n + 1) :
    Moves s .timer { s with timers := n, attempts := s.attempts ++ [.raiseConnection] }
  | attempt {index code : Nat} {pc : AttemptPc} {u : TcpClient} {next : Option AttemptPc}
    (ha : s.attempts[index]? = some pc) (hu : Attempts s pc u next) :
    Moves s (.attempt index code) { u with attempts := Pool.replace u.attempts index next }
  | reset {env : TcpConnection.Env} {rest : List TcpConnection.Instr} {w : World}
    (hpos : 0 < s.created) (ha : s.allowed (.exec env) = true)
    (hw : TcpConnection.step s.world (.exec env) = some w)
    (hl : s.world.loop = .afterClose :: rest) (hs : s.stored = true) :
    Moves s (.conn (.exec env)) { s with world := w, conn := false, stored := false }
  | conn {b : TcpConnection.Action} {w : World} (hpos : 0 < s.created) (ha : s.allowed b = true)
    (hw : TcpConnection.step s.world b = some w)
    (hn : ∀ env rest, b = .exec env → s.world.loop ≠ .afterClose :: rest) :
    Moves s (.conn b) { s with world := w }
  | store (hl : s.world.loop.head? = some .afterClose) (hs : s.stored = false) :
    Moves s .onCloseStore { s with state := .kDisconnected, stored := true }

theorem step_moves {a : Action} (h : step s a = some t) : Moves s a t := by
  cases a with
  | call thread op =>
    obtain ⟨hc, rfl⟩ := step_call h
    exact .call thread op hc
  | advance index inline =>
    obtain ⟨thread, pc, u, next, hc, hu, rfl⟩ := step_advance h
    exact .advance hc hu
  | task =>
    obtain ⟨n, hn, rfl⟩ := step_task h
    exact .task hn
  | timer =>
    obtain ⟨n, hn, rfl⟩ := step_timer h
    exact .timer hn
  | attempt index code =>
    obtain ⟨pc, u, next, ha, hu, rfl⟩ := step_attempt h
    exact .attempt ha hu
  | conn b =>
    obtain ⟨hpos, hb, w, hw, hcase⟩ := step_conn h
    rcases hcase with ⟨env, rest, rfl, hl, hs, rfl⟩ | ⟨hn, rfl⟩
    · exact .reset hpos hb hw hl hs
    · exact .conn hpos hb hw hn
  | onCloseStore =>
    obtain ⟨hl, hs, rfl⟩ := step_on_close_store h
    exact .store hl hs

end TcpClient
end Pedronet
