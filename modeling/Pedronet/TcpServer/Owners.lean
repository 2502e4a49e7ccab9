import Pedronet.TcpServer.Close

namespace Pedronet
namespace TcpServer
open TcpConnection (World Instr Task Idle)

-- What runs a connection's code on its loop: a queued task that has captured self, one that has not,
-- or something else.
inductive Entry where
  | capturing
  | bare
  | other
deriving DecidableEq, Repr

-- `refs` has the connections that user code holds a shared_ptr to, `dead` those whose last shared_ptr
-- is gone; `undefined` tells that a step has used a dead connection.
structure Owners where
  server : TcpServer
  refs : Finset Nat
  entry : Nat → Entry
  dead : Nat → Bool
  undefined : Bool

namespace Owners

inductive Action where
  | server (action : TcpServer.Action)
  | hold (id : Nat)
  | release (id : Nat)
deriving DecidableEq, Repr

def init : Owners := ⟨.init, ∅, fun _ => .other, fun _ => false, false⟩

def isSend : Task → Bool
  | .handleSend _ | .send _ => true
  | .add | .close | .forceClose | .shutdown | .forceShutdown => false

-- Start's lambda and those of Send capture self; the [=] lambdas of the closers use no self.
def captures (task : Task) : Bool := task = .add || isSend task

-- A closer holds self while Run runs its task at once, and handleClose while it removes the channel.
def keeps (entry : Entry) : Instr → Bool
  | .task .loop task => !isSend task
  | .startCallback | .setReadable => true
  | .remove | .handleRemove | .afterClose => entry ≠ .bare
  | _ => false

-- A shared_ptr other than the one in conns_.
def kept (s : Owners) (id : Nat) : Bool :=
  id ∈ s.refs || s.server.boss.any (fun accepted => accepted.1 = id) ||
    (s.server.world id).tasks.any (fun task => captures task.2) ||
    (s.entry id = .capturing && !(s.server.world id).loop.isEmpty) ||
    (s.server.world id).loop.any (keeps (s.entry id))

def owned (s : Owners) (id : Nat) : Bool := id ∈ s.server.conns || s.kept id

-- OnClose erases the connection from conns_ before handleRemove goes on with it; the channel's own
-- Close uses the channel only, which the event loop holds.
def alive (s : Owners) : TcpServer.Action → Bool
  | .conn id (.exec _) =>
    match (s.server.world id).loop with
    | .fileClose :: _ => true
    | .afterClose :: _ => !s.dead id && s.kept id
    | _ => !s.dead id
  | .conn id (.call _ _) | .conn id (.user _) | .visit id => !s.dead id
  | .closeConn =>
    match s.server.closer with
    | .visiting id _ => !s.dead id
    | _ => true
  | _ => true

def entryAfter (s : Owners) : TcpServer.Action → Nat → Entry
  | .conn id (.task index), i =>
    if i = id then
      match (s.server.world id).tasks[index]? with
      | some (_, task) => if captures task then .capturing else .bare
      | none => .other
    else s.entry i
  | .conn id .enter, i | .conn id (.events _), i => if i = id then .other else s.entry i
  | _, i => s.entry i

def bury (s : Owners) : Owners :=
  { s with dead := fun id => s.dead id || (id < s.server.accepted && !s.owned id) }

def step (s : Owners) : Action → Option Owners
  | .server a =>
    (TcpServer.step s.server a).map fun t =>
      { s with
        server := t, entry := s.entryAfter a, undefined := s.undefined || !s.alive a }.bury
  | .hold id =>
    if id < s.server.accepted ∧ s.dead id = false then some { s with refs := insert id s.refs }
    else none
  | .release id => if id ∈ s.refs then some { s with refs := s.refs.erase id }.bury else none

def system : Transition.System Owners Action where
  start s := s = init
  step := step

def Closed (s : Owners) : Prop := s.undefined = false ∧ TcpServer.Closed s.server

def Covered (s : Owners) : Action → Prop
  | .server a => TcpServer.Covered s.server a ∧ s.alive a = true
  | .hold _ | .release _ => True

instance (s : Owners) : DecidablePred (Covered s)
  | .server _ => inferInstanceAs (Decidable (_ ∧ _))
  | .hold _ | .release _ => isTrue trivial

variable {s t : Owners}

theorem step_server {a : TcpServer.Action} (h : step s (.server a) = some t) :
    ∃ u, TcpServer.step s.server a = some u ∧
      t = { s with
        server := u, entry := s.entryAfter a, undefined := s.undefined || !s.alive a }.bury := by
  obtain ⟨u, hu, rfl⟩ := Option.map_eq_some_iff.mp h
  exact ⟨u, hu, rfl⟩

theorem step_hold {id : Nat} (h : step s (.hold id) = some t) :
    s.dead id = false ∧ t = { s with refs := insert id s.refs } := by
  simp only [step] at h
  split at h
  · rename_i hc
    exact ⟨hc.2, by simpa using h.symm⟩
  · cases h

theorem step_release {id : Nat} (h : step s (.release id) = some t) :
    t = { s with refs := s.refs.erase id }.bury := by
  simp only [step] at h
  split at h
  · simpa using h.symm
  · cases h

theorem bury_refs (k : ∀ id ∈ s.refs, s.dead id = false) : ∀ id ∈ s.refs, s.bury.dead id = false := by
  intro id hid
  simp [bury, k id hid, owned, kept, hid]

theorem held_step {a : Action} (k : ∀ id ∈ s.refs, s.dead id = false) (h : step s a = some t) :
    ∀ id ∈ t.refs, t.dead id = false := by
  cases a with
  | server a =>
    obtain ⟨u, -, rfl⟩ := step_server h
    exact bury_refs (s := { s with
      server := u, entry := s.entryAfter a, undefined := s.undefined || !s.alive a }) k
  | hold id =>
    obtain ⟨hd, rfl⟩ := step_hold h
    intro i hi
    rcases Finset.mem_insert.mp hi with rfl | hi
    · exact hd
    · exact k i hi
  | release id =>
    rw [step_release h]
    exact bury_refs (s := { s with refs := s.refs.erase id })
      fun i hi => k i (Finset.mem_of_mem_erase hi)

theorem held_alive (as : List Action) :
    system.Always (fun s => ∀ id ∈ s.refs, s.dead id = false) init as :=
  Transition.System.always_of_along (M := system) (G := fun _ _ => True)
    (fun _ _ _ k _ h => held_step k h) (fun _ k => k)
    (fun _ h => absurd h (Finset.notMem_empty _)) Transition.System.along_true

theorem defined_step {a : Action} (k : s.undefined = false ∧ Walks s.server) (ha : Covered s a)
    (h : step s a = some t) : t.undefined = false ∧ Walks t.server := by
  cases a with
  | server a =>
    obtain ⟨u, hu, rfl⟩ := step_server h
    exact ⟨by simp [bury, k.1, ha.2], walks_step k.2 ha.1 hu⟩
  | hold id =>
    obtain ⟨-, rfl⟩ := step_hold h
    exact k
  | release id =>
    rw [step_release h]
    exact k

theorem server_closes (as : List Action) (ha : system.Along Covered init as) :
    system.Always Closed init as :=
  Transition.System.always_of_along (M := system) (fun _ _ _ k ha h => defined_step k ha h)
    (fun _ k => ⟨k.1, closed_of_walks k.2⟩) ⟨rfl, walks_init⟩ ha

def connect : List Action := accepting.map .server

def connectReturns : List Action := [.server (.conn 0 .ret), .server (.conn 0 (.exec .none))]

def closing : List Action :=
  ([.close, .removeAcceptor, .lock, .visit 0, .closeConn, .closeConn, .next, .clear,
    .conn 0 (.task 0), .conn 0 (.exec .none), .conn 0 (.exec .none), .conn 0 (.exec .none),
    .conn 0 .ret, .conn 0 (.exec .none)] : List TcpServer.Action).map .server

-- The user's OnConnect keeps a shared_ptr until the connection has been removed.
def heldClosing : List Action := connect ++ [.hold 0] ++ connectReturns ++ closing ++ [.release 0]

theorem server_closes_held :
    (system.run init heldClosing).isSome = true ∧ system.Always Closed init heldClosing :=
  ⟨by decide, server_closes heldClosing (by decide)⟩

-- Without it the queued task of Close runs on a connection that conns_.clear() has destroyed.
example : (system.run init (connect ++ connectReturns ++ closing)).map undefined = some true := by
  decide

-- The worker loop runs the Add of Start only after Close has walked conns_.
def missed : List Action :=
  ([.listen, .accept false, .conn 0 (.user 0), .conn 0 (.user 0), .acceptReturn, .close,
    .removeAcceptor, .lock, .clear, .conn 0 (.task 0), .conn 0 (.exec .none), .conn 0 (.exec .none),
    .conn 0 .ret, .conn 0 (.exec .none)] : List TcpServer.Action).map .server

theorem missed_run : ∃ s, system.run init missed = some s ∧ s.server.closer = .done ∧
    s.server.accepted = 1 ∧ Idle (s.server.world 0) ∧ 0 ∈ s.server.conns := by
  refine ⟨_, rfl, rfl, rfl, ⟨rfl, rfl, fun i => ?_⟩, ?_⟩
  · change (if i = 0 then _ else if i = 0 then _ else if i = 0 then _ else []) = []
    split
    · rfl
    · rfl
  · exact Finset.mem_insert_self 0 ∅

theorem server_misses : ¬ ∀ as, system.Always Closed init as := by
  intro h
  obtain ⟨s, hs, hc, ha, hidle, hm⟩ := missed_run
  have hclosed := (Transition.System.always_last (h missed) hs).2
  have hempty := (hclosed hc fun id hid => ?_).1
  · rw [hempty] at hm
    exact absurd hm (Finset.notMem_empty 0)
  · rw [ha] at hid
    rw [Nat.lt_one_iff.mp hid]
    exact hidle

end Owners
end TcpServer
end Pedronet
