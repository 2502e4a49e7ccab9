import Pedronet.TcpConnection
import Mathlib.Data.Finset.Insert
import Mathlib.Data.Finset.Erase

namespace Pedronet
namespace TcpServer

inductive Closer where
  | idle
  | removing
  | latched
  | walking (todo : Finset Nat)
  | visiting (conn : Nat) (todo : Finset Nat)
  | done
deriving DecidableEq

def Closer.locked : Closer → Bool
  | .walking _ | .visiting _ _ => true
  | .idle | .removing | .latched | .done => false

end TcpServer

open TcpServer

-- Connections are numbered in the order of the accept callbacks; `boss` has the callback in progress
-- and whether the connection was given to the boss loop itself. How long a connection lives is left
-- to TcpServer.Owners: here a connection that conns_ alone owned runs its queued tasks all the same.
structure TcpServer where
  listening : Bool
  boss : Option (Nat × Bool)
  accepted : Nat
  world : Nat → TcpConnection.World
  conns : Finset Nat
  closer : Closer

namespace TcpServer

inductive Action where
  | listen
  | accept (inline : Bool)
  | acceptReturn
  | conn (id : Nat) (action : TcpConnection.Action)
  | close
  | removeAcceptor
  | lock
  | visit (id : Nat)
  | closeConn
  | next
  | clear
deriving DecidableEq, Repr

def init : TcpServer := ⟨false, none, 0, fun _ => .init, ∅, .idle⟩

def setWorld (s : TcpServer) (id : Nat) (w : TcpConnection.World) : TcpServer :=
  { s with world := fun i => if i = id then w else s.world i }

-- The boss loop is thread 0 of every connection, the thread in Close is thread 1.
def bossCall (inline : Bool) : List TcpConnection.Action :=
  if inline then [.enter, .call .loop .start] else [.call (.user 0) .start]

def byCloser : TcpConnection.Action → Bool
  | .call (.user id) _ => id = 1
  | .user id => id = 1
  | _ => false

def onConnect (s : TcpServer) (id : Nat) : Option (Finset Nat) :=
  if s.closer.locked = false ∧ (s.world id).conn.context = true then some (insert id s.conns)
  else none

def onClose (s : TcpServer) (id : Nat) : Option (Finset Nat) :=
  if s.closer.locked = false ∧ (s.world id).conn.context = true then some (s.conns.erase id)
  else none

-- The part of OnConnect after the user's handler is taken together with the SetReadable that follows
-- it, that of OnClose together with the end of handleRemove. A null connection ends the run.
def channelHandler (s : TcpServer) (id : Nat) : TcpConnection.Action → Option (Finset Nat)
  | .exec _ =>
    match (s.world id).loop with
    | .setReadable :: _ => s.onConnect id
    | .afterClose :: _ => s.onClose id
    | _ => some s.conns
  | _ => some s.conns

def connStep (s : TcpServer) (id : Nat) (a : TcpConnection.Action) : Option TcpServer :=
  (TcpConnection.step (s.world id) a).bind fun w =>
    (s.channelHandler id a).map fun conns => { s.setWorld id w with conns := conns }

-- The loops interleave freely, also where two connections share one. The acceptor's Add and Remove
-- are tasks of the boss loop, so neither comes in the middle of an accept callback.
def step (s : TcpServer) : Action → Option TcpServer
  | .listen =>
    if s.boss = none ∧ (s.closer = .idle ∨ s.closer = .removing) then
      some { s with listening := true }
    else none
  | .accept inline =>
    if s.boss = none ∧ s.listening = true then
      (TcpConnection.system.run .init (bossCall inline)).map fun w =>
        { s.setWorld s.accepted w with
          accepted := s.accepted + 1, boss := some (s.accepted, inline) }
    else none
  | .acceptReturn =>
    match s.boss with
    | some (id, inline) =>
      if (s.world id).users 0 = [] ∧ (inline = true → (s.world id).loop = []) then
        some { s with boss := none }
      else none
    | none => none
  | .conn id a => if id < s.accepted ∧ byCloser a = false then s.connStep id a else none
  | .close => if s.closer = .idle then some { s with closer := .removing } else none
  | .removeAcceptor =>
    if s.boss = none ∧ s.closer = .removing ∧ s.listening = true then
      some { s with listening := false, closer := .latched }
    else none
  | .lock => if s.closer = .latched then some { s with closer := .walking s.conns } else none
  | .visit id =>
    match s.closer with
    | .walking todo =>
      if id ∈ todo then
        (TcpConnection.step (s.world id) (.call (.user 1) .close)).map fun w =>
          { s.setWorld id w with closer := .visiting id (todo.erase id) }
      else none
    | _ => none
  | .closeConn =>
    match s.closer with
    | .visiting id _ => (TcpConnection.step (s.world id) (.user 1)).map fun w => s.setWorld id w
    | _ => none
  | .next =>
    match s.closer with
    | .visiting id todo =>
      if (s.world id).users 1 = [] then some { s with closer := .walking todo } else none
    | _ => none
  | .clear =>
    if s.closer = .walking ∅ then some { s with conns := ∅, closer := .done } else none

def system : Transition.System TcpServer Action where
  start s := s = init
  step := step

variable {s t : TcpServer}

theorem set_world_cases {P : TcpConnection.World → Prop} {id i : Nat} {w : TcpConnection.World}
    (hown : i = id → P w) (hother : i ≠ id → P (s.world i)) : P ((s.setWorld id w).world i) := by
  by_cases h : i = id
  · simpa [setWorld, h] using hown h
  · simpa [setWorld, h] using hother h

theorem step_listen (h : step s .listen = some t) :
    (s.closer = .idle ∨ s.closer = .removing) ∧ t = { s with listening := true } := by
  simp only [step] at h
  split at h
  · rename_i hc
    exact ⟨hc.2, by simpa using h.symm⟩
  · cases h

theorem step_accept {inline : Bool} (h : step s (.accept inline) = some t) :
    s.listening = true ∧ ∃ w, TcpConnection.system.run .init (bossCall inline) = some w ∧
      t = { s.setWorld s.accepted w with
        accepted := s.accepted + 1, boss := some (s.accepted, inline) } := by
  simp only [step] at h
  split at h
  · rename_i hc
    obtain ⟨w, hw, rfl⟩ := Option.map_eq_some_iff.mp h
    exact ⟨hc.2, w, hw, rfl⟩
  · cases h

theorem step_accept_return (h : step s .acceptReturn = some t) : t = { s with boss := none } := by
  simp only [step] at h
  split at h
  · split at h
    · simpa using h.symm
    · cases h
  · cases h

theorem step_conn {id : Nat} {a : TcpConnection.Action} (h : step s (.conn id a) = some t) :
    id < s.accepted ∧ byCloser a = false ∧ ∃ w conns,
      TcpConnection.step (s.world id) a = some w ∧ s.channelHandler id a = some conns ∧
        t = { s.setWorld id w with conns := conns } := by
  simp only [step] at h
  split at h
  · rename_i hc
    obtain ⟨w, hw, h⟩ := Option.bind_eq_some_iff.mp h
    obtain ⟨conns, hconns, rfl⟩ := Option.map_eq_some_iff.mp h
    exact ⟨hc.1, hc.2, w, conns, hw, hconns, rfl⟩
  · cases h

theorem step_close (h : step s .close = some t) :
    s.closer = .idle ∧ t = { s with closer := .removing } := by
  simp only [step] at h
  split at h
  · rename_i hc
    exact ⟨hc, by simpa using h.symm⟩
  · cases h

theorem step_remove_acceptor (h : step s .removeAcceptor = some t) :
    s.closer = .removing ∧ t = { s with listening := false, closer := .latched } := by
  simp only [step] at h
  split at h
  · rename_i hc
    exact ⟨hc.2.1, by simpa using h.symm⟩
  · cases h

theorem step_lock (h : step s .lock = some t) :
    s.closer = .latched ∧ t = { s with closer := .walking s.conns } := by
  simp only [step] at h
  split at h
  · rename_i hc
    exact ⟨hc, by simpa using h.symm⟩
  · cases h

theorem step_visit {id : Nat} (h : step s (.visit id) = some t) :
    ∃ todo w, s.closer = .walking todo ∧ id ∈ todo ∧
      TcpConnection.step (s.world id) (.call (.user 1) .close) = some w ∧
        t = { s.setWorld id w with closer := .visiting id (todo.erase id) } := by
  simp only [step] at h
  split at h
  · rename_i todo hc
    split at h
    · rename_i hid
      obtain ⟨w, hw, rfl⟩ := Option.map_eq_some_iff.mp h
      exact ⟨todo, w, hc, hid, hw, rfl⟩
    · cases h
  · cases h

theorem step_close_conn (h : step s .closeConn = some t) :
    ∃ id todo w, s.closer = .visiting id todo ∧
      TcpConnection.step (s.world id) (.user 1) = some w ∧ t = s.setWorld id w := by
  simp only [step] at h
  split at h
  · rename_i id todo hc
    obtain ⟨w, hw, rfl⟩ := Option.map_eq_some_iff.mp h
    exact ⟨id, todo, w, hc, hw, rfl⟩
  · cases h

theorem step_next (h : step s .next = some t) :
    ∃ id todo, s.closer = .visiting id todo ∧ (s.world id).users 1 = [] ∧
      t = { s with closer := .walking todo } := by
  simp only [step] at h
  split at h
  · rename_i id todo hc
    split at h
    · rename_i hu
      exact ⟨id, todo, hc, hu, by simpa using h.symm⟩
    · cases h
  · cases h

theorem step_clear (h : step s .clear = some t) :
    s.closer = .walking ∅ ∧ t = { s with conns := ∅, closer := .done } := by
  simp only [step] at h
  split at h
  · rename_i hc
    exact ⟨hc, by simpa using h.symm⟩
  · cases h

end TcpServer
end Pedronet
