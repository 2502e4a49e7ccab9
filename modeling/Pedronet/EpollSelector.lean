import Pedronet.Poller

namespace Pedronet
namespace EpollSelector

structure EpollEvent where
  events : BitVec 32
  ptr : Nat
deriving DecidableEq, Repr

inductive EpollOp where
  | add
  | mod
  | del
deriving DecidableEq, Repr

end EpollSelector

open EpollSelector Poller

-- `interest` is what the kernel holds for each descriptor behind fd_.
structure EpollSelector where
  interest : Int → Option EpollEvent
  len : Nat
  buf : List EpollEvent
  channel : Nat → Option Channel

namespace EpollSelector

def create : EpollSelector := ⟨fun _ => none, 0, List.replicate 256 ⟨0, 0⟩, fun _ => none⟩

def assign {α β : Type} [DecidableEq α] (f : α → Option β) (a : α) (b : Option β) :
    α → Option β := fun i => if i = a then b else f i

-- When epoll_ctl fails (EEXIST, ENOENT) the kernel's set stays as it is.
def internalUpdate (w : EpollSelector) (channel : Channel) (op : EpollOp) (events : SelectEvents) :
    EpollSelector :=
  match op, w.interest channel.fd with
  | .add, none | .mod, some _ =>
    { w with interest := assign w.interest channel.fd (some ⟨events.value, channel.address⟩) }
  | .del, some _ => { w with interest := assign w.interest channel.fd none }
  | .add, some _ | .mod, none | .del, none => w

def emplace (w : EpollSelector) (channel : Channel) : EpollSelector :=
  match w.channel channel.address with
  | none => { w with channel := assign w.channel channel.address (some channel) }
  | some _ => w

def add (w : EpollSelector) (channel : Channel) (events : SelectEvents) : EpollSelector :=
  (w.emplace channel).internalUpdate channel .add events

def update (w : EpollSelector) (channel : Channel) (events : SelectEvents) : EpollSelector :=
  match w.channel channel.address with
  | some _ => w.internalUpdate channel .mod events
  | none => w

def remove (w : EpollSelector) (channel : Channel) : EpollSelector :=
  match w.channel channel.address with
  | some _ =>
    let t := w.internalUpdate channel .del .kNoneEvent
    { t with channel := assign t.channel channel.address none }
  | none => w

def contain (w : EpollSelector) (channel : Channel) : Bool := (w.channel channel.address).isSome

-- The kernel drops a descriptor that is closed.
def closed (w : EpollSelector) (fd : Int) : EpollSelector :=
  { w with interest := assign w.interest fd none }

def reported (w : EpollSelector) (ready : List (Int × BitVec 32)) : List EpollEvent :=
  ready.filterMap fun (fd, revents) => (w.interest fd).map fun event => { event with events := revents }

def resized (buf : List EpollEvent) (len : Nat) : List EpollEvent :=
  if len = buf.length ∧ len < 65536 then buf ++ List.replicate buf.length ⟨0, 0⟩ else buf

-- `epoll_wait(2)` either fails or fills the front of the array with descriptors of its set.
def wait (w : EpollSelector) : Option (List (Int × BitVec 32)) → Option EpollSelector
  | none => some { w with len := 0, buf := resized w.buf 0 }
  | some ready =>
    if ready.length ≤ w.buf.length ∧ ∀ r ∈ ready, (w.interest r.1).isSome then
      let buf := w.reported ready ++ w.buf.drop ready.length
      some { w with len := ready.length, buf := resized buf ready.length }
    else none

def get (w : EpollSelector) (index : Nat) : Option Channel × ReceiveEvents :=
  match w.buf[index]? with
  | none => (none, ⟨0⟩)
  | some event => (w.channel event.ptr, ⟨event.events⟩)

variable {w t : EpollSelector}

theorem update_spec (w : EpollSelector) (channel : Channel) (op : EpollOp) (events : SelectEvents) :
    (w.internalUpdate channel op events).len = w.len ∧
      (w.internalUpdate channel op events).buf = w.buf ∧
      (w.internalUpdate channel op events).channel = w.channel := by
  unfold internalUpdate
  split <;> exact ⟨rfl, rfl, rfl⟩

theorem wait_channel {result : Option (List (Int × BitVec 32))} (h : w.wait result = some t) :
    t.channel = w.channel := by
  cases result with
  | none =>
    cases h
    rfl
  | some ready =>
    simp only [wait] at h
    split at h
    · cases h
      rfl
    · cases h

end EpollSelector
end Pedronet
