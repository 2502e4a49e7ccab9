import Pedronet.Transition
import Pedronet.Partition
import Pedronet.Event

namespace Pedronet
namespace Poller

structure Channel where
  address : Nat
  fd : Int
deriving DecidableEq, Repr

structure Pollfd where
  fd : Int
  events : BitVec 16
  revents : BitVec 16
deriving DecidableEq, Repr

end Poller

open Poller

structure Poller where
  cleanable : Bool
  buf : List Pollfd
  ready : Nat
  channels : Int → Option (Nat × Channel)

namespace Poller

def create : Poller := ⟨false, [], 0, fun _ => none⟩

def short (events : SelectEvents) : BitVec 16 := events.value.setWidth 16

def assign (channels : Int → Option (Nat × Channel)) (fd : Int) (locator : Option (Nat × Channel)) :
    Int → Option (Nat × Channel) := fun i => if i = fd then locator else channels i

-- `kept` is the part of the array in front of `head`.
def cleanUpFrom (channels : Int → Option (Nat × Channel)) (kept : List Pollfd) :
    List Pollfd → List Pollfd × (Int → Option (Nat × Channel))
  | [] => (kept, channels)
  | p :: rest =>
    match channels p.fd with
    | none => cleanUpFrom channels kept rest
    | some (_, channel) =>
      cleanUpFrom (assign channels p.fd (some (kept.length, channel))) (kept ++ [p]) rest

def cleanUp (w : Poller) : Poller :=
  let (buf, channels) := cleanUpFrom w.channels [] w.buf
  { w with buf := buf, channels := channels }

def add (w : Poller) (channel : Channel) (events : SelectEvents) : Poller :=
  { w with
    buf := w.buf ++ [⟨channel.fd, short events, 0⟩]
    channels := assign w.channels channel.fd (some (w.buf.length, channel)) }

def remove (w : Poller) (channel : Channel) : Poller :=
  match w.channels channel.fd with
  | some _ => { w with channels := assign w.channels channel.fd none, cleanable := true }
  | none => w

def update (w : Poller) (channel : Channel) (events : SelectEvents) : Poller :=
  match w.channels channel.fd with
  | some (index, _) =>
    { w with buf := w.buf.modify index fun p => { p with events := short events } }
  | none => w

def contain (w : Poller) (channel : Channel) : Bool := (w.channels channel.fd).isSome

def polled (buf : List Pollfd) (revents : List (BitVec 16)) : List Pollfd :=
  List.zipWith (fun p r => { p with revents := r }) buf revents

def isReady (p : Pollfd) : Bool := p.revents != 0

def cleaned (w : Poller) : Poller := if w.cleanable then w.cleanUp else w

-- `poll(2)` either fails or writes the returned events of every entry.
def wait (w : Poller) : Option (List (BitVec 16)) → Poller
  | none => { w.cleaned with ready := 0 }
  | some revents =>
    { w.cleaned with
      ready := revents.countP (· != 0)
      buf := Partition.partition isReady (polled w.cleaned.buf revents) }

def get (w : Poller) (index : Nat) : Option Channel × BitVec 16 :=
  match w.buf[index]? with
  | none => (none, 0)
  | some p =>
    match w.channels p.fd with
    | none => (none, 0)
    | some (_, channel) => (some channel, p.revents)

inductive Action where
  | add (channel : Channel) (events : SelectEvents)
  | remove (channel : Channel)
  | update (channel : Channel) (events : SelectEvents)
  | wait (result : Option (List (BitVec 16)))
deriving DecidableEq, Repr

def step (w : Poller) : Action → Option Poller
  | .add channel events => some (w.add channel events)
  | .remove channel => some (w.remove channel)
  | .update channel events => some (w.update channel events)
  | .wait none => some (w.wait none)
  | .wait (some revents) =>
    if revents.length = w.cleaned.buf.length then some (w.wait (some revents)) else none

def system : Transition.System Poller Action where
  start w := w = create
  step := step

theorem step_wait {w t : Poller} {revents : List (BitVec 16)}
    (h : step w (.wait (some revents)) = some t) :
    revents.length = w.cleaned.buf.length ∧ t = w.wait (some revents) := by
  simp only [step] at h
  split at h
  · rename_i hl
    exact ⟨hl, by simpa using h.symm⟩
  · cases h

end Poller
end Pedronet
