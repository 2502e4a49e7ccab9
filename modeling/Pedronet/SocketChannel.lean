import Pedronet.Event

namespace Pedronet

-- `mask` is what the selector was last asked for, `none` while the channel is not registered. What
-- a selector makes of it is the subject of SocketChannel.Interest and TcpConnection.Selected.
structure SocketChannel where
  events : SelectEvents
  mask : Option SelectEvents
deriving DecidableEq, Repr

namespace SocketChannel

inductive Callback where
  | close
  | error
  | fileClose
  | read
  | write
deriving DecidableEq, Repr

def create : SocketChannel := ⟨.kNoneEvent, none⟩

def registered (ch : SocketChannel) : Bool := ch.mask.isSome

def add (ch : SocketChannel) : SocketChannel := { ch with mask := some .kNoneEvent }

def remove (ch : SocketChannel) : SocketChannel := { ch with mask := none }

def update (ch : SocketChannel) (events : SelectEvents) : SocketChannel :=
  if ch.events = events then ch else ⟨events, ch.mask.map fun _ => events⟩

def setWritable (ch : SocketChannel) (on : Bool) : SocketChannel :=
  ch.update (if on then ch.events.add .kWriteEvent else ch.events.remove .kWriteEvent)

def setReadable (ch : SocketChannel) (on : Bool) : SocketChannel :=
  ch.update (if on then ch.events.add .kReadEvent else ch.events.remove .kReadEvent)

def writable (ch : SocketChannel) : Bool := ch.events.contains .kWriteEvent

def readable (ch : SocketChannel) : Bool := ch.events.contains .kReadEvent

def handleEvents (events : ReceiveEvents) : List Callback :=
  (if events.contains .kHangUp && !events.contains .kReadable then [.close] else []) ++
  (if events.oneOf [.kError, .kInvalid] then
    .error :: if events.contains .kInvalid then [.fileClose] else []
  else []) ++
  (if events.oneOf [.kReadable, .kPriorReadable, .kReadHangUp] then [.read] else []) ++
  (if events.contains .kWritable then [.write] else [])

@[simp] theorem add_registered (ch : SocketChannel) : ch.add.registered = true := rfl

@[simp] theorem remove_registered (ch : SocketChannel) : ch.remove.registered = false := rfl

@[simp] theorem update_events (ch : SocketChannel) (events : SelectEvents) :
    (ch.update events).events = events := by
  unfold update
  split
  · assumption
  · rfl

@[simp] theorem set_writable_writable (ch : SocketChannel) (on : Bool) :
    (ch.setWritable on).writable = on := by
  rw [setWritable, writable, update_events]
  cases on with
  | false => exact SelectEvents.contains_remove
  | true => exact SelectEvents.contains_add (by decide)

@[simp] theorem set_readable_writable (ch : SocketChannel) :
    (ch.setReadable true).writable = ch.writable := by
  rw [setReadable, writable, update_events]
  exact SelectEvents.contains_add_other (by decide)

def Synced (ch : SocketChannel) : Prop := ∀ events, ch.mask = some events → events = ch.events

theorem synced_update {ch : SocketChannel} (s : ch.Synced) (events : SelectEvents) :
    (ch.update events).Synced := by
  unfold update
  split
  · exact s
  · intro mask hm
    obtain ⟨-, -, rfl⟩ := Option.map_eq_some_iff.mp hm
    rfl

theorem synced_add {ch : SocketChannel} (h : ch.events = .kNoneEvent) : ch.add.Synced := by
  intro mask hm
  cases hm
  exact h.symm

theorem update_registered (ch : SocketChannel) (events : SelectEvents) :
    (ch.update events).registered = ch.registered := by
  unfold update
  split
  · rfl
  · exact Option.isSome_map

@[simp] theorem set_writable_registered (ch : SocketChannel) (on : Bool) :
    (ch.setWritable on).registered = ch.registered := update_registered _ _

@[simp] theorem set_readable_registered (ch : SocketChannel) (on : Bool) :
    (ch.setReadable on).registered = ch.registered := update_registered _ _

end SocketChannel
end Pedronet
