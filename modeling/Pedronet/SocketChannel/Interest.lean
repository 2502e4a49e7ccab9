import Pedronet.SocketChannel
import Pedronet.EpollSelector

namespace Pedronet
namespace SocketChannel

-- `callbacks` are the running ones of EventLoop::Add, under the number of the registration, and of
-- EventLoop::Remove. `changed` tells whether an Update came through since the last Add.
structure World where
  channel : SocketChannel
  serial : Nat
  changed : Bool
  callbacks : List (Option Nat)
deriving DecidableEq, Repr

inductive Action where
  | add (callback : Bool)
  | remove (callback : Bool)
  | setReadable (on : Bool)
  | setWritable (on : Bool)
  | ret
deriving DecidableEq, Repr

def World.init : World := ⟨create, 0, false, []⟩

def World.add (w : World) (callback : Bool) : World :=
  if w.channel.registered then w
  else ⟨w.channel.add, w.serial + 1, false,
    if callback then some (w.serial + 1) :: w.callbacks else w.callbacks⟩

def World.remove (w : World) (callback : Bool) : World :=
  if w.channel.registered then
    { w with
      channel := w.channel.remove
      callbacks := if callback then none :: w.callbacks else w.callbacks }
  else w

def World.set (w : World) (channel : SocketChannel) : World :=
  { w with
    channel := channel
    changed := w.changed || (w.channel.registered && channel.events != w.channel.events) }

def step (w : World) : Action → Option World
  | .add callback => some (w.add callback)
  | .remove callback => some (w.remove callback)
  | .setReadable on => some (w.set (w.channel.setReadable on))
  | .setWritable on => some (w.set (w.channel.setWritable on))
  | .ret =>
    match w.callbacks with
    | _ :: rest => some { w with callbacks := rest }
    | [] => none

def system : Transition.System World Action where
  start w := w = .init
  step := step

def Agrees (w : World) : Prop :=
  w.channel.registered = true → some w.serial ∉ w.callbacks →
    w.channel.mask = some w.channel.events

instance (w : World) : Decidable (Agrees w) :=
  inferInstanceAs (Decidable (_ → _ → _))

-- A registration starts from the empty mask: where the flags are not empty, the callback of the
-- Add has to change one before it returns.
def Restores (w : World) : Action → Prop
  | .add callback =>
    w.channel.registered = false → callback = false → w.channel.events = .kNoneEvent
  | .ret => w.channel.registered = true → w.callbacks.head? = some (some w.serial) →
    w.changed = true ∨ w.channel.events = .kNoneEvent
  | .remove _ | .setReadable _ | .setWritable _ => True

instance (w : World) : DecidablePred (Restores w)
  | .add _ | .ret => inferInstanceAs (Decidable (_ → _ → _))
  | .remove _ | .setReadable _ | .setWritable _ => isTrue trivial

structure Numbered (w : World) : Prop where
  below : ∀ n, some n ∈ w.callbacks → n ≤ w.serial
  once : (w.callbacks.filterMap id).Nodup
  mask : ∀ mask, w.channel.mask = some mask →
    mask = if w.changed then w.channel.events else .kNoneEvent

variable {w t : World}

theorem numbered_set (n : Numbered w) (events : SelectEvents) :
    Numbered (w.set (w.channel.update events)) := by
  refine ⟨n.below, n.once, fun mask hm => ?_⟩
  by_cases he : w.channel.events = events
  · have hu : w.channel.update events = w.channel := if_pos he
    simp only [World.set, hu] at hm ⊢
    simpa using n.mask mask hm
  · have hu : w.channel.update events = ⟨events, w.channel.mask.map fun _ => events⟩ := if_neg he
    simp only [World.set, hu] at hm ⊢
    obtain ⟨old, ho, rfl⟩ := Option.map_eq_some_iff.mp hm
    simp [registered, ho, Ne.symm he]

theorem numbered_add (n : Numbered w) (callback : Bool) : Numbered (w.add callback) := by
  unfold World.add
  split
  · exact n
  · have hnew : w.serial + 1 ∉ w.callbacks.filterMap id := by
      intro hm
      obtain ⟨c, hc, he⟩ := List.mem_filterMap.mp hm
      cases he
      exact Nat.not_succ_le_self _ (n.below _ hc)
    refine ⟨fun k hk => ?_, ?_, fun mask hm => ?_⟩
    · cases callback with
      | false => exact Nat.le_succ_of_le (n.below k hk)
      | true =>
        rcases List.mem_cons.mp hk with he | hk
        · cases he
          exact Nat.le_refl _
        · exact Nat.le_succ_of_le (n.below k hk)
    · cases callback with
      | false => exact n.once
      | true => exact List.nodup_cons.mpr ⟨hnew, n.once⟩
    · cases hm
      rfl

theorem numbered_remove (n : Numbered w) (callback : Bool) : Numbered (w.remove callback) := by
  unfold World.remove
  split
  · refine ⟨fun k hk => ?_, ?_, fun mask hm => by cases hm⟩
    · cases callback with
      | false => exact n.below k hk
      | true => exact n.below k (by simpa using hk)
    · cases callback with
      | false => exact n.once
      | true => simpa using n.once
  · exact n

theorem step_ret (h : step w .ret = some t) :
    ∃ callback rest, w.callbacks = callback :: rest ∧ t = { w with callbacks := rest } := by
  simp only [step] at h
  split at h
  · rename_i callback rest hc
    exact ⟨callback, rest, hc, by simpa using h.symm⟩
  · cases h

theorem numbered_step {a : Action} (n : Numbered w) (h : step w a = some t) : Numbered t := by
  cases a with
  | add callback =>
    cases h
    exact numbered_add n callback
  | remove callback =>
    cases h
    exact numbered_remove n callback
  | setReadable on | setWritable on =>
    cases h
    exact numbered_set n _
  | ret =>
    obtain ⟨callback, rest, hc, rfl⟩ := step_ret h
    refine ⟨fun k hk => n.below k (by simp [hc, hk]), ?_, n.mask⟩
    have ho := n.once
    rw [hc] at ho
    exact ho.sublist ((List.sublist_cons_self callback rest).filterMap id)

theorem mask_iff (n : Numbered w) (hr : w.channel.registered = true) :
    w.channel.mask = some w.channel.events ↔
      w.changed = true ∨ w.channel.events = .kNoneEvent := by
  obtain ⟨mask, hm⟩ := Option.isSome_iff_exists.mp hr
  have he := n.mask mask hm
  rw [hm, he]
  cases w.changed with
  | false => simp [eq_comm]
  | true => simp

theorem agrees_add (n : Numbered w) (p : Agrees w) (callback : Bool) :
    Agrees (w.add callback) ↔ Restores w (.add callback) := by
  unfold World.add
  split
  · rename_i hr
    exact ⟨fun _ hn => absurd hr (by simp [hn]), fun _ => p⟩
  · rename_i hr
    have hr : w.channel.registered = false := by simpa using hr
    have hnew : some (w.serial + 1) ∉ w.callbacks := fun hm =>
      Nat.not_succ_le_self _ (n.below _ hm)
    cases callback with
    | true => simp [Agrees, Restores]
    | false =>
      constructor
      · exact fun h _ _ => (Option.some.inj (h rfl hnew)).symm
      · exact fun h _ _ => congrArg some (h hr rfl).symm

theorem agrees_set (p : Agrees w) (events : SelectEvents) :
    Agrees (w.set (w.channel.update events)) := by
  intro hr hc
  rw [World.set, update_registered] at hr
  have hm : w.channel.Synced := by
    intro mask hm
    have := p hr hc
    rw [hm] at this
    exact Option.some.inj this
  obtain ⟨mask, hu⟩ := Option.isSome_iff_exists.mp ((update_registered _ events).trans hr)
  have he := synced_update hm events mask hu
  exact hu.trans (by rw [he]; rfl)

theorem agrees_ret (n : Numbered w) (p : Agrees w) {callback : Option Nat}
    {rest : List (Option Nat)} (hc : w.callbacks = callback :: rest) :
    Agrees { w with callbacks := rest } ↔ Restores w .ret := by
  simp only [Agrees, Restores, hc, List.head?_cons, Option.some.injEq]
  by_cases he : callback = some w.serial
  · subst he
    have ho := n.once
    rw [hc] at ho
    have hrest : some w.serial ∉ rest := by
      intro hm
      exact (List.nodup_cons.mp ho).1 (List.mem_filterMap.mpr ⟨_, hm, rfl⟩)
    constructor
    · exact fun h hr _ => (mask_iff n hr).mp (h hr hrest)
    · exact fun h hr _ => (mask_iff n hr).mpr (h hr rfl)
  · constructor
    · exact fun _ _ hs => absurd hs he
    · intro _ hr hm
      refine p hr ?_
      rw [hc]
      simp [hm, Ne.symm he]

theorem agrees_step {a : Action} (n : Numbered w) (p : Agrees w) (h : step w a = some t) :
    Agrees t ↔ Restores w a := by
  cases a with
  | add callback =>
    cases h
    exact agrees_add n p callback
  | remove callback =>
    cases h
    refine iff_of_true ?_ trivial
    unfold World.remove
    split
    · exact fun hr => by cases hr
    · exact p
  | setReadable on | setWritable on =>
    cases h
    exact iff_of_true (agrees_set p _) trivial
  | ret =>
    obtain ⟨callback, rest, hc, rfl⟩ := step_ret h
    exact agrees_ret n p hc

theorem numbered_init : Numbered .init :=
  ⟨(fun _ h => by cases h), List.nodup_nil, fun _ h => by cases h⟩

theorem agrees_iff (as : List Action) :
    system.Always Agrees .init as ↔ system.Along Restores .init as :=
  Transition.System.always_iff_along (F := fun _ _ => True)
    (fun _ _ _ n _ h => numbered_step n h) (fun _ _ _ n p _ h => agrees_step n p h)
    numbered_init (fun hr => by cases hr) Transition.System.along_true

def listen : List Action := [.add true, .setReadable true, .ret]

def relisten : List Action := listen ++ .remove true :: .ret :: listen

theorem relisten_differs : ¬ ∀ as, system.Always Agrees .init as := by
  intro h
  have ha := Transition.System.always_last (h relisten) rfl
  exact absurd (ha rfl (by decide)) (by decide)

-- What the calls make of an epoll set; SetReadable and SetWritable call Update where they change
-- the flags.
def onEpoll (c : Poller.Channel) (e : EpollSelector) (w : World) : Action → EpollSelector
  | .add _ => if e.contain c then e else e.add c .kNoneEvent
  | .remove _ => if e.contain c then e.remove c else e
  | .setReadable on => set (w.channel.setReadable on)
  | .setWritable on => set (w.channel.setWritable on)
  | .ret => e
where
  set (channel : SocketChannel) : EpollSelector :=
    if w.channel.events = channel.events then e else e.update c channel.events

def withEpoll (c : Poller.Channel) : Transition.System (World × EpollSelector) Action where
  start p := p = (.init, .create)
  step p a := (step p.1 a).map fun t => (t, onEpoll c p.2 p.1 a)

structure Holds (c : Poller.Channel) (e : EpollSelector) (ch : SocketChannel) : Prop where
  channel : e.channel c.address = ch.mask.map fun _ => c
  interest : e.interest c.fd = ch.mask.map fun mask => ⟨mask.value, c.address⟩

variable {c : Poller.Channel} {e : EpollSelector} {ch : SocketChannel}

theorem holds_contain (h : Holds c e ch) : e.contain c = ch.registered := by
  simp [EpollSelector.contain, h.channel, registered]

theorem holds_add (h : Holds c e ch) (hr : ch.registered = false) :
    Holds c (e.add c .kNoneEvent) ch.add := by
  have hm : ch.mask = none := by simpa [registered] using hr
  have hc := h.channel
  have hi := h.interest
  rw [hm] at hc hi
  refine ⟨?_, ?_⟩
  · simp only [EpollSelector.add, (EpollSelector.update_spec _ _ _ _).2.2]
    simp [EpollSelector.emplace, hc, EpollSelector.assign, add]
  · simp [EpollSelector.add, EpollSelector.emplace, EpollSelector.internalUpdate, hc, hi,
      EpollSelector.assign, add]

theorem holds_remove (h : Holds c e ch) (hr : ch.registered = true) :
    Holds c (e.remove c) ch.remove := by
  obtain ⟨mask, hm⟩ := Option.isSome_iff_exists.mp hr
  have hc := h.channel
  have hi := h.interest
  rw [hm] at hc hi
  refine ⟨?_, ?_⟩
  · simp [EpollSelector.remove, hc, EpollSelector.assign, remove]
  · simp [EpollSelector.remove, EpollSelector.internalUpdate, hc, hi, EpollSelector.assign, remove]

theorem holds_update (h : Holds c e ch) (events : SelectEvents) :
    Holds c (if ch.events = events then e else e.update c events) (ch.update events) := by
  unfold update
  split
  · exact h
  · have hc := h.channel
    have hi := h.interest
    cases hm : ch.mask with
    | none =>
      rw [hm] at hc hi
      have hu : e.update c events = e := by simp [EpollSelector.update, hc]
      rw [hu]
      exact ⟨hc, hi⟩
    | some mask =>
      rw [hm] at hc hi
      have hu : e.update c events = e.internalUpdate c .mod events := by
        simp [EpollSelector.update, hc]
      rw [hu]
      refine ⟨?_, ?_⟩
      · rw [(EpollSelector.update_spec _ _ _ _).2.2]
        exact hc
      · simp [EpollSelector.internalUpdate, hi, EpollSelector.assign]

theorem holds_step {a : Action} (h : Holds c e w.channel) (hs : step w a = some t) :
    Holds c (onEpoll c e w a) t.channel := by
  cases a with
  | add callback =>
    cases hs
    simp only [onEpoll, World.add, holds_contain h]
    split
    · exact h
    · rename_i hr
      exact holds_add h (by simpa using hr)
  | remove callback =>
    cases hs
    simp only [onEpoll, World.remove, holds_contain h]
    split
    · rename_i hr
      exact holds_remove h hr
    · exact h
  | setReadable on | setWritable on =>
    cases hs
    simp only [onEpoll, onEpoll.set, setReadable, setWritable, update_events]
    exact holds_update h _
  | ret =>
    obtain ⟨callback, rest, -, rfl⟩ := step_ret hs
    exact h

theorem epoll_holds_mask {as : List Action} (c : Poller.Channel)
    (h : (withEpoll c).run (.init, .create) as = some (w, e)) : Holds c e w.channel := by
  have hi : Holds c (.create) World.init.channel := ⟨rfl, rfl⟩
  exact Transition.System.run_invariant (M := withEpoll c) (G := fun _ _ => True)
    (I := fun p => Holds c p.2 p.1.channel) (fun p a q hp _ hs => by
      obtain ⟨u, hu, rfl⟩ := Option.map_eq_some_iff.mp hs
      exact holds_step hp hu) hi Transition.System.along_true h

end SocketChannel
end Pedronet
