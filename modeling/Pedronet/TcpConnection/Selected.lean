import Pedronet.TcpConnection.WriteInterest
import Pedronet.Registry.Watched

namespace Pedronet
namespace TcpConnection
open Poller (Channel short)
open Registry (Call Watched)

-- A connection with the selectors of its loop, which serve other channels too.
structure Selected where
  world : World
  watched : Watched

namespace Selected

inductive Action where
  | conn (action : TcpConnection.Action)
  | loop (action : Watched.Action)

def init : Selected := ⟨.init, .create⟩

-- What the selector is asked for where a step has changed the channel; SetReadable and SetWritable
-- call Update only where they have changed events_.
def asks (c : Channel) (before after : SocketChannel) : Option Call :=
  if before.events ≠ after.events then some (.update c after.events)
  else if before.registered = after.registered then none
  else if after.registered then some (.add c .kNoneEvent)
  else some (.remove c)

-- Other channels are called by other callbacks and from inside the handlers.
def allowed (c : Channel) (w : World) : Watched.Action → Bool
  | .call call =>
    match w.loop with
    | [] | .handler _ :: _ => c ≠ call.channel
    | _ => false
  | .poll _ | .epollWait _ => w.loop.isEmpty

def step (c : Channel) (s : Selected) : Action → Option Selected
  | .conn a =>
    (TcpConnection.step s.world a).bind fun w =>
      match asks c s.world.conn.channel w.conn.channel with
      | some call => (s.watched.step (.call call)).map fun watched => ⟨w, watched⟩
      | none => some { s with world := w }
  | .loop a =>
    if allowed c s.world a = true then (s.watched.step a).map fun watched => { s with watched := watched }
    else none

def system (c : Channel) : Transition.System Selected Action where
  start s := s = init
  step := step c

-- The mask that the selector itself has for the descriptor.
def Holds (c : Channel) (s : Selected) : SelectorType → SelectEvents → Prop
  | .kEpoll, events => s.watched.epoll.interest c.fd = some ⟨events.value, c.address⟩
  | .kPoll, events =>
    (s.watched.poller.buf.filter fun p => p.fd = c.fd).map Poller.Pollfd.events = [short events]

def FollowsOutput (c : Channel) (type : SelectorType) (s : Selected) : Prop :=
  s.world.conn.state ≠ .kDisconnected → s.world.loop = [] →
    (s.world.conn.channel.writable = true ↔ s.world.conn.output ≠ []) ∧
      (s.world.conn.state ≠ .kConnecting → s.Holds c type s.world.conn.channel.events)

def InCallbacks (s : Selected) : Action → Prop
  | .conn a => a.gentle = true ∧ Flushes s.world a
  | .loop _ => True

-- The array of poll(2) has been cleaned of a descriptor before it is added again, and an Update finds
-- the entry of its channel.
def Settled (c : Channel) (type : SelectorType) (s : Selected) : Action → Prop
  | .conn a => ∀ w ∈ TcpConnection.step s.world a,
    ∀ call ∈ asks c s.world.conn.channel w.conn.channel,
      type = .kPoll → s.watched.poller.Settled s.watched.registry call
  | .loop (.call call) => type = .kPoll → s.watched.poller.Settled s.watched.registry call
  | .loop (.poll _) | .loop (.epollWait _) => True

instance (c : Channel) (s : Selected) : (type : SelectorType) → (events : SelectEvents) →
    Decidable (Holds c s type events)
  | .kEpoll, _ => inferInstanceAs (Decidable (_ = _))
  | .kPoll, _ => inferInstanceAs (Decidable (_ = _))

instance (s : Selected) : DecidablePred (InCallbacks s)
  | .conn _ => inferInstanceAs (Decidable (_ ∧ _))
  | .loop _ => isTrue trivial

instance (c : Channel) (type : SelectorType) (s : Selected) : DecidablePred (Settled c type s)
  | .conn _ => inferInstanceAs (Decidable (∀ _ ∈ _, ∀ _ ∈ _, _ → _))
  | .loop (.call _) => inferInstanceAs (Decidable (_ → _))
  | .loop (.poll _) | .loop (.epollWait _) => isTrue trivial

def Entered (c : Channel) (r : Registry) (mask : Option SelectEvents) : Prop :=
  ∀ events, (c, events) ∈ r.entries ↔ mask = some events

structure Sound (c : Channel) (type : SelectorType) (s : Selected) : Prop where
  interest : Interest s.world
  follows : s.watched.Follows type
  entered : Entered c s.watched.registry s.world.conn.channel.mask

variable {c : Channel} {type : SelectorType} {s t : Selected} {w u : World}

theorem step_conn {a : TcpConnection.Action} (h : step c s (.conn a) = some t) :
    TcpConnection.step s.world a = some t.world ∧
      ((asks c s.world.conn.channel t.world.conn.channel = none ∧ t.watched = s.watched) ∨
        ∃ call, asks c s.world.conn.channel t.world.conn.channel = some call ∧
          s.watched.step (.call call) = some t.watched) := by
  obtain ⟨w, hw, h⟩ := Option.bind_eq_some_iff.mp h
  split at h
  · rename_i call hc
    obtain ⟨v, hv, rfl⟩ := Option.map_eq_some_iff.mp h
    exact ⟨hw, .inr ⟨call, hc, hv⟩⟩
  · rename_i hc
    cases h
    exact ⟨hw, .inl ⟨hc, rfl⟩⟩

theorem step_loop {a : Watched.Action} (h : step c s (.loop a) = some t) :
    allowed c s.world a = true ∧ t.world = s.world ∧ s.watched.step a = some t.watched := by
  simp only [step] at h
  split at h
  · rename_i ha
    obtain ⟨v, hv, rfl⟩ := Option.map_eq_some_iff.mp h
    exact ⟨ha, rfl, hv⟩
  · cases h

inductive Turns (ch : SocketChannel) : SocketChannel → Prop where
  | same : Turns ch ch
  | add (h : ch.registered = false) : Turns ch ch.add
  | remove (h : ch.registered = true) : Turns ch ch.remove
  | update (events : SelectEvents) : Turns ch (ch.update events)

theorem executes_turns {d e : TcpConnection} {i : Instr} {push : List Instr}
    (h : Executes d i e push) : Turns d.channel e.channel := by
  cases h with
  | call h => rw [calls_channel h]; exact .same
  | add sender h => exact .add h
  | remove h => exact .remove h
  | shutdownTask | forceShutdownTask | append | sendOutput | writeComplete | setReadable =>
    exact .update _
  | _ => exact .same

theorem step_turns {a : TcpConnection.Action} (h : TcpConnection.step w a = some u) :
    Turns w.conn.channel u.conn.channel := by
  rcases TcpConnection.step_conn h with he | ⟨_, _, _, _, _, _, hc⟩ | ⟨_, _, _, _, _, _, he⟩
  · rw [he]
    exact .same
  · rw [calls_channel hc]
    exact .same
  · exact executes_turns he

-- What a step that asks for `call` does to the mask.
inductive Asks (c : Channel) (before after : Option SelectEvents) : Option Call → Prop where
  | none (h : after = before) : Asks c before after none
  | add (hb : before = Option.none) (ha : after = some .kNoneEvent) :
    Asks c before after (some (.add c .kNoneEvent))
  | remove (h : after = Option.none) : Asks c before after (some (.remove c))
  | update (events : SelectEvents) (h : after = before.map fun _ => events) :
    Asks c before after (some (.update c events))

theorem asks_spec {ch next : SocketChannel} (h : Turns ch next) :
    Asks c ch.mask next.mask (asks c ch next) := by
  cases h with
  | same =>
    have hn : asks c ch ch = none := by simp [asks]
    exact hn ▸ .none rfl
  | add h =>
    have ha : asks c ch ch.add = some (.add c .kNoneEvent) := by
      simp [asks, h, show ch.add.events = ch.events from rfl]
    exact ha ▸ .add (by simpa [SocketChannel.registered] using h) rfl
  | remove h =>
    have hr : asks c ch ch.remove = some (.remove c) := by
      simp [asks, h, show ch.remove.events = ch.events from rfl]
    exact hr ▸ .remove rfl
  | update events =>
    by_cases he : ch.events = events
    · have hu : ch.update events = ch := if_pos he
      have hn : asks c ch ch = none := by simp [asks]
      rw [hu]
      exact hn ▸ .none rfl
    · have hu : ch.update events = ⟨events, ch.mask.map fun _ => events⟩ := if_neg he
      have ha : asks c ch ⟨events, ch.mask.map fun _ => events⟩ = some (.update c events) := by
        simp [asks, he]
      rw [hu]
      exact ha ▸ .update events rfl

theorem entered_step {r v : Registry} {before after : Option SelectEvents} {call : Call}
    (k : Asks c before after (some call)) (e : Entered c r before) (hs : r.step call = some v) :
    Entered c v after := by
  intro mask
  cases k with
  | add hb ha =>
    rcases Registry.step_add hs with ⟨hh, -⟩ | ⟨-, hf, rfl⟩
    · obtain ⟨old, ho⟩ := Registry.holds_iff.mp hh
      rw [e, hb] at ho
      cases ho
    · rw [Registry.mem_insert, e, hb, ha]
      simp [eq_comm]
  | remove ha =>
    obtain ⟨-, rfl⟩ := Registry.step_remove hs
    rw [Registry.mem_erase, ha]
    simp
  | update events ha =>
    obtain ⟨-, rfl⟩ := Registry.step_update hs
    rw [Registry.mem_set, if_pos rfl, Registry.holds_iff, ha]
    simp only [e _, Option.map_eq_some_iff, exists_and_right]
    exact and_congr_right fun _ => eq_comm

theorem allowed_other {call : Call} (h : allowed c w (.call call) = true) : c ≠ call.channel := by
  revert h
  simp only [allowed]
  split <;> simp

theorem sound_step {a : Action} (d : Sound c type s) (hi : InCallbacks s a)
    (hs : Settled c type s a) (h : step c s a = some t) : Sound c type t := by
  cases a with
  | conn a =>
    obtain ⟨hw, hcall⟩ := step_conn h
    have hinterest := interest_step d.interest hi.1 hi.2 hw
    have hasks := asks_spec (c := c) (step_turns hw)
    rcases hcall with ⟨hn, he⟩ | ⟨call, hc, hv⟩
    · rw [hn] at hasks
      cases hasks with
      | none hm => exact ⟨hinterest, he ▸ d.follows, he ▸ hm ▸ d.entered⟩
    · rw [hc] at hasks
      refine ⟨hinterest, ?_, ?_⟩
      · cases type with
        | kPoll =>
          exact Watched.poller_step (a := .call call) d.follows (hs _ hw _ hc rfl) hv
        | kEpoll => exact Watched.epoll_step d.follows hv
      · obtain ⟨r, hr, hr'⟩ := Option.map_eq_some_iff.mp hv
        rw [← hr']
        exact entered_step hasks d.entered hr
  | loop a =>
    obtain ⟨ha, hw, hv⟩ := step_loop h
    refine ⟨hw ▸ d.interest, ?_, ?_⟩
    · cases type with
      | kEpoll => exact Watched.epoll_step d.follows hv
      | kPoll =>
        refine Watched.poller_step d.follows ?_ hv
        cases a with
        | call call => exact hs rfl
        | poll | epollWait => trivial
    · rw [hw]
      rcases Watched.registry_step hv with ⟨call, rfl, hr⟩ | hr
      · have hframe := Registry.step_frame hr (allowed_other ha)
        exact fun mask => (hframe mask).trans (d.entered mask)
      · rw [hr]
        exact d.entered

theorem sound_init : Sound c type init where
  interest := interest_init
  follows := Watched.follows_create
  entered _ := ⟨(fun h => by cases h), fun h => by cases h⟩

theorem holds_entered (d : Sound c type s) {events : SelectEvents}
    (hm : s.world.conn.channel.mask = some events) : Holds c s type events := by
  have hfind : s.watched.registry.find c.fd = some (c, events) :=
    Registry.find_eq_some.mpr ⟨(d.entered events).mpr hm, rfl⟩
  cases type with
  | kEpoll =>
    have hi : s.watched.epoll.interest c.fd = _ := d.follows.interest c.fd
    rw [Holds, hi, hfind, Option.map_some]
  | kPoll =>
    exact Poller.entries_at d.follows hfind

theorem follows_output (d : Sound c type s) : FollowsOutput c type s := by
  intro hd hl
  obtain ⟨hw, hm⟩ := interest_follows d.interest hd hl
  exact ⟨hw, fun hs => holds_entered d (hm hs)⟩

theorem interest_registered (c : Channel) (type : SelectorType) (as : List Action)
    (hd : (system c).Along InCallbacks init as) (hs : (system c).Along (Settled c type) init as) :
    (system c).Always (FollowsOutput c type) init as :=
  Transition.System.always_of_along
    (fun _ _ _ d h ht => sound_step d h.1 h.2 ht) (fun _ d => follows_output d) sound_init
    (Transition.System.along_and hd hs)

-- Beside the loop's event channel and timer channel the connection reads a request and echoes it,
-- of which write(2) takes one byte.
def echoed (kernel : Kernel) : List Action :=
  [.loop (.call (.add ⟨16, 3⟩ .kReadEvent)), .loop (.call (.add ⟨24, 4⟩ .kReadEvent))] ++
    started.map .conn ++ [.conn .ret, .conn (.exec .none), .loop (.poll (some kernel)),
      .conn (.events .kReadable), .conn (.exec (.read .got)),
      .conn (.call .loop (.send .view [1, 2])), .conn (.exec .none), .conn (.exec .none),
      .conn (.exec (.write (.wrote 1))), .conn (.exec .none), .conn .ret]

def readable (ready : List Int) : Kernel := fun fd asked => if fd ∈ ready then asked &&& 1 else 0

theorem interest_registered_echoed :
    (system ⟨32, 5⟩).Always (FollowsOutput ⟨32, 5⟩ .kPoll) init (echoed (readable [3, 4, 5])) :=
  interest_registered ⟨32, 5⟩ .kPoll _ (by decide) (by decide)

theorem partition_misdirects : ¬ ∀ c type as, (system c).Along InCallbacks init as →
    (system c).Always (FollowsOutput c type) init as := by
  intro h
  have ha := Transition.System.always_last
    (h ⟨32, 5⟩ .kPoll (echoed (readable [5])) (by decide)) rfl
  exact absurd ((ha (by decide) rfl).2 (by decide)) (by decide)

end Selected
end TcpConnection
end Pedronet
