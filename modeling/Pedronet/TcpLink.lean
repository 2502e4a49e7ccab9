import Pedronet.Pipe
import Pedronet.TcpConnection.Delivery

namespace Pedronet
namespace TcpLink
open TcpConnection

inductive Side where
  | client
  | server
deriving DecidableEq, Repr

def Side.other : Side → Side
  | .client => .server
  | .server => .client

-- A connection with its input_; `taken` is history: what the handlers have retrieved from it.
structure Peer where
  world : World
  input : Bytes
  taken : Bytes
  opened : Bool

def Peer.init : Peer := ⟨.init, [], [], true⟩

def Peer.received (p : Peer) : Bytes := p.taken ++ p.input

def set {α : Type} (f : Side → α) (side : Side) (value : α) : Side → α :=
  fun s => if s = side then value else f s

end TcpLink

open TcpLink TcpConnection

-- Two connections whose sockets are the ends of one TCP connection. `pipe side` has what that
-- side writes.
structure TcpLink where
  peer : Side → Peer
  pipe : Side → Pipe UInt8

namespace TcpLink

inductive Action where
  | act (side : Side) (action : TcpConnection.Action)
  | read (side : Side) (n : Nat)
  | take (side : Side) (n : Nat)
  | destroy (side : Side)
  | lose (side : Side) (n : Nat)
deriving DecidableEq, Repr

def init : TcpLink := ⟨fun _ => .init, fun _ => .empty⟩

-- What the kernel lets a socket do: no write behind the end of the stream, end of stream only
-- when nothing is under way, and no POLLNVAL for a descriptor that is open.
def allows (l : TcpLink) (side : Side) : TcpConnection.Action → Bool
  | .exec (.write (.wrote _)) => !(l.pipe side).ended
  | .exec (.read .got) => false
  | .exec (.read .eof) =>
    (l.pipe side.other).flying.isEmpty && ((l.pipe side.other).ended || (l.pipe side.other).cut)
  | .events events => !events.contains .kInvalid
  | _ => true

def sent (p : Pipe UInt8) (before after : TcpConnection) : Pipe UInt8 :=
  let p := p.push (after.written.drop before.written.length)
  if after.writeClosed then p.finish else p

def Peer.reading (p : Peer) : Bool :=
  match p.world.loop with
  | .handleRead :: _ => true
  | _ => false

def Peer.handling (p : Peer) : Bool :=
  match p.world.loop with
  | .handler _ :: _ => true
  | _ => false

-- Nothing refers to the connection any more.
def Peer.released (p : Peer) : Bool :=
  p.world.loop.isEmpty && p.world.tasks.isEmpty && !p.world.conn.channel.registered

def step (l : TcpLink) : Action → Option TcpLink
  | .act side action =>
    let p := l.peer side
    if p.opened && l.allows side action then
      (TcpConnection.step p.world action).map fun w =>
        ⟨set l.peer side { p with world := w },
          set l.pipe side (sent (l.pipe side) p.world.conn w.conn)⟩
    else none
  | .read side n =>
    let p := l.peer side
    let q := l.pipe side.other
    if p.opened && p.reading && decide (0 < n) && decide (n ≤ q.flying.length) then
      (TcpConnection.step p.world (.exec (.read .got))).map fun w =>
        ⟨set l.peer side { p with world := w, input := p.input ++ q.flying.take n },
          set l.pipe side.other (q.pull n)⟩
    else none
  | .take side n =>
    let p := l.peer side
    if p.opened && p.handling && decide (n ≤ p.input.length) then
      some ⟨set l.peer side { p with input := p.input.drop n, taken := p.taken ++ p.input.take n },
        l.pipe⟩
    else none
  | .destroy side =>
    let p := l.peer side
    if p.opened && p.released then
      some ⟨set l.peer side { p with opened := false },
        set (set l.pipe side (l.pipe side).finish) side.other ((l.pipe side.other).lose 0)⟩
    else none
  | .lose side n => some ⟨l.peer, set l.pipe side ((l.pipe side).lose n)⟩

def system : Transition.System TcpLink Action where
  start l := l = init
  step := step

@[simp] theorem set_same {α : Type} (f : Side → α) (side : Side) (value : α) :
    set f side value side = value := if_pos rfl

@[simp] theorem set_other {α : Type} (f : Side → α) (side : Side) (value : α) :
    set f side value side.other = f side.other := by cases side <;> rfl

@[simp] theorem set_back {α : Type} (f : Side → α) (side : Side) (value : α) :
    set f side.other value side = f side := by cases side <;> rfl

theorem side_cases (s side : Side) : s = side ∨ s = side.other := by
  cases s <;> cases side <;> simp [Side.other]

@[simp] theorem other_other (side : Side) : side.other.other = side := by cases side <;> rfl

variable {l m : TcpLink}

theorem step_act {side : Side} {action : TcpConnection.Action}
    (h : step l (.act side action) = some m) :
    ∃ w, (l.peer side).opened = true ∧ l.allows side action = true ∧
      TcpConnection.step (l.peer side).world action = some w ∧
      m = ⟨set l.peer side { l.peer side with world := w },
        set l.pipe side (sent (l.pipe side) (l.peer side).world.conn w.conn)⟩ := by
  simp only [step, Bool.and_eq_true] at h
  split at h
  · rename_i hg
    obtain ⟨w, hw, rfl⟩ := Option.map_eq_some_iff.mp h
    exact ⟨w, hg.1, hg.2, hw, rfl⟩
  · cases h

theorem step_read {side : Side} {n : Nat} (h : step l (.read side n) = some m) :
    ∃ w, (l.peer side).opened = true ∧ 0 < n ∧ n ≤ (l.pipe side.other).flying.length ∧
      TcpConnection.step (l.peer side).world (.exec (.read .got)) = some w ∧
      (∃ rest, (l.peer side).world.loop = .handleRead :: rest) ∧
      m = ⟨set l.peer side { l.peer side with
          world := w, input := (l.peer side).input ++ (l.pipe side.other).flying.take n },
        set l.pipe side.other ((l.pipe side.other).pull n)⟩ := by
  simp only [step, Bool.and_eq_true, decide_eq_true_eq] at h
  split at h
  · rename_i hg
    obtain ⟨⟨⟨ho, hr⟩, hn⟩, hf⟩ := hg
    obtain ⟨w, hw, rfl⟩ := Option.map_eq_some_iff.mp h
    refine ⟨w, ho, hn, hf, hw, ?_, rfl⟩
    unfold Peer.reading at hr
    split at hr
    · rename_i rest hl
      exact ⟨rest, hl⟩
    · cases hr
  · cases h

theorem step_take {side : Side} {n : Nat} (h : step l (.take side n) = some m) :
    m = ⟨set l.peer side { l.peer side with
        input := (l.peer side).input.drop n
        taken := (l.peer side).taken ++ (l.peer side).input.take n }, l.pipe⟩ := by
  simp only [step] at h
  split at h
  · simpa using h.symm
  · cases h

theorem step_destroy {side : Side} (h : step l (.destroy side) = some m) :
    (l.peer side).opened = true ∧ (l.peer side).world.loop = [] ∧
      m = ⟨set l.peer side { l.peer side with opened := false },
        set (set l.pipe side (l.pipe side).finish) side.other ((l.pipe side.other).lose 0)⟩ := by
  simp only [step, Bool.and_eq_true, Peer.released, List.isEmpty_iff] at h
  split at h
  · rename_i hg
    exact ⟨hg.1, hg.2.1.1, by simpa using h.symm⟩
  · cases h

theorem sent_carries {p : Pipe UInt8} {w t : World} {received : Bytes} {a : TcpConnection.Action}
    (h : p.Carries w.conn.written received) (hs : TcpConnection.step w a = some t) :
    (sent p w.conn t.conn).Carries t.conn.written received := by
  obtain ⟨l, hl⟩ := (grows_step hs).written
  have hd : t.conn.written.drop w.conn.written.length = l := by rw [← hl, List.drop_left]
  have hp : (p.push l).Carries t.conn.written received := hl ▸ Pipe.carries_push h l
  simp only [sent, hd]
  split
  · exact Pipe.carries_finish hp
  · exact hp

theorem read_written {w t : World} {rest : List Instr} (hl : w.loop = .handleRead :: rest)
    (h : TcpConnection.step w (.exec (.read .got)) = some t) :
    t = { w with conn := w.conn.invoke .onRead, loop := .handler .onRead :: rest } := by
  simp only [TcpConnection.step, hl] at h
  simpa [exec, handleRead] using h.symm

@[simp] theorem received_world (p : Peer) (w : World) : { p with world := w }.received = p.received :=
  rfl

@[simp] theorem received_read (p : Peer) (w : World) (bytes : Bytes) :
    { p with world := w, input := p.input ++ bytes }.received = p.received ++ bytes :=
  (List.append_assoc _ _ _).symm

@[simp] theorem received_take (p : Peer) (n : Nat) :
    { p with input := p.input.drop n, taken := p.taken ++ p.input.take n }.received =
      p.received := by
  simp [Peer.received]

def Flows (l : TcpLink) : Prop :=
  ∀ side, (l.pipe side).Carries (l.peer side).world.conn.written (l.peer side.other).received

theorem flows_init : Flows init := fun _ => Pipe.carries_empty

theorem flows_step {a : Action} (f : Flows l) (h : step l a = some m) : Flows m := by
  intro s
  cases a with
  | act side action =>
    obtain ⟨w, -, -, hw, rfl⟩ := step_act h
    rcases side_cases s side with rfl | rfl
    · simpa using sent_carries (f s) hw
    · simpa using f side.other
  | read side n =>
    obtain ⟨w, -, -, -, hw, ⟨rest, hl⟩, rfl⟩ := step_read h
    rcases side_cases s side with rfl | rfl
    · have he := congrArg (fun w => w.conn.written) (read_written hl hw)
      simpa [he, invoke] using f s
    · simpa using Pipe.carries_pull (f side.other) n
  | take side n =>
    obtain rfl := step_take h
    rcases side_cases s side with rfl | rfl
    · simpa using f s
    · simpa using f side.other
  | destroy side =>
    obtain ⟨-, -, rfl⟩ := step_destroy h
    rcases side_cases s side with rfl | rfl
    · simpa [Peer.received] using Pipe.carries_finish (f s)
    · simpa [Peer.received] using Pipe.carries_lose (f side.other) 0
  | lose side n =>
    cases h
    rcases side_cases s side with rfl | rfl
    · simpa using Pipe.carries_lose (f s) n
    · simpa using f side.other

theorem world_step {a : Action} (h : step l a = some m) (s : Side) :
    (m.peer s).world = (l.peer s).world ∨
      ∃ b, TcpConnection.step (l.peer s).world b = some (m.peer s).world := by
  have hother : ∀ {side : Side} {p : Peer}, s = side.other →
      (set l.peer side p s).world = (l.peer s).world := by
    rintro side p rfl
    rw [set_other]
  have hsame : ∀ {side : Side} {p : Peer}, p.world = (l.peer side).world →
      (set l.peer side p s).world = (l.peer s).world := by
    intro side p hp
    rcases side_cases s side with rfl | hs
    · rw [set_same, hp]
    · exact hother hs
  cases a with
  | act side action =>
    obtain ⟨w, -, -, hw, rfl⟩ := step_act h
    rcases side_cases s side with rfl | hs
    · exact .inr ⟨action, by simpa using hw⟩
    · exact .inl (hother hs)
  | read side n =>
    obtain ⟨w, -, -, -, hw, -, rfl⟩ := step_read h
    rcases side_cases s side with rfl | hs
    · exact .inr ⟨_, by simpa using hw⟩
    · exact .inl (hother hs)
  | take side n =>
    obtain rfl := step_take h
    exact .inl (hsame rfl)
  | destroy side =>
    obtain ⟨-, -, rfl⟩ := step_destroy h
    exact .inl (hsame rfl)
  | lose side n =>
    cases h
    exact .inl rfl

theorem reachable_world (h : system.Reachable l) (s : Side) :
    TcpConnection.system.Reachable (l.peer s).world := by
  refine Transition.System.invariant
    (I := fun l => TcpConnection.system.Reachable (l.peer s).world) ?_ ?_ h
  · rintro _ rfl
    exact .start rfl
  · intro l a m hl hs
    rcases world_step hs s with he | ⟨b, hb⟩
    · exact he ▸ hl
    · exact hl.step hb

theorem streamed_reachable {w : World} (h : TcpConnection.system.Reachable w) : Streamed w := by
  refine Transition.System.invariant ?_ ?_ h
  · rintro _ rfl
    exact streamed_init
  · exact fun _ _ _ s hs => streamed_step s hs

theorem flows_reachable (h : system.Reachable l) : Flows l := by
  refine Transition.System.invariant ?_ ?_ h
  · rintro _ rfl
    exact flows_init
  · exact fun _ _ _ f hs => flows_step f hs

theorem ordered_reachable {w : World} (h : TcpConnection.system.Reachable w) (τ : Thread) :
    (acceptedOf τ w.conn).Sublist (sends τ w) := by
  have hp : Layered w ∧ (progress τ w).Sublist (sends τ w) := by
    refine Transition.System.invariant (I := fun w => Layered w ∧ (progress τ w).Sublist (sends τ w))
      ?_ ?_ h
    · rintro _ rfl
      exact ⟨layered_init, by rw [progress_init]; exact List.nil_sublist _⟩
    · rintro w a t ⟨hl, hp⟩ hs
      exact ⟨layered_step hl hs, sends_in_order hl hp hs⟩
  exact (List.sublist_append_left _ _).trans hp.2

theorem written_accepted {w : World} (s : Streamed w) (hf : w.conn.writeFailed = false) :
    w.conn.written <+: w.conn.accepted.flatMap Prod.snd := ⟨_, s.bytes hf⟩

theorem received_in_order (as : List Action) (h : system.run init as = some l) (side : Side) :
    ((l.pipe side).cut = false → (l.peer side.other).received ++ (l.pipe side).flying =
      (l.peer side).world.conn.written) ∧
    (l.peer side.other).received <+: (l.peer side).world.conn.written ∧
    ((l.peer side).world.conn.writeFailed = false →
      (l.peer side.other).received <+: (l.peer side).world.conn.accepted.flatMap Prod.snd) ∧
    ∀ τ, (acceptedOf τ (l.peer side).world.conn).Sublist (sends τ (l.peer side).world) := by
  have hl : system.Reachable l := Transition.System.reachable_run (.start rfl) h
  have hw := reachable_world hl side
  have hf := flows_reachable hl
  have hr := Pipe.carries_received (hf side)
  exact ⟨(hf side).whole, hr, fun hn => hr.trans (written_accepted (streamed_reachable hw) hn),
    ordered_reachable hw⟩

def Peers (side : Side) (as : List TcpConnection.Action) : List Action := as.map (.act side)

-- Three bytes of which write(2) takes two, read and retrieved one at a time.
def threeBytes : List Action :=
  Peers .client (started ++ [.call .loop (.send .view [1, 2, 3]), .exec .none, .exec .none,
    .exec (.write (.wrote 2)), .exec .none]) ++
  Peers .server (started ++ [.ret, .exec .none, .events .kReadable]) ++
  [.read .server 1, .take .server 1, .act .server .ret, .act .server (.events .kReadable),
    .read .server 1]

theorem received_two_of_three : ∃ l, system.run init threeBytes = some l ∧
    (l.peer .server).taken = [1] ∧ (l.peer .server).input = [2] ∧
    (l.peer .server).received <+: [1, 2, 3] := by
  obtain ⟨l, hl, ht, hi, hf, ha⟩ : ∃ l, system.run init threeBytes = some l ∧
      (l.peer .server).taken = [1] ∧ (l.peer .server).input = [2] ∧
      (l.peer .client).world.conn.writeFailed = false ∧
      (l.peer .client).world.conn.accepted.flatMap Prod.snd = [1, 2, 3] := ⟨_, rfl, rfl, rfl, rfl, rfl⟩
  obtain ⟨-, -, hr, -⟩ := received_in_order threeBytes hl .client
  exact ⟨l, hl, ht, hi, ha ▸ hr hf⟩

end TcpLink
end Pedronet
