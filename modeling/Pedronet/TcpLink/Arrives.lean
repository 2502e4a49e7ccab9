import Pedronet.TcpLink.Graceful
import Pedronet.TcpConnection.Flush

namespace Pedronet
namespace TcpLink
open TcpConnection
variable {l m : TcpLink} {side : Side}

-- The handlers of both ends keep to what Interest asks of them.
def Tended (l : TcpLink) : Action → Prop
  | .act side a => a.gentle = true ∧ Flushes (l.peer side).world a
  | .read _ _ | .take _ _ | .destroy _ | .lose _ _ => True

instance (l : TcpLink) : DecidablePred (Tended l)
  | .act _ _ => inferInstanceAs (Decidable (_ ∧ _))
  | .read _ _ | .take _ _ | .destroy _ | .lose _ _ => isTrue trivial

-- What the loops and the network do by themselves.
def Goes (l : TcpLink) : Action → Prop
  | .act side a => TcpConnection.Goes (l.peer side).world a
  | .read _ _ => True
  | .take _ _ | .destroy _ | .lose _ _ => False

-- An end that is connected and not in the middle of an error or a close.
structure Ready (p : Peer) : Prop where
  opened : p.opened = true
  state : p.world.conn.state = .kConnected
  failed : p.world.conn.writeFailed = false
  appended : appending p.world = false
  loop : ∀ i ∈ p.world.loop, i.plain = true

-- All that `s` had taken to send at `l` has been received at `m`.
structure Arrived (l m : TcpLink) (s : Side) : Prop where
  loop : (m.peer s).world.loop = []
  tasks : (m.peer s).world.tasks = []
  output : (m.peer s).world.conn.output = []
  users : (m.peer s).world.users = (l.peer s).world.users
  accepted : ∀ τ, acceptedOf τ (m.peer s).world.conn = acceptedOf τ (l.peer s).world.conn ++
    (waiting τ (l.peer s).world.loop ++ queued τ (l.peer s).world.tasks)
  received : (m.peer s.other).received = stream (m.peer s).world.conn

theorem interest_link {a : Action} (k : ∀ s, Interest (l.peer s).world) (hg : Tended l a)
    (h : step l a = some m) (s : Side) : Interest (m.peer s).world := by
  cases a with
  | act side action =>
    obtain ⟨w, -, -, hw, rfl⟩ := step_act h
    rcases side_cases s side with rfl | rfl
    · simpa using interest_step (k s) hg.1 hg.2 hw
    · simpa using k side.other
  | read side n =>
    obtain ⟨w, -, -, -, hw, -, rfl⟩ := step_read h
    rcases side_cases s side with rfl | rfl
    · simpa using interest_step (a := .exec (.read .got)) (k s) rfl trivial hw
    · simpa using k side.other
  | take side n =>
    obtain rfl := step_take h
    rcases side_cases s side with rfl | rfl
    · simpa using k s
    · simpa using k side.other
  | destroy side =>
    obtain ⟨-, -, rfl⟩ := step_destroy h
    rcases side_cases s side with rfl | rfl
    · simpa using k s
    · simpa using k side.other
  | lose side n =>
    cases h
    exact k s

-- An end of the stream comes from a closed write side or from a socket given up.
def EndsClosed (l : TcpLink) : Prop :=
  ∀ s, (l.pipe s).ended = true → (l.peer s).opened = true →
    (l.peer s).world.conn.writeClosed = true

theorem ends_closed_step {a : Action} (e : EndsClosed l) (h : step l a = some m) :
    EndsClosed m := by
  intro s
  cases a with
  | act side action =>
    obtain ⟨w, ho, -, hw, rfl⟩ := step_act h
    rcases side_cases s side with rfl | rfl
    · simp only [set_same]
      intro he _
      rcases sent_ended he with he | hc
      · exact step_write_closed hw (e s he ho)
      · exact hc
    · simpa using e side.other
  | read side n =>
    obtain ⟨w, -, -, -, hw, ⟨rest, hl⟩, rfl⟩ := step_read h
    obtain rfl := read_written hl hw
    rcases side_cases s side with rfl | rfl
    · simpa [invoke] using e s
    · simpa using e side.other
  | take side n =>
    obtain rfl := step_take h
    rcases side_cases s side with rfl | rfl
    · simpa using e s
    · simpa using e side.other
  | destroy side =>
    obtain ⟨-, -, rfl⟩ := step_destroy h
    rcases side_cases s side with rfl | rfl
    · simp
    · simpa using e side.other
  | lose side n =>
    cases h
    rcases side_cases s side with rfl | rfl
    · simpa using e s
    · simpa using e side.other

theorem ends_closed (h : system.Reachable l) : EndsClosed l := by
  refine Transition.System.invariant ?_ ?_ h
  · rintro _ rfl s he
    cases he
  · exact fun _ _ _ e hs => ends_closed_step e hs

structure Settled (w : World) : Prop where
  streamed : Streamed w
  reads : Reads w
  closing : Closing w
  past : w.conn.writeClosed = true → w.conn.state.past = true

theorem past_kept {w t : World} {a : TcpConnection.Action} (k : Closing w)
    (hp : w.conn.writeClosed = true → w.conn.state.past = true)
    (h : TcpConnection.step w a = some t) (ht : t.conn.writeClosed = true) :
    t.conn.state.past = true := by
  refine past_step h ?_
  rcases step_conn h with hc | ⟨_, _, _, _, -, -, hc⟩ | ⟨_, i, rest, push, -, hl, he⟩
  · exact hp (hc ▸ ht)
  · exact hp (calls_write_closed hc ▸ ht)
  · rcases executes_write_closed he with hc | ⟨rfl, -, -⟩
    · exact hp (hc ▸ ht)
    · refine Decidable.byContradiction fun hn => ?_
      have hi := (k (Bool.eq_false_iff.mpr hn)).loop .closeWrite (by simp [hl])
      cases hi

theorem settled_reachable {w : World} (h : TcpConnection.system.Reachable w) : Settled w := by
  refine Transition.System.invariant ?_ ?_ h
  · rintro _ rfl
    exact ⟨streamed_init, reads_init, closing_init, fun h => by cases h⟩
  · rintro w a t s hs
    exact ⟨streamed_step s.streamed hs, reads_step s.reads hs, closing_kept s.closing hs,
      past_kept s.closing s.past hs⟩

theorem ready_open {p : Peer} (r : Ready p) (s : Settled p.world) (k : Interest p.world) :
    Open p.world where
  state := r.state
  failed := r.failed
  closed := by
    refine Bool.eq_false_iff.mpr fun hc => ?_
    have hp := s.past hc
    rw [r.state] at hp
    cases hp
  appended := r.appended
  loop := r.loop
  tasks := by
    intro entry he
    have hshuts := (s.closing (by rw [r.state]; rfl)).tasks entry he
    have hremoves := k.removing.tasks entry he
    rw [r.state] at hremoves
    cases hj : entry.2 with
    | add | handleSend | send => rfl
    | close | forceClose =>
      rw [hj] at hremoves
      cases hremoves rfl
    | shutdown | forceShutdown =>
      rw [hj] at hshuts
      cases hshuts

structure Live (l : TcpLink) : Prop where
  flows : Flows l
  opened : ∀ s, (l.peer s).opened = true
  awake : ∀ s, Awake (l.peer s).world
  uncut : ∀ s, (l.pipe s).cut = false
  unended : ∀ s, (l.pipe s).ended = false

theorem goes_allowed {a : TcpConnection.Action} (v : Live l)
    (hg : TcpConnection.Goes (l.peer side).world a) : l.allows side a = true := by
  cases a with
  | call thread op | user id | enter => exact hg.elim
  | ret | task index => rfl
  | exec env =>
    cases env with
    | none | soError code => rfl
    | write result =>
      cases result with
      | wrote n => simp [allows, v.unended side]
      | failed errno soError => rfl
    | read result =>
      cases result with
      | got | eof => cases hg
      | failed errno => rfl
  | events events =>
    obtain ⟨-, -, ⟨rfl, -⟩ | ⟨rfl, -⟩⟩ := hg
    · rfl
    · rfl

structure Moves (side : Side) (l m : TcpLink) : Prop where
  reaches : system.Reaches Goes l m
  live : Live m
  other : m.peer side.other = l.peer side.other
  keeps : Keeps (l.peer side).world (m.peer side).world

theorem keeps_trans {w t u : World} (h : Keeps w t) (h' : Keeps t u) : Keeps w u :=
  ⟨h'.1.trans h.1, fun τ => (h'.2 τ).trans (h.2 τ)⟩

theorem moves_trans {n : TcpLink} (h : Moves side l m) (h' : Moves side m n) : Moves side l n :=
  ⟨Transition.System.reaches_trans h.reaches h'.reaches, h'.live, h'.other.trans h.other,
    keeps_trans h.keeps h'.keeps⟩

theorem moves_refl (v : Live l) : Moves side l l :=
  ⟨Transition.System.reaches_refl, v, rfl, rfl, fun _ => rfl⟩

theorem moves_act {a : TcpConnection.Action} {w : World} (v : Live l)
    (hg : TcpConnection.Goes (l.peer side).world a)
    (h : TcpConnection.step (l.peer side).world a = some w) :
    ∃ m, Moves side l m ∧ m.peer side = { l.peer side with world := w } ∧
      m.pipe side.other = l.pipe side.other := by
  have hs : step l (.act side a) = some ⟨set l.peer side { l.peer side with world := w },
      set l.pipe side (sent (l.pipe side) (l.peer side).world.conn w.conn)⟩ := by
    simp [step, v.opened side, goes_allowed v hg, h]
  have ka := awake_step (v.awake side) hg h
  refine ⟨_, ⟨Transition.System.reaches_step (a := .act side a) hg hs, ?_, ?_, ?_⟩, ?_, ?_⟩
  · refine ⟨flows_step v.flows hs, fun s => ?_, fun s => ?_, fun s => ?_, fun s => ?_⟩
    · rcases side_cases s side with rfl | rfl
      · simpa using v.opened s
      · simpa using v.opened side.other
    · rcases side_cases s side with rfl | rfl
      · simpa using ka
      · simpa using v.awake side.other
    · rcases side_cases s side with rfl | rfl
      · simpa [sent_cut] using v.uncut s
      · simpa using v.uncut side.other
    · rcases side_cases s side with rfl | rfl
      · simp [sent, ka.isOpen.closed, v.unended s]
      · simpa using v.unended side.other
  · simp
  · simpa using keeps_step (v.awake side) hg h
  · simp
  · simp

theorem moves_reaches {w : World} (v : Live l)
    (h : TcpConnection.system.Reaches TcpConnection.Goes (l.peer side).world w) :
    ∃ m, Moves side l m ∧ m.peer side = { l.peer side with world := w } := by
  obtain ⟨as, ha, hr⟩ := h
  induction as generalizing l with
  | nil =>
    cases hr
    exact ⟨l, moves_refl v, rfl⟩
  | cons a as ih =>
    obtain ⟨u, hu, hw⟩ := Transition.System.run_cons hr
    obtain ⟨hg, has⟩ := ha u hu
    obtain ⟨k, hk, hp, -⟩ := moves_act v hg hu
    have hworld : (k.peer side).world = u := by rw [hp]
    obtain ⟨m, hm, hpm⟩ := ih hk.live (hworld ▸ has) (hworld ▸ hw)
    refine ⟨m, moves_trans hk hm, ?_⟩
    rw [hpm, hp]

theorem awake_got {w t : World} {rest : List Instr} (k : Awake w) (hl : w.loop = .handleRead :: rest)
    (h : TcpConnection.step w (.exec (.read .got)) = some t) : Awake t ∧ Keeps w t := by
  have hi := interest_step (a := .exec (.read .got)) k.interest rfl trivial h
  have hr := reads_step k.reads h
  have hs := streamed_step k.streamed h
  have hp := fun τ => progress_step τ k.interest.layered h
  obtain rfl := read_written hl h
  refine ⟨⟨hi, hr, hs, ?_⟩, rfl, fun τ => ?_⟩
  · have o := k.isOpen
    refine ⟨o.state, o.failed, o.closed, o.appended, ?_, o.tasks⟩
    intro j hj
    rcases List.mem_cons.mp hj with rfl | hj
    · rfl
    · exact o.loop j (by simp [hl, hj])
  · rcases hp τ with hp | ⟨hn, -⟩
    · exact hp.trans (List.append_nil _)
    · exact absurd k.isOpen.state hn

theorem moves_read {rest : List Instr} (v : Live l)
    (hl : (l.peer side).world.loop = .handleRead :: rest) (hf : (l.pipe side.other).flying ≠ []) :
    ∃ m, Moves side l m ∧ (m.pipe side.other).flying = [] ∧
      (m.peer side).world = { (l.peer side).world with
        conn := (l.peer side).world.conn.invoke .onRead
        loop := .handler .onRead :: rest } := by
  obtain ⟨n, hn⟩ : ∃ n, n = (l.pipe side.other).flying.length := ⟨_, rfl⟩
  have h : TcpConnection.step (l.peer side).world (.exec (.read .got)) =
      some { (l.peer side).world with
        conn := (l.peer side).world.conn.invoke .onRead
        loop := .handler .onRead :: rest } := by
    rw [exec_step hl (by rfl)]
    rfl
  have hs : step l (.read side n) = some ⟨set l.peer side { l.peer side with
        world := { (l.peer side).world with
          conn := (l.peer side).world.conn.invoke .onRead
          loop := .handler .onRead :: rest }
        input := (l.peer side).input ++ (l.pipe side.other).flying.take n },
      set l.pipe side.other ((l.pipe side.other).pull n)⟩ := by
    simp [step, v.opened side, Peer.reading, hl, hf, hn, h]
  obtain ⟨ka, hk⟩ := awake_got (v.awake side) hl h
  refine ⟨_, ⟨Transition.System.reaches_step (a := .read side n) trivial hs, ?_, ?_, ?_⟩, ?_, ?_⟩
  · refine ⟨flows_step v.flows hs, fun s => ?_, fun s => ?_, fun s => ?_, fun s => ?_⟩
    · rcases side_cases s side with rfl | rfl
      · simpa using v.opened s
      · simpa using v.opened side.other
    · rcases side_cases s side with rfl | rfl
      · simpa using ka
      · simpa using v.awake side.other
    · rcases side_cases s side with rfl | rfl
      · simpa using v.uncut s
      · simpa using v.uncut side.other
    · rcases side_cases s side with rfl | rfl
      · simpa using v.unended s
      · simpa using v.unended side.other
  · simp
  · simpa using hk
  · simp [Pipe.pull, hn]
  · simp

structure Idle (w : World) : Prop where
  loop : w.loop = []
  tasks : w.tasks = []
  output : w.conn.output = []

theorem received_written (f : Flows l) (hc : (l.pipe side).cut = false)
    (hf : (l.pipe side).flying = []) :
    (l.peer side.other).received = (l.peer side).world.conn.written := by
  have hw := (f side).whole hc
  rwa [hf, List.append_nil] at hw

variable (side) in
theorem reads_all (v : Live l) (i : Idle (l.peer side).world) :
    ∃ m, Moves side l m ∧ Idle (m.peer side).world ∧
      (m.peer side).world.conn.written = (l.peer side).world.conn.written ∧
      (m.peer side).received = (l.peer side.other).world.conn.written := by
  by_cases hf : (l.pipe side.other).flying = []
  · have hr := received_written v.flows (v.uncut side.other) hf
    rw [other_other] at hr
    exact ⟨l, moves_refl v, i, rfl, hr⟩
  · have k := v.awake side
    have hs := k.isOpen.state
    obtain ⟨-, hm⟩ := interest_follows k.interest (by simp [hs]) i.loop
    have hm := hm (by simp [hs])
    have hreg : (l.peer side).world.conn.channel.registered = true := by
      simp [SocketChannel.registered, hm]
    have hread : (l.peer side).world.conn.channel.readable = true :=
      (k.reads hs).resolve_right (by simp [i.loop])
    have hg : TcpConnection.Goes (l.peer side).world (.events .kReadable) :=
      ⟨_, hm, .inl ⟨rfl, hread⟩⟩
    have he : TcpConnection.step (l.peer side).world (.events .kReadable) =
        some { (l.peer side).world with loop := [.handleRead] } := by
      simp only [TcpConnection.step, i.loop, hreg, if_true]
      rfl
    obtain ⟨m1, h1, hp1, hq1⟩ := moves_act v hg he
    have hl1 : (m1.peer side).world.loop = [.handleRead] := by rw [hp1]
    obtain ⟨m2, h2, hf2, hw2⟩ := moves_read h1.live hl1 (hq1 ▸ hf)
    have hret : TcpConnection.step (m2.peer side).world .ret =
        some { (m2.peer side).world with loop := [] } := by
      simp [TcpConnection.step, hw2]
    obtain ⟨m, h3, hp3, hq3⟩ := moves_act (a := .ret) h2.live trivial hret
    have hm := moves_trans (moves_trans h1 h2) h3
    have hr := received_written h3.live.flows (h3.live.uncut side.other) (hq3 ▸ hf2)
    rw [other_other, hm.other] at hr
    have hworld : (m.peer side).world = { (l.peer side).world with
        conn := (l.peer side).world.conn.invoke .onRead
        loop := [] } := by
      rw [hp3, hw2, hp1]
    refine ⟨m, hm, ?_, ?_, hr⟩
    · rw [hworld]
      exact ⟨rfl, i.tasks, i.output⟩
    · rw [hworld]
      rfl

variable (side) in
theorem writes_all (v : Live l) : ∃ m, Moves side l m ∧ Idle (m.peer side).world := by
  obtain ⟨w, hw, hl, ht, ho⟩ := output_flushed (v.awake side)
  obtain ⟨m, hm, hp⟩ := moves_reaches v hw
  refine ⟨m, hm, ?_⟩
  rw [hp]
  exact ⟨hl, ht, ho⟩

theorem keeps_accepted {w t : World} (h : Keeps w t) (i : Idle t) (τ : Thread) :
    acceptedOf τ t.conn = acceptedOf τ w.conn ++ (waiting τ w.loop ++ queued τ w.tasks) := by
  have hp := h.2 τ
  simp only [progress, pending, i.loop, i.tasks, h.1] at hp
  have hcalling : acceptedOf τ t.conn ++ calling w.users τ =
      (acceptedOf τ w.conn ++ (waiting τ w.loop ++ queued τ w.tasks)) ++ calling w.users τ := by
    simpa [waiting, queued] using hp
  exact List.append_cancel_right hcalling

theorem arrived {s : Side} (v : Live m) (k : Keeps (l.peer s).world (m.peer s).world)
    (i : Idle (m.peer s).world)
    (hr : (m.peer s.other).received = (m.peer s).world.conn.written) : Arrived l m s where
  loop := i.loop
  tasks := i.tasks
  output := i.output
  users := k.1
  accepted := keeps_accepted k i
  received := by
    have hu : unsent (m.peer s).world.loop = [] := by
      rw [i.loop]
      rfl
    rw [hr, written_stream (v.awake s).streamed (v.awake s).isOpen.failed i.output hu]

theorem live_arrives (v : Live l) : ∃ m, system.Reaches Goes l m ∧ ∀ s, Arrived l m s := by
  obtain ⟨m1, h1, i1⟩ := writes_all .client v
  obtain ⟨m2, h2, i2⟩ := writes_all .server h1.live
  have hc2 : m2.peer .client = m1.peer .client := h2.other
  obtain ⟨m3, h3, i3, -, hr3⟩ := reads_all .client h2.live (by rw [hc2]; exact i1)
  have hs3 : m3.peer .server = m2.peer .server := h3.other
  obtain ⟨m, h4, i4, hw4, hr4⟩ := reads_all .server h3.live (by rw [hs3]; exact i2)
  have hc4 : m.peer .client = m3.peer .client := h4.other
  have hreach := Transition.System.reaches_trans h1.reaches
    (Transition.System.reaches_trans h2.reaches
      (Transition.System.reaches_trans h3.reaches h4.reaches))
  refine ⟨m, hreach, fun s => ?_⟩
  cases s with
  | client =>
    have hk : Keeps (l.peer .client).world (m.peer .client).world := by
      rw [hc4]
      exact keeps_trans h1.keeps (hc2 ▸ h3.keeps)
    exact arrived h4.live hk (hc4 ▸ i3) (hr4.trans (by rw [hc4]; rfl))
  | server =>
    have hs1 : m1.peer .server = l.peer .server := h1.other
    have hk : Keeps (l.peer .server).world (m.peer .server).world :=
      keeps_trans (hs1 ▸ h2.keeps) (hs3 ▸ h4.keeps)
    refine arrived h4.live hk i4 ?_
    have hr : (m.peer .client).received = (m2.peer .server).world.conn.written := by
      rw [hc4]
      exact hr3
    rw [hw4, hs3]
    exact hr

theorem messages_arrive (as : List Action) (h : system.run init as = some l)
    (ht : system.Along Tended init as) (hr : ∀ s, Ready (l.peer s))
    (hc : ∀ s, (l.pipe s).cut = false) :
    ∃ m, system.Reaches Goes l m ∧ ∀ s, Arrived l m s := by
  have hl : system.Reachable l := Transition.System.reachable_run (.start rfl) h
  have hinterest : ∀ s, Interest (l.peer s).world := by
    refine Transition.System.run_invariant (I := fun l => ∀ s, Interest (l.peer s).world) ?_
      (fun _ => interest_init) ht h
    exact fun _ _ _ k hg hs => interest_link k hg hs
  have hsettled := fun s => settled_reachable (reachable_world hl s)
  have hopen := fun s => ready_open (hr s) (hsettled s) (hinterest s)
  have v : Live l := {
    flows := flows_reachable hl
    opened := fun s => (hr s).opened
    awake := fun s => ⟨hinterest s, (hsettled s).reads, (hsettled s).streamed, hopen s⟩
    uncut := hc
    unended := fun s => Bool.eq_false_iff.mpr fun he => by
      have hclosed := ends_closed hl s he (hr s).opened
      rw [(hopen s).closed] at hclosed
      cases hclosed }
  exact live_arrives v

-- write(2) takes two of three bytes, and a second message waits in the queue of the loop.
def halfWritten : List Action :=
  Peers .client (started ++ [.call .loop (.send .view [1, 2, 3]), .exec .none, .exec .none,
    .exec (.write (.wrote 2)), .exec .none, .call (.user 1) (.send .string [4]), .user 1]) ++
  Peers .server (started ++ [.ret, .exec .none])

theorem messages_arrive_half_written : ∃ l m, system.run init halfWritten = some l ∧
    (l.peer .server).received = [] ∧ system.Reaches Goes l m ∧
    (m.peer .server).received = stream (m.peer .client).world.conn ∧
    acceptedOf .loop (m.peer .client).world.conn = [[1, 2, 3]] ∧
    acceptedOf (.user 1) (m.peer .client).world.conn = [[4]] := by
  obtain ⟨l, hl, hready, hcut, hr, hloop, huser⟩ : ∃ l, system.run init halfWritten = some l ∧
      (∀ s, Ready (l.peer s)) ∧ (∀ s, (l.pipe s).cut = false) ∧ (l.peer .server).received = [] ∧
      acceptedOf .loop (l.peer .client).world.conn ++ (waiting .loop (l.peer .client).world.loop ++
        queued .loop (l.peer .client).world.tasks) = [[1, 2, 3]] ∧
      acceptedOf (.user 1) (l.peer .client).world.conn ++
        (waiting (.user 1) (l.peer .client).world.loop ++
          queued (.user 1) (l.peer .client).world.tasks) = [[4]] := by
    refine ⟨_, rfl, ?_, ?_, rfl, rfl, rfl⟩
    · rintro (_ | _)
      · exact ⟨rfl, rfl, rfl, rfl, by decide⟩
      · exact ⟨rfl, rfl, rfl, rfl, by decide⟩
    · rintro (_ | _) <;> rfl
  obtain ⟨m, hm, h⟩ := messages_arrive halfWritten hl (by decide) hready hcut
  exact ⟨l, m, hl, hr, hm, (h .client).received, ((h .client).accepted .loop).trans hloop,
    ((h .client).accepted (.user 1)).trans huser⟩

end TcpLink
end Pedronet
