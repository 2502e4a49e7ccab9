import Pedronet.TimerQueue
import Mathlib.Algebra.Group.Nat.Defs

namespace Pedronet
namespace EventLoopGroup

-- The queue of a loop with the first step of its Add, and the delays that takes.
structure Timers where
  queue : TimerQueue
  Delay : Type
  add : Delay → Int → queue.Action

def makeTimers (o : TimerHashWheel.Options) : TimerQueueType → Timers
  | .kHashWheel => ⟨TimerHashWheel.timerQueue o, Nat, .add⟩
  | .kHeap => ⟨TimerHeapQueue.timerQueue, Int, .add⟩

structure Options where
  size : Nat
  size_pos : 0 < size

-- A call of ScheduleAfter or ScheduleEvery: before its loop's Add, in it, and with the timer's id.
inductive Call (Delay : Type) where
  | schedule (loop : Nat) (delay : Delay) (interval : Int)
  | adding (loop : Nat)
  | issued (loop timer : Nat)

structure Scheduled where
  loop : Nat
  timer : Nat
  id : BitVec 64
deriving DecidableEq, Repr

end EventLoopGroup

open EventLoopGroup

-- `scheduled` is history: what the calls that have returned scheduled, and the id they returned.
structure EventLoopGroup (Q : Timers) where
  loops : Nat → Q.queue.World
  next : BitVec 64
  calls : List (Call Q.Delay)
  scheduled : List Scheduled

namespace EventLoopGroup

inductive Action (Q : Timers) where
  | scheduleAfter (delay : Q.Delay)
  | scheduleEvery (delay : Q.Delay) (interval : Int)
  | scheduleCancel (id : BitVec 64)
  | add (index : Nat)
  | issue (index : Nat) (action : Q.queue.Action)
  | ret (index : Nat)
  | loop (loop : Nat) (action : Q.queue.Action)

variable {Q : Timers} (o : Options)

def create (clocks : Nat → Int) (next : BitVec 64) : EventLoopGroup Q :=
  ⟨fun i => Q.queue.init (clocks i), next, [], []⟩

def timerId (timer loop : Nat) : BitVec 64 := BitVec.ofNat 64 (timer * o.size + loop)

def setLoop (g : EventLoopGroup Q) (loop : Nat) (world : Q.queue.World) : EventLoopGroup Q :=
  { g with loops := fun i => if i = loop then world else g.loops i }

def schedule (g : EventLoopGroup Q) (delay : Q.Delay) (interval : Int) : EventLoopGroup Q :=
  { g with
    next := g.next + 1
    calls := g.calls ++ [.schedule (g.next.toNat % o.size) delay interval] }

-- A fetch_add on counter_ gives the call its id, in the first step of the wheel's Add and in a
-- later one of the heap's.
def taken (loop before after : Nat) : Call Q.Delay :=
  if after = before + 1 then .issued loop after else .adding loop

def step (g : EventLoopGroup Q) : Action Q → Option (EventLoopGroup Q)
  | .scheduleAfter delay => some (g.schedule o delay 0)
  | .scheduleEvery delay interval => some (g.schedule o delay interval)
  | .scheduleCancel id =>
    let loop := id.toNat % o.size
    let timer := id.toNat / o.size
    (Q.queue.step (g.loops loop) (Q.queue.cancel timer)).map (g.setLoop loop)
  | .add index =>
    match g.calls[index]? with
    | some (.schedule loop delay interval) =>
      (Q.queue.step (g.loops loop) (Q.add delay interval)).map fun w =>
        { g.setLoop loop w with
          calls := g.calls.set index
            (taken loop (Q.queue.counter (g.loops loop)) (Q.queue.counter w)) }
    | _ => none
  | .issue index action =>
    match g.calls[index]? with
    | some (.adding loop) =>
      (Q.queue.step (g.loops loop) action).bind fun w =>
        if Q.queue.counter w = Q.queue.counter (g.loops loop) + 1 then
          some { g.setLoop loop w with calls := g.calls.set index (.issued loop (Q.queue.counter w)) }
        else none
    | _ => none
  | .ret index =>
    match g.calls[index]? with
    | some (.issued loop timer) =>
      if timer ∈ Q.queue.adding (g.loops loop) then none
      else some { g with
        calls := g.calls.eraseIdx index
        scheduled := g.scheduled ++ [⟨loop, timer, timerId o timer loop⟩] }
    | _ => none
  | .loop loop action =>
    if loop < o.size then (Q.queue.step (g.loops loop) action).map (g.setLoop loop) else none

def system (Q : Timers) (o : Options) : Transition.System (EventLoopGroup Q) (Action Q) where
  start g := ∃ clocks next, g = create clocks next
  step := step o

-- Timer ids below (2^64 - size) / size.
def Bounded (g : EventLoopGroup Q) : Prop :=
  ∀ s ∈ g.scheduled, s.timer * o.size + o.size ≤ 2 ^ 64

structure Exact (g : EventLoopGroup Q) : Prop where
  distinct : (g.scheduled.map Scheduled.id).Nodup
  cancels : ∀ s ∈ g.scheduled, ∀ t, step o g (.scheduleCancel s.id) = some t → ∀ i timer,
    Q.queue.stored (t.loops i) = Q.queue.stored (g.loops i) ∧
      Q.queue.table (t.loops i) timer =
        (Q.queue.table (g.loops i) timer && !(i == s.loop && timer == s.timer))

def Call.loop {Delay : Type} : Call Delay → Nat
  | .schedule loop _ _ | .adding loop | .issued loop _ => loop

def Call.timer {Delay : Type} : Call Delay → List (Nat × Nat)
  | .issued loop timer => [(loop, timer)]
  | .schedule _ _ _ | .adding _ => []

def Scheduled.pair (s : Scheduled) : Nat × Nat := (s.loop, s.timer)

def issued (g : EventLoopGroup Q) : List (Nat × Nat) :=
  g.calls.flatMap Call.timer ++ g.scheduled.map Scheduled.pair

structure Numbered (g : EventLoopGroup Q) : Prop where
  nodup : g.issued.Nodup
  below : ∀ p ∈ g.issued, p.2 ≤ Q.queue.counter (g.loops p.1)
  loops : ∀ call ∈ g.calls, call.loop < o.size
  ids : ∀ s ∈ g.scheduled, s.loop < o.size ∧ s.id = timerId o s.timer s.loop

variable {o} {g t : EventLoopGroup Q}

theorem timer_id_to_nat {timer loop : Nat} (hl : loop < o.size)
    (hb : timer * o.size + o.size ≤ 2 ^ 64) :
    (timerId o timer loop).toNat = timer * o.size + loop := by
  rw [timerId, BitVec.toNat_ofNat]
  exact Nat.mod_eq_of_lt (by omega)

theorem timer_id_loop {timer loop : Nat} (hl : loop < o.size)
    (hb : timer * o.size + o.size ≤ 2 ^ 64) : (timerId o timer loop).toNat % o.size = loop := by
  rw [timer_id_to_nat hl hb, Nat.mul_add_mod_self_right, Nat.mod_eq_of_lt hl]

theorem timer_id_timer {timer loop : Nat} (hl : loop < o.size)
    (hb : timer * o.size + o.size ≤ 2 ^ 64) : (timerId o timer loop).toNat / o.size = timer := by
  rw [timer_id_to_nat hl hb, Nat.add_comm, Nat.add_mul_div_right _ _ o.size_pos,
    Nat.div_eq_of_lt hl, Nat.zero_add]

theorem numbered_exact (l : Q.queue.Counts) (n : Numbered o g) (b : Bounded o g) : Exact o g := by
  have hdecode (s : Scheduled) (hs : s ∈ g.scheduled) :
      s.id.toNat % o.size = s.loop ∧ s.id.toNat / o.size = s.timer := by
    obtain ⟨hl, hid⟩ := n.ids s hs
    rw [hid]
    exact ⟨timer_id_loop hl (b s hs), timer_id_timer hl (b s hs)⟩
  refine ⟨?_, fun s hs t ht i timer => ?_⟩
  · have hn := n.nodup.sublist (List.sublist_append_right _ _)
    rw [List.Nodup, List.pairwise_map] at hn ⊢
    refine hn.imp_of_mem fun {x y} hx hy hne he => hne ?_
    obtain ⟨h1, h2⟩ := hdecode x hx
    obtain ⟨h3, h4⟩ := hdecode y hy
    rw [Scheduled.pair, Scheduled.pair, ← h1, ← h2, ← h3, ← h4, he]
  · obtain ⟨w, hw, rfl⟩ := Option.map_eq_some_iff.mp ht
    obtain ⟨h1, h2⟩ := hdecode s hs
    rw [h1, h2] at hw
    rw [h1]
    obtain ⟨-, hstored, htable⟩ := l.cancel hw
    by_cases hi : i = s.loop
    · subst hi
      simp [setLoop, hstored, htable, bne]
    · simp [setLoop, hi]

theorem counter_set {loop : Nat} {w : Q.queue.World} {a : Q.queue.Action} (l : Q.queue.Counts)
    (h : Q.queue.step (g.loops loop) a = some w) (i : Nat) :
    Q.queue.counter (g.loops i) ≤ Q.queue.counter ((g.setLoop loop w).loops i) := by
  by_cases hi : i = loop
  · subst hi
    simp only [setLoop, if_true]
    rcases l.counter h with he | he <;> omega
  · simp [setLoop, hi]

theorem numbered_same (n : Numbered o g) (hp : t.issued.Perm g.issued)
    (hc : ∀ i, Q.queue.counter (g.loops i) ≤ Q.queue.counter (t.loops i))
    (hl : ∀ call ∈ t.calls, call.loop < o.size)
    (hi : ∀ s ∈ t.scheduled, s.loop < o.size ∧ s.id = timerId o s.timer s.loop) : Numbered o t :=
  ⟨hp.nodup_iff.mpr n.nodup, fun p hm => Nat.le_trans (n.below p (hp.subset hm)) (hc p.1), hl, hi⟩

theorem numbered_new {loop : Nat} (n : Numbered o g)
    (hp : t.issued.Perm ((loop, Q.queue.counter (g.loops loop) + 1) :: g.issued))
    (hc : ∀ i, Q.queue.counter (g.loops i) ≤ Q.queue.counter (t.loops i))
    (hn : Q.queue.counter (t.loops loop) = Q.queue.counter (g.loops loop) + 1)
    (hl : ∀ call ∈ t.calls, call.loop < o.size) (hs : t.scheduled = g.scheduled) :
    Numbered o t := by
  have hnot : (loop, Q.queue.counter (g.loops loop) + 1) ∉ g.issued := fun hm =>
    Nat.not_succ_le_self _ (n.below _ hm)
  refine ⟨hp.nodup_iff.mpr (List.nodup_cons.mpr ⟨hnot, n.nodup⟩), fun p hm => ?_, hl, hs ▸ n.ids⟩
  rcases List.mem_cons.mp (hp.subset hm) with rfl | hm
  · exact Nat.le_of_eq hn.symm
  · exact Nat.le_trans (n.below p hm) (hc p.1)

theorem numbered_set {loop : Nat} {w : Q.queue.World} {a : Q.queue.Action} (l : Q.queue.Counts)
    (n : Numbered o g) (h : Q.queue.step (g.loops loop) a = some w) :
    Numbered o (g.setLoop loop w) :=
  numbered_same n (.refl _) (counter_set l h) n.loops n.ids

theorem numbered_schedule (n : Numbered o g) (delay : Q.Delay) (interval : Int) :
    Numbered o (g.schedule o delay interval) := by
  refine numbered_same n ?_ (fun _ => Nat.le_refl _) (fun call hm => ?_) n.ids
  · simp [issued, schedule, Call.timer]
  · rcases List.mem_append.mp hm with hm | hm
    · exact n.loops call hm
    · cases List.mem_singleton.mp hm
      exact Nat.mod_lt _ o.size_pos

theorem numbered_taken {index : Nat} {c d : Call Q.Delay} {w : Q.queue.World}
    {a : Q.queue.Action} (l : Q.queue.Counts) (n : Numbered o g) (hi : g.calls[index]? = some c)
    (ht : c.timer = []) (h : Q.queue.step (g.loops c.loop) a = some w) (hd : d.loop = c.loop)
    (hid : d.timer = [] ∨ Q.queue.counter w = Q.queue.counter (g.loops c.loop) + 1 ∧
      d.timer = [(c.loop, Q.queue.counter w)]) :
    Numbered o { g.setLoop c.loop w with calls := g.calls.set index d } := by
  have hperm := Pool.flat_map_set (b := d) Call.timer hi
  rw [ht, List.append_nil] at hperm
  have hloops (call : Call Q.Delay) (hm : call ∈ g.calls.set index d) : call.loop < o.size := by
    rcases Pool.mem_set hi hm with rfl | hm
    · exact hd ▸ n.loops c (List.mem_of_getElem? hi)
    · exact n.loops call hm
  have hcalls := hperm.append_right (g.scheduled.map Scheduled.pair)
  rcases hid with he | ⟨hc, he⟩
  · rw [he] at hcalls
    exact numbered_same n hcalls (counter_set l h) hloops n.ids
  · rw [he, hc] at hcalls
    refine numbered_new n hcalls (counter_set l h) ?_ hloops rfl
    simp [setLoop, hc]

theorem numbered_ret {index loop timer : Nat} (n : Numbered o g)
    (hi : g.calls[index]? = some (.issued loop timer)) :
    Numbered o { g with
      calls := g.calls.eraseIdx index
      scheduled := g.scheduled ++ [⟨loop, timer, timerId o timer loop⟩] } := by
  have hperm := Pool.flat_map_erase_perm Call.timer hi
  refine numbered_same n ?_ (fun _ => Nat.le_refl _)
    (fun call hm => n.loops call (List.mem_of_mem_eraseIdx hm)) (fun s hm => ?_)
  · simp only [issued, List.map_append, List.map_cons, List.map_nil]
    have h1 := hperm.append_right (g.scheduled.map Scheduled.pair)
    refine List.Perm.trans ?_ h1
    rw [← List.append_assoc]
    exact List.perm_append_comm.trans (.of_eq (List.append_assoc _ _ _).symm)
  · rcases List.mem_append.mp hm with hm | hm
    · exact n.ids s hm
    · cases List.mem_singleton.mp hm
      exact ⟨n.loops _ (List.mem_of_getElem? hi), rfl⟩

theorem taken_loop (loop before after : Nat) :
    (taken loop before after : Call Q.Delay).loop = loop := by
  unfold taken
  split <;> rfl

theorem taken_timer (loop before after : Nat) :
    (taken loop before after : Call Q.Delay).timer = [] ∨
      after = before + 1 ∧ (taken loop before after : Call Q.Delay).timer = [(loop, after)] := by
  unfold taken
  split
  · rename_i h
    exact .inr ⟨h, rfl⟩
  · exact .inl rfl

theorem numbered_step {a : Action Q} (l : Q.queue.Counts) (n : Numbered o g)
    (h : step o g a = some t) : Numbered o t := by
  cases a with
  | scheduleAfter delay | scheduleEvery delay interval =>
    cases h
    exact numbered_schedule n delay _
  | scheduleCancel id =>
    obtain ⟨w, hw, rfl⟩ := Option.map_eq_some_iff.mp h
    exact numbered_set l n hw
  | add index =>
    simp only [step] at h
    split at h
    · rename_i loop delay interval hi
      obtain ⟨w, hw, rfl⟩ := Option.map_eq_some_iff.mp h
      exact numbered_taken l n hi rfl hw (taken_loop _ _ _) (taken_timer _ _ _)
    · cases h
  | issue index action =>
    simp only [step] at h
    split at h
    · rename_i loop hi
      obtain ⟨w, hw, h⟩ := Option.bind_eq_some_iff.mp h
      split at h
      · rename_i hc
        cases h
        exact numbered_taken l n hi rfl hw rfl (.inr ⟨hc, rfl⟩)
      · cases h
    · cases h
  | ret index =>
    simp only [step] at h
    split at h
    · rename_i loop timer hi
      split at h
      · cases h
      · cases h
        exact numbered_ret n hi
    · cases h
  | loop loop action =>
    simp only [step] at h
    split at h
    · obtain ⟨w, hw, rfl⟩ := Option.map_eq_some_iff.mp h
      exact numbered_set l n hw
    · cases h

theorem numbered_create (clocks : Nat → Int) (next : BitVec 64) :
    Numbered o (create clocks next : EventLoopGroup Q) :=
  ⟨List.nodup_nil, (fun _ h => by cases h), (fun _ h => by cases h), fun _ h => by cases h⟩

theorem timers_queue (p : TimerHashWheel.Options) (type : TimerQueueType) :
    (makeTimers p type).queue = makeTimerQueue p type := by
  cases type <;> rfl

theorem group_cancels_exactly (p : TimerHashWheel.Options) (type : TimerQueueType) (o : Options)
    (clocks : Nat → Int) (next : BitVec 64) (as : List (Action (makeTimers p type))) :
    (system (makeTimers p type) o).Always (fun g => Bounded o g → Exact o g) (create clocks next)
      as := by
  have l := timers_queue p type ▸ TimerQueue.counts_make p type
  exact Transition.System.always_of_along (M := system (makeTimers p type) o) (I := Numbered o)
    (G := fun _ _ => True) (fun _ _ _ n _ h => numbered_step l n h)
    (fun _ n b => numbered_exact l n b) (numbered_create clocks next) Transition.System.along_true

def heapTimers : Timers := ⟨TimerHeapQueue.timerQueue, Int, .add⟩

-- Two calls, of which the second finds next_ back at 0.
def wrapped : List (Action heapTimers) :=
  [.scheduleAfter (5 : Int), .scheduleEvery (5 : Int) 7, .add 0,
    .issue 0 (TimerHeapQueue.Concurrent.Action.advance 0),
    .loop 0 (TimerHeapQueue.Concurrent.Action.advance 0), .ret 0, .add 0,
    .issue 0 (TimerHeapQueue.Concurrent.Action.advance 0),
    .loop 0 (TimerHeapQueue.Concurrent.Action.advance 0), .ret 0]

theorem cancels_exactly_wrapped : ∃ g : EventLoopGroup heapTimers,
    (system heapTimers ⟨3, by decide⟩).run (create (fun _ => 0) (BitVec.ofNat 64 (2 ^ 64 - 1)))
      wrapped = some g ∧
    g.scheduled = [⟨0, 1, 3⟩, ⟨0, 2, 6⟩] ∧ Exact ⟨3, by decide⟩ g := by
  obtain ⟨g, hg, hs⟩ : ∃ g : EventLoopGroup heapTimers,
      (system heapTimers ⟨3, by decide⟩).run (create (fun _ => 0) (BitVec.ofNat 64 (2 ^ 64 - 1)))
        wrapped = some g ∧ g.scheduled = [⟨0, 1, 3⟩, ⟨0, 2, 6⟩] := ⟨_, rfl, rfl⟩
  have hb : Bounded ⟨3, by decide⟩ g := by
    rw [Bounded, hs]
    decide
  exact ⟨g, hg, hs, Transition.System.always_last (group_cancels_exactly
    ⟨100, 4, by decide, by decide⟩ .kHeap ⟨3, by decide⟩ (fun _ => 0)
    (BitVec.ofNat 64 (2 ^ 64 - 1)) wrapped) hg hb⟩

end EventLoopGroup
end Pedronet
