import Pedronet.Transition
import Pedronet.TimerChannel

namespace Pedronet

namespace TimerHeapQueue

structure Entry where
  id : Nat
  interval : Int
deriving DecidableEq, Repr

structure Timeout where
  expire : Int
  timer : Nat
deriving DecidableEq, Repr

end TimerHeapQueue

open TimerHeapQueue

structure TimerHeapQueue where
  counter : Nat
  queue : List Timeout
  table : Nat → Option Entry

namespace TimerHeapQueue

def create : TimerHeapQueue := ⟨0, [], fun _ => none⟩

def IsTop (queue : List Timeout) (top : Timeout) : Prop :=
  top ∈ queue ∧ ∀ item ∈ queue, top.expire ≤ item.expire

instance (queue : List Timeout) (top : Timeout) : Decidable (IsTop queue top) :=
  inferInstanceAs (Decidable (_ ∧ _))

instance {queue : List Timeout} {p : Timeout → Prop} [DecidablePred p] :
    Decidable (∀ top, IsTop queue top → p top) :=
  decidable_of_iff (∀ top ∈ queue, IsTop queue top → p top)
    ⟨fun h top ht => h top ht.1 ht, fun h top _ ht => h top ht⟩

def topExpire (queue : List Timeout) : Option Int := (queue.map Timeout.expire).min?

def emplace (q : TimerHeapQueue) (expire : Int) (timer : Entry) : TimerHeapQueue :=
  { q with queue := ⟨expire, timer.id⟩ :: q.queue }

def add (q : TimerHeapQueue) (now delay interval : Int) : TimerHeapQueue :=
  let id := q.counter + 1
  { (q.emplace (now + delay) ⟨id, interval⟩) with
    counter := id
    table := fun i => if i = id then some ⟨id, interval⟩ else q.table i }

def cancel (q : TimerHeapQueue) (id : Nat) : TimerHeapQueue :=
  { q with table := fun i => if i = id then none else q.table i }

def wakeUpTop (q : TimerHeapQueue) (c : TimerChannel) (now : Int) : TimerChannel :=
  match topExpire q.queue with
  | some expire => c.wakeUpAt now expire
  | none => c

def finishCallback (q : TimerHeapQueue) (now : Int) (timer : Entry) : TimerHeapQueue :=
  if timer.interval > 0 then q.emplace (now + timer.interval) timer else q.cancel timer.id

theorem top_expire {queue : List Timeout} {top : Timeout} (h : IsTop queue top) :
    topExpire queue = some top.expire := by
  simp only [topExpire, List.min?_eq_some_iff, List.mem_map, forall_exists_index, and_imp]
  exact ⟨⟨top, h.1, rfl⟩, fun _ item hi he => he ▸ h.2 item hi⟩

theorem wake_up_top {q : TimerHeapQueue} {c : TimerChannel} {now : Int} {top : Timeout}
    (h : IsTop q.queue top) : q.wakeUpTop c now = c.wakeUpAt now top.expire := by
  simp only [wakeUpTop, top_expire h]

theorem wake_up_top_remembers {q : TimerHeapQueue} {c : TimerChannel} {now : Int}
    (h : c.Remembers now) : (q.wakeUpTop c now).Remembers now := by
  unfold wakeUpTop
  split
  · exact TimerChannel.remembers_wake_up_after _ h
  · exact h

inductive Pc where
  | idle
  | loop (now : Int)
  | callback (now : Int) (timer : Entry)
deriving DecidableEq, Repr

def Pc.locked : Pc → Bool
  | .loop _ => true
  | _ => false

structure World where
  clock : Int
  completed : Int
  channel : TimerChannel
  heap : TimerHeapQueue
  pc : Pc

inductive Action where
  | elapse (usecs : Nat)
  | add (delay interval : Int)
  | cancel (id : Nat)
  | handleEvents
  | pop (index : Nat)
  | resume
  | finish
deriving DecidableEq, Repr

def World.init (clock : Int) : World := ⟨clock, clock, .create, create, .idle⟩

def World.add (w : World) (delay interval : Int) : World :=
  { w with
    heap := w.heap.add w.clock delay interval
    channel := w.channel.wakeUpAt w.clock (w.clock + delay)
    completed := w.clock }

-- Signed overflow has no meaning in the source: the sums that compute an expiry have to fit.
def step (w : World) : Action → Option World
  | .elapse usecs => some { w with clock := w.clock + usecs }
  | .add delay interval =>
    if w.pc.locked = false ∧ 0 ≤ delay ∧ 0 ≤ interval ∧ w.clock + delay ≤ int64Max then
      some (w.add delay interval)
    else none
  | .cancel id =>
    if w.pc.locked = false then some { w with heap := w.heap.cancel id, completed := w.clock }
    else none
  | .handleEvents =>
    match w.pc with
    | .idle => some { w with channel := w.channel.handleEvents w.clock, pc := .loop w.clock }
    | _ => none
  | .pop index =>
    match w.pc, w.heap.queue[index]? with
    | .loop now, some item =>
      if item.expire ≤ now ∧ ∀ other ∈ w.heap.queue, item.expire ≤ other.expire then
        let popped := { w with heap := { w.heap with queue := w.heap.queue.eraseIdx index } }
        match w.heap.table item.timer with
        | some timer => some { popped with pc := .callback now timer }
        | none => some popped
      else none
    | _, _ => none
  | .resume =>
    match w.pc with
    | .callback now timer =>
      if w.clock + timer.interval ≤ int64Max then
        some { w with heap := w.heap.finishCallback w.clock timer, pc := .loop now }
      else none
    | _ => none
  | .finish =>
    match w.pc with
    | .loop now =>
      if ∀ item ∈ w.heap.queue, now < item.expire then
        some { w with channel := w.heap.wakeUpTop w.channel w.clock, pc := .idle, completed := w.clock }
      else none
    | _ => none

def system : Transition.System World Action where
  start w := ∃ clock, kMinWakeUpDuration ≤ clock ∧ w = World.init clock
  step := step

theorem step_add {w t : World} {delay interval : Int} (h : step w (.add delay interval) = some t) :
    t = w.add delay interval ∧ w.pc.locked = false ∧ 0 ≤ delay ∧ 0 ≤ interval ∧
      w.clock + delay ≤ int64Max := by
  simp only [step] at h
  split at h
  · rename_i hc
    exact ⟨by simpa using h.symm, hc⟩
  · cases h

theorem step_cancel {w t : World} {id : Nat} (h : step w (.cancel id) = some t) :
    t = { w with heap := w.heap.cancel id, completed := w.clock } ∧ w.pc.locked = false := by
  simp only [step] at h
  split at h
  · rename_i hc
    exact ⟨by simpa using h.symm, hc⟩
  · cases h

theorem step_handle_events {w t : World} (h : step w .handleEvents = some t) :
    t = { w with channel := w.channel.handleEvents w.clock, pc := .loop w.clock } ∧ w.pc = .idle := by
  simp only [step] at h
  split at h
  · rename_i hc
    exact ⟨by simpa using h.symm, hc⟩
  · cases h

theorem step_pop {w t : World} {index : Nat} (h : step w (.pop index) = some t) :
    ∃ now item, w.pc = .loop now ∧ w.heap.queue[index]? = some item ∧ item.expire ≤ now ∧
      IsTop w.heap.queue item ∧
      t = { w with
        heap := { w.heap with queue := w.heap.queue.eraseIdx index }
        pc := match w.heap.table item.timer with
          | some timer => .callback now timer
          | none => .loop now } := by
  simp only [step] at h
  split at h
  · rename_i now item hpc hi
    split at h
    · rename_i hdue
      refine ⟨now, item, hpc, hi, hdue.1, ⟨List.mem_of_getElem? hi, hdue.2⟩, ?_⟩
      split at h <;> rename_i ht <;> simp_all
    · cases h
  · cases h

theorem step_resume {w t : World} (h : step w .resume = some t) :
    ∃ now timer, w.pc = .callback now timer ∧ w.clock + timer.interval ≤ int64Max ∧
      t = { w with heap := w.heap.finishCallback w.clock timer, pc := .loop now } := by
  simp only [step] at h
  split at h
  · rename_i now timer hpc
    split at h
    · rename_i hfit
      exact ⟨now, timer, hpc, hfit, by simpa using h.symm⟩
    · cases h
  · cases h

theorem step_finish {w t : World} (h : step w .finish = some t) :
    ∃ now, w.pc = .loop now ∧ (∀ item ∈ w.heap.queue, now < item.expire) ∧
      t = { w with
        channel := w.heap.wakeUpTop w.channel w.clock
        pc := .idle
        completed := w.clock } := by
  simp only [step] at h
  split at h
  · rename_i now hpc
    split at h
    · rename_i hlate
      exact ⟨now, hpc, hlate, by simpa using h.symm⟩
    · cases h
  · cases h

theorem clock_step {w t : World} {a : Action} (h : step w a = some t) : w.clock ≤ t.clock := by
  cases a with
  | elapse usecs =>
    cases h
    simp only
    omega
  | add delay interval =>
    obtain ⟨rfl, -⟩ := step_add h
    exact Int.le_refl _
  | cancel id =>
    obtain ⟨rfl, -⟩ := step_cancel h
    exact Int.le_refl _
  | handleEvents =>
    obtain ⟨rfl, -⟩ := step_handle_events h
    exact Int.le_refl _
  | pop index =>
    obtain ⟨now, item, -, -, -, -, rfl⟩ := step_pop h
    exact Int.le_refl _
  | resume =>
    obtain ⟨now, timer, -, -, rfl⟩ := step_resume h
    exact Int.le_refl _
  | finish =>
    obtain ⟨now, -, -, rfl⟩ := step_finish h
    exact Int.le_refl _

end TimerHeapQueue
end Pedronet
