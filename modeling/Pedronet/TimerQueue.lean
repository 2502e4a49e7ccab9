import Pedronet.TimerHeapQueue.Concurrent
import Pedronet.TimerHashWheel.Waiting

namespace Pedronet

-- `stored` lists the ids of the entries that wait, one occurrence for each entry; `taken` the ids
-- Process has taken out and neither put back nor done with; `claim` the one it goes on to invoke.
structure TimerQueue where
  World : Type
  Action : Type
  init : Int → World
  step : World → Action → Option World
  cancel : Nat → Action
  table : World → Nat → Bool
  counter : World → Nat
  entering : World → List Nat
  adding : World → List Nat
  stored : World → List Nat
  taken : World → List Nat
  claim : World → List Nat
  invoked : World → List Nat
  userCode : World → Bool

inductive TimerQueueType where
  | kHashWheel
  | kHeap
deriving DecidableEq, Repr

def TimerHeapQueue.Concurrent.Pc.userCode : TimerHeapQueue.Concurrent.Pc → Bool
  | .idle | .callback _ _ => true
  | .entered _ | .loop _ | .claimed _ _ => false

def TimerHashWheel.Pc.userCode : TimerHashWheel.Pc → Bool
  | .idle | .callback _ _ _ => true
  | .scan _ _ | .entries _ _ _ | .claimed _ _ _ _ _ | .invoke _ _ _ _ _ => false

def TimerHeapQueue.timerQueue : TimerQueue where
  World := Concurrent.World
  Action := Concurrent.Action
  init := Concurrent.World.init
  step := Concurrent.step
  cancel := .cancel
  table w id := (w.heap.table id).isSome
  counter w := w.heap.counter
  entering w := w.adding
  adding w := w.adding
  stored w := w.heap.queue.map Timeout.timer
  taken w := w.pc.taken
  claim w := w.pc.claim
  invoked w := w.invoked
  userCode w := w.pc.userCode

def TimerHashWheel.timerQueue (o : Options) : TimerQueue where
  World := World
  Action := Action
  init := World.init
  step := TimerHashWheel.step o
  cancel := .cancel
  table w id := (w.wheel.table id).isSome
  counter w := w.wheel.counter
  entering w := w.entering
  adding w := w.adds.flatMap AddPc.waiting
  stored := TimerHashWheel.stored o
  taken w := w.pc.waiting
  claim w := w.pc.claim
  invoked w := w.fired.map Fired.id
  userCode w := w.pc.userCode

def makeTimerQueue (o : TimerHashWheel.Options) : TimerQueueType → TimerQueue
  | .kHashWheel => TimerHashWheel.timerQueue o
  | .kHeap => TimerHeapQueue.timerQueue

namespace TimerQueue
variable {Q : TimerQueue}

def system (Q : TimerQueue) : Transition.System Q.World Q.Action where
  start w := ∃ clock, w = Q.init clock
  step := Q.step

def WaitsOnce (Q : TimerQueue) (w : Q.World) : Prop :=
  ∀ id, Q.table w id = true → id ∉ Q.adding w →
    (Q.stored w).count id = if id ∈ Q.taken w then 0 else 1

def Issued (Q : TimerQueue) (w : Q.World) (id : Nat) : Prop :=
  id ≤ Q.counter w ∧ id ∉ Q.entering w

def begun (Q : TimerQueue) (id : Nat) (w : Q.World) : Nat :=
  (Q.invoked w).count id + (Q.claim w).count id

structure Lawful (Q : TimerQueue) (Inv : Q.World → Prop) (Cancelled : Nat → Q.World → Prop) :
    Prop where
  init (clock : Int) : Inv (Q.init clock)
  step {w t : Q.World} {a : Q.Action} : Inv w → Q.step w a = some t → Inv t
  waits {w : Q.World} : Inv w → Q.WaitsOnce w
  cancel {w t : Q.World} {id : Nat} : Inv w → Q.Issued w id → Q.step w (Q.cancel id) = some t →
    Cancelled id t ∧ Q.begun id t = Q.begun id w
  later {w t : Q.World} {a : Q.Action} {id : Nat} : Inv w → Cancelled id w →
    Q.step w a = some t → Cancelled id t ∧ Q.begun id t ≤ Q.begun id w
  single (w : Q.World) : (Q.claim w).length ≤ 1
  user {w : Q.World} : Q.userCode w = true → Q.claim w = []

theorem heap_lawful : TimerHeapQueue.timerQueue.Lawful TimerHeapQueue.Concurrent.Kept
    TimerHeapQueue.Concurrent.Cancelled where
  init := TimerHeapQueue.Concurrent.kept_init
  step k h := TimerHeapQueue.Concurrent.kept_step k h
  waits {w} k id ht ha := by
    have hw := k.waits id (Option.isSome_iff_ne_none.mp ht)
    rwa [TimerHeapQueue.Concurrent.waiting_eq] at hw
  cancel {w t id} k hi h := by
    obtain rfl := TimerHeapQueue.Concurrent.step_cancel h
    exact ⟨⟨by simp [TimerHeapQueue.cancel], hi.1, hi.2⟩, rfl⟩
  later k c h := TimerHeapQueue.Concurrent.cancelled_step k c h
  single w := by
    simp only [TimerHeapQueue.timerQueue]
    cases w.pc <;> simp [TimerHeapQueue.Concurrent.Pc.claim]
  user {w} h := by
    simp only [TimerHeapQueue.timerQueue] at h ⊢
    cases hpc : w.pc <;> rw [hpc] at h <;> first | rfl | cases h

theorem wheel_lawful (o : TimerHashWheel.Options) : (TimerHashWheel.timerQueue o).Lawful
    (fun w => TimerHashWheel.Placed o w ∧ TimerHashWheel.Located w)
    TimerHashWheel.Cancelled where
  init clock := ⟨TimerHashWheel.placed_init clock, TimerHashWheel.located_init clock⟩
  step k h := ⟨TimerHashWheel.placed_step k.1 h, TimerHashWheel.located_step k.1 k.2 h⟩
  waits k _ ht ha := TimerHashWheel.stored_count k.1 k.2 (Option.isSome_iff_ne_none.mp ht) ha
  cancel {w t id} k hi h := by
    cases h
    exact ⟨⟨by simp [TimerHashWheel.cancel], hi.1, hi.2⟩, rfl⟩
  later k c h := TimerHashWheel.cancelled_step k.1 c h
  single w := by
    simp only [TimerHashWheel.timerQueue]
    cases w.pc <;> simp [TimerHashWheel.Pc.claim]
  user {w} h := by
    simp only [TimerHashWheel.timerQueue] at h ⊢
    cases hpc : w.pc <;> rw [hpc] at h <;> first | rfl | cases h

theorem lawful_make (o : TimerHashWheel.Options) (type : TimerQueueType) :
    ∃ Inv Cancelled, (makeTimerQueue o type).Lawful Inv Cancelled := by
  cases type with
  | kHashWheel => exact ⟨_, _, wheel_lawful o⟩
  | kHeap => exact ⟨_, _, heap_lawful⟩

structure Counts (Q : TimerQueue) : Prop where
  counter {w t : Q.World} {a : Q.Action} : Q.step w a = some t →
    Q.counter t = Q.counter w ∨ Q.counter t = Q.counter w + 1
  cancel {w t : Q.World} {id : Nat} : Q.step w (Q.cancel id) = some t →
    Q.counter t = Q.counter w ∧ Q.stored t = Q.stored w ∧
      ∀ i, Q.table t i = (Q.table w i && i != id)

theorem heap_counts : TimerHeapQueue.timerQueue.Counts where
  counter h := TimerHeapQueue.Concurrent.counter_step h
  cancel {w t id} h := by
    obtain rfl := TimerHeapQueue.Concurrent.step_cancel h
    refine ⟨rfl, rfl, fun i => ?_⟩
    by_cases hi : i = id <;> simp [TimerHeapQueue.timerQueue, TimerHeapQueue.cancel, hi]

theorem wheel_counts (o : TimerHashWheel.Options) : (TimerHashWheel.timerQueue o).Counts where
  counter h := TimerHashWheel.counter_step h
  cancel {w t id} h := by
    cases h
    refine ⟨rfl, rfl, fun i => ?_⟩
    by_cases hi : i = id <;> simp [TimerHashWheel.timerQueue, TimerHashWheel.cancel, hi]

theorem counts_make (o : TimerHashWheel.Options) (type : TimerQueueType) :
    (makeTimerQueue o type).Counts := by
  cases type with
  | kHashWheel => exact wheel_counts o
  | kHeap => exact heap_counts

theorem lawful_run {Inv : Q.World → Prop} {Cancelled : Nat → Q.World → Prop}
    (l : Q.Lawful Inv Cancelled) {w : Q.World} {clock : Int} {as : List Q.Action}
    (h : Q.system.run (Q.init clock) as = some w) : Inv w :=
  Transition.System.run_invariant (M := Q.system) (G := fun _ _ => True)
    (fun _ _ _ k _ h => l.step k h) (l.init clock) Transition.System.along_true h

theorem cancelled_run {Inv : Q.World → Prop} {Cancelled : Nat → Q.World → Prop}
    (l : Q.Lawful Inv Cancelled) {w t : Q.World} {id : Nat} {as : List Q.Action} (k : Inv w)
    (c : Cancelled id w) (h : Q.system.run w as = some t) : Q.begun id t ≤ Q.begun id w := by
  have hI := Transition.System.run_invariant (M := Q.system) (G := fun _ _ => True)
    (I := fun u => Inv u ∧ Cancelled id u ∧ Q.begun id u ≤ Q.begun id w)
    (fun u a v ⟨k, c, hb⟩ _ h =>
      have ⟨c', hb'⟩ := l.later k c h
      ⟨l.step k h, c', Nat.le_trans hb' hb⟩)
    ⟨k, c, Nat.le_refl _⟩ Transition.System.along_true h
  exact hI.2.2

theorem timer_waits_once (o : TimerHashWheel.Options) (type : TimerQueueType) (clock : Int)
    (as : List (makeTimerQueue o type).Action) :
    (makeTimerQueue o type).system.Always (makeTimerQueue o type).WaitsOnce
      ((makeTimerQueue o type).init clock) as := by
  obtain ⟨Inv, Cancelled, l⟩ := lawful_make o type
  exact Transition.System.always_of_run fun bs t _ ht => l.waits (lawful_run l ht)

-- Of the id, only what Process had claimed in `w` has been invoked since; user code on the loop
-- thread runs when nothing is claimed.
def Stopped (Q : TimerQueue) (id : Nat) (w u : Q.World) : Prop :=
  (Q.invoked u).count id ≤ (Q.invoked w).count id + (Q.claim w).count id ∧
    (Q.claim w).length ≤ 1 ∧
    (Q.userCode w = true → (Q.invoked u).count id ≤ (Q.invoked w).count id)

theorem cancel_stops (o : TimerHashWheel.Options) (type : TimerQueueType) (clock : Int) (id : Nat)
    (as bs : List (makeTimerQueue o type).Action) {w t u : (makeTimerQueue o type).World}
    (hw : (makeTimerQueue o type).system.run ((makeTimerQueue o type).init clock) as = some w)
    (hi : (makeTimerQueue o type).Issued w id)
    (ht : (makeTimerQueue o type).step w ((makeTimerQueue o type).cancel id) = some t)
    (hu : (makeTimerQueue o type).system.run t bs = some u) :
    (makeTimerQueue o type).Stopped id w u := by
  obtain ⟨Inv, Cancelled, l⟩ := lawful_make o type
  have k := lawful_run l hw
  obtain ⟨c, hb⟩ := l.cancel k hi ht
  have hle := cancelled_run l (l.step k ht) c hu
  rw [hb] at hle
  have hle' := Nat.le_trans (Nat.le_add_right _ _) hle
  refine ⟨hle', l.single w, fun huser => ?_⟩
  simpa [begun, l.user huser] using hle'

def inOwnCallback : List TimerHashWheel.Action :=
  [.add 0 50, .advance 0, .advance 0, .advance 0, .process, .pop, .claim, .rearm, .invoke]

def restOfProcess : List TimerHashWheel.Action :=
  [.resume, .claim, .pop, .claim, .claim, .pop, .finish]

theorem cancel_stops_in_own_callback :
    ∃ w u : TimerHashWheel.World,
      (TimerHashWheel.timerQueue ⟨100, 4, by decide, by decide⟩).system.run (.init 300)
        inOwnCallback = some w ∧
      (TimerHashWheel.timerQueue ⟨100, 4, by decide, by decide⟩).system.run (.init 300)
        (inOwnCallback ++ .cancel 1 :: restOfProcess) = some u ∧
      (TimerHashWheel.timerQueue ⟨100, 4, by decide, by decide⟩).Stopped 1 w u := by
  refine ⟨_, _, rfl, rfl, ?_⟩
  exact cancel_stops ⟨100, 4, by decide, by decide⟩ .kHashWheel 300 1 inOwnCallback restOfProcess
    rfl ⟨by decide, by decide⟩ rfl rfl

end TimerQueue
end Pedronet
