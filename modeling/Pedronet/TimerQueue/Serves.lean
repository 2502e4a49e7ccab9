import Pedronet.TimerQueue
import Pedronet.TimerHeapQueue.Serves
import Pedronet.TimerHashWheel.Serves

namespace Pedronet
namespace TimerQueue

def policy (o : TimerHashWheel.Options) : TimerQueueType → TimerService.Policy
  | .kHashWheel => TimerHashWheel.policy o
  | .kHeap => TimerHeapQueue.Concurrent.policy

-- A timer enters the service when its Add puts it into the table, and is taken when Process looks
-- it up there.
def shows (o : TimerHashWheel.Options) : (type : TimerQueueType) →
    (makeTimerQueue o type).World → (makeTimerQueue o type).Action → List TimerService.Action
  | .kHashWheel => TimerHashWheel.shows
  | .kHeap => TimerHeapQueue.Concurrent.shows

-- The heap compares its sums as int64; the wheel counts them in unsigned ticks.
def Fits (o : TimerHashWheel.Options) : (type : TimerQueueType) →
    (makeTimerQueue o type).World → (makeTimerQueue o type).Action → Prop
  | .kHashWheel => fun _ _ => True
  | .kHeap => TimerHeapQueue.Concurrent.Fits

variable {Q : TimerQueue}

structure Serving (Q : TimerQueue) (w : Q.World) (s : TimerService) : Prop where
  taken : s.taken.map TimerService.Taken.id = Q.claim w ++ Q.invoked w
  table : ∀ id, s.timers id ≠ none → Q.table w id = true
  live : ∀ id, Q.table w id = true → s.timers id ≠ none ∨ id ∈ Q.taken w

structure Refines (Q : TimerQueue) (p : TimerService.Policy)
    (shows : Q.World → Q.Action → List TimerService.Action) (G : Q.World → Q.Action → Prop)
    (Follows : Q.World → TimerService → Prop) : Prop where
  init (clock : Int) : Follows (Q.init clock) (.create clock)
  step {w t : Q.World} {s : TimerService} {a : Q.Action} : Follows w s → G w a →
    Q.step w a = some t → ∃ u, (TimerService.system p).run s (shows w a) = some u ∧ Follows t u
  serving {w : Q.World} {s : TimerService} : Follows w s → Serving Q w s

theorem heap_refines : Refines TimerHeapQueue.timerQueue TimerHeapQueue.Concurrent.policy
    TimerHeapQueue.Concurrent.shows TimerHeapQueue.Concurrent.Fits
    (fun w s => TimerHeapQueue.Concurrent.Kept w ∧ TimerHeapQueue.Concurrent.Serves w s) where
  init clock := ⟨TimerHeapQueue.Concurrent.kept_init clock,
    TimerHeapQueue.Concurrent.serves_init clock⟩
  step v hf h := by
    obtain ⟨u, hu, v'⟩ := TimerHeapQueue.Concurrent.serves_step v.1 v.2 hf h
    exact ⟨u, hu, TimerHeapQueue.Concurrent.kept_step v.1 h, v'⟩
  serving v := ⟨v.2.taken,
    fun _ h => Option.isSome_iff_ne_none.mpr (TimerHeapQueue.Concurrent.serves_table v.2 h),
    fun _ h => TimerHeapQueue.Concurrent.serves_live v.2 (Option.isSome_iff_ne_none.mp h)⟩

theorem wheel_refines (o : TimerHashWheel.Options) : Refines (TimerHashWheel.timerQueue o)
    (TimerHashWheel.policy o) TimerHashWheel.shows (fun _ _ => True)
    (fun w s => TimerHashWheel.Placed o w ∧ TimerHashWheel.Serves w s) where
  init clock := ⟨TimerHashWheel.placed_init clock, TimerHashWheel.serves_init clock⟩
  step v _ h := by
    obtain ⟨u, hu, v'⟩ := TimerHashWheel.serves_step v.1 v.2 h
    exact ⟨u, hu, TimerHashWheel.placed_step v.1 h, v'⟩
  serving v := ⟨TimerHashWheel.serves_taken v.2,
    fun _ h => Option.isSome_iff_ne_none.mpr (TimerHashWheel.serves_table v.2 h),
    fun _ h => TimerHashWheel.serves_live v.2 (Option.isSome_iff_ne_none.mp h)⟩

theorem refines_make (o : TimerHashWheel.Options) (type : TimerQueueType) :
    ∃ Follows, Refines (makeTimerQueue o type) (policy o type) (shows o type) (Fits o type)
      Follows := by
  cases type with
  | kHashWheel => exact ⟨_, wheel_refines o⟩
  | kHeap => exact ⟨_, heap_refines⟩

theorem refines_service (o : TimerHashWheel.Options) (type : TimerQueueType) (clock : Int)
    (as : List (makeTimerQueue o type).Action) {w : (makeTimerQueue o type).World}
    (hf : (makeTimerQueue o type).system.Along (Fits o type) ((makeTimerQueue o type).init clock) as)
    (h : (makeTimerQueue o type).system.run ((makeTimerQueue o type).init clock) as = some w) :
    ∃ s, (TimerService.system (policy o type)).run (.create clock)
        ((makeTimerQueue o type).system.trace (shows o type)
          ((makeTimerQueue o type).init clock) as) = some s ∧
      Serving (makeTimerQueue o type) w s := by
  obtain ⟨Follows, r⟩ := refines_make o type
  obtain ⟨s, hs, v⟩ := Transition.System.along_refines (M := (makeTimerQueue o type).system)
    (N := TimerService.system (policy o type)) (fun _ _ _ _ v hf h => r.step v hf h) (r.init clock)
    hf h
  exact ⟨s, hs, r.serving v⟩

-- A one-shot timer, cancelled while its callback runs.
def oneShot : List TimerHeapQueue.Concurrent.Action :=
  [.add 5 0, .advance 0, .advance 0, .elapse 5, .handleEvents, .lock, .pop 0, .invoke, .cancel 1]

theorem refines_service_one_shot :
    ∃ s, (TimerService.system TimerHeapQueue.Concurrent.policy).run (.create 300)
        [.add 1 305 0, .elapse 5, .take 1 305, .cancel 1] = some s ∧
      s.taken.map TimerService.Taken.id = [1] ∧ s.timers 1 = none := by
  obtain ⟨w, hw, hf, ht, hs, htable⟩ : ∃ w,
      TimerHeapQueue.timerQueue.system.run (.init 300) oneShot = some w ∧
      TimerHeapQueue.timerQueue.system.Along TimerHeapQueue.Concurrent.Fits (.init 300) oneShot ∧
      TimerHeapQueue.timerQueue.system.trace TimerHeapQueue.Concurrent.shows (.init 300) oneShot =
        [.add 1 305 0, .elapse 5, .take 1 305, .cancel 1] ∧
      w.pc.claim ++ w.invoked = [1] ∧ w.heap.table 1 = none :=
    ⟨_, rfl, (by decide : TimerHeapQueue.Concurrent.system.Along TimerHeapQueue.Concurrent.Fits
      (.init 300) oneShot), by decide, rfl, rfl⟩
  obtain ⟨s, hrun, v⟩ := refines_service ⟨100, 4, by decide, by decide⟩ .kHeap 300 oneShot hf hw
  refine ⟨s, ht ▸ hrun, v.taken.trans hs, Decidable.byContradiction fun hn => ?_⟩
  have hlive := v.table 1 hn
  simp [makeTimerQueue, TimerHeapQueue.timerQueue, htable] at hlive

end TimerQueue
end Pedronet
