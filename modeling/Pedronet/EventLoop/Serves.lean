import Pedronet.EventLoop
import Pedronet.EventQueue.Serves

namespace Pedronet
namespace EventLoop
variable {Q : EventQueue Callback} {w t : World Q}

def discipline : EventQueueType → Executor.Discipline Callback
  | .kBlockingQueue | .kDoubleBufferQueue => Executor.fifo Callback
  | .kLockFreeQueue => Executor.anyOrder Callback

theorem serves_make (type : EventQueueType) :
    ∃ Waits, EventQueue.Serves (Q := makeEventQueue Callback type) (discipline type) Waits := by
  cases type with
  | kBlockingQueue => exact ⟨_, EventBlockingQueue.serves⟩
  | kDoubleBufferQueue => exact ⟨_, EventDoubleBufferQueue.serves⟩
  | kLockFreeQueue => exact ⟨_, EventLockFreeQueue.serves⟩

def shows (w : World Q) : Action Q → List (Executor.Action Callback)
  | .process choice => EventQueue.shows w.queue (.process choice)
  | .advance index => EventQueue.shows w.queue (.advance index)
  | .resume => EventQueue.shows w.queue .resume
  | _ => []

-- The steps of the loop's thread and of the calls under way: no call begins.
def Action.goesOn : Action Q → Prop
  | .load | .exchange | .test | .wait _ | .next | .leave | .process _ | .resume | .advance _ => True
  | .schedule _ | .close _ | .clear | .scheduleClose => False

theorem follow_queue (w : World Q) (rest : List Source) (queue : EventQueue.World Q) :
    (w.follow rest queue).queue = queue := by
  unfold World.follow
  split <;> rfl

theorem queue_step {a : Action Q} (h : step w a = some t) :
    (t.queue = w.queue ∧ shows w a = []) ∨
      ∃ b, EventQueue.step w.queue b = some t.queue ∧ shows w a = EventQueue.shows w.queue b ∧
        (a.goesOn → b.issues = []) := by
  cases a with
  | load =>
    obtain ⟨-, rfl⟩ := step_load h
    exact .inl ⟨rfl, rfl⟩
  | exchange =>
    obtain ⟨expected, -, rfl | rfl⟩ := step_exchange h <;> exact .inl ⟨rfl, rfl⟩
  | test =>
    obtain ⟨-, rfl⟩ := step_test h
    exact .inl ⟨rfl, rfl⟩
  | wait ready =>
    obtain ⟨-, rfl | ⟨batch, rfl⟩⟩ := step_wait h <;> exact .inl ⟨rfl, rfl⟩
  | next =>
    obtain ⟨rest, -, ⟨more, queue, hq, rfl⟩ | ⟨pc, -, rfl⟩⟩ := step_next h
    · exact .inr ⟨.handleEvents, hq, rfl, fun _ => rfl⟩
    · exact .inl ⟨rfl, rfl⟩
  | leave =>
    obtain ⟨rest, -, rfl⟩ := step_leave h
    exact .inl ⟨rfl, rfl⟩
  | process choice =>
    obtain ⟨rest, queue, -, hq, rfl⟩ := step_process h
    rw [follow_queue]
    exact .inr ⟨.process choice, hq, rfl, fun _ => rfl⟩
  | resume =>
    obtain ⟨rest, queue, -, hq, rfl⟩ := step_resume h
    exact .inr ⟨.resume, hq, rfl, fun _ => rfl⟩
  | schedule own =>
    obtain ⟨queue, hq, rfl⟩ := step_schedule h
    exact .inr ⟨_, hq, rfl, fun hg => hg.elim⟩
  | advance index =>
    obtain ⟨queue, hq, rfl⟩ := step_advance h
    exact .inr ⟨.advance index, hq, rfl, fun _ => rfl⟩
  | close own =>
    obtain ⟨-, rfl⟩ := step_close h
    exact .inl ⟨rfl, rfl⟩
  | clear =>
    obtain ⟨own, -, rfl⟩ := step_clear h
    exact .inl ⟨rfl, rfl⟩
  | scheduleClose =>
    obtain ⟨own, queue, -, hq, rfl⟩ := step_schedule_close h
    exact .inr ⟨_, hq, rfl, fun hg => hg.elim⟩

theorem matches_step {d : Executor.Discipline Callback}
    {Waits : Q.State → Option Q.Consumer → List Callback → Prop}
    (v : EventQueue.Serves d Waits) {a : Action Q} {e : Executor Callback}
    (m : EventQueue.Matches Waits w.queue e) (h : step w a = some t) :
    ∃ f, (Executor.system d).run e (shows w a) = some f ∧ EventQueue.Matches Waits t.queue f := by
  rcases queue_step h with ⟨hq, hs⟩ | ⟨b, hb, hs, -⟩
  · rw [hs, hq]
    exact ⟨e, rfl, m⟩
  · rw [hs]
    exact EventQueue.matches_step v m hb

theorem posted_step {a : Action Q} (h : step w a = some t) :
    t.queue.added = w.queue.added ++ (shows w a).flatMap Executor.Action.posted := by
  rcases queue_step h with ⟨hq, hs⟩ | ⟨b, hb, hs, -⟩
  · rw [hs, hq]
    exact (List.append_nil _).symm
  · rw [hs]
    exact EventQueue.posted_step hb

structure Serving (type : EventQueueType) (w : World Q) (shown : List (Executor.Action Callback))
    (e : Executor Callback) : Prop where
  posted : shown.flatMap Executor.Action.posted = w.queue.added
  begun : Executor.begun e = w.queue.executed
  running : e.running.toList = w.queue.status.current
  jobs : w.queue.added.Perm (w.queue.executed ++ e.waiting)
  order : type ≠ .kLockFreeQueue → w.queue.added = w.queue.executed ++ e.waiting

theorem discipline_fifo {type : EventQueueType} (h : type ≠ .kLockFreeQueue) :
    discipline type = Executor.fifo Callback := by
  cases type with
  | kLockFreeQueue => exact absurd rfl h
  | _ => rfl

theorem refines_executor (type : EventQueueType)
    (as : List (Action (makeEventQueue Callback type))) {w : World (makeEventQueue Callback type)}
    (h : (system _).run (.init _) as = some w) :
    ∃ e, (Executor.system (discipline type)).run Executor.idle
        ((system _).trace shows (.init _) as) = some e ∧
      Serving type w ((system _).trace shows (.init _) as) e := by
  obtain ⟨Waits, v⟩ := serves_make type
  obtain ⟨e, he, m⟩ := Transition.System.run_refines (M := system _)
    (N := Executor.system (discipline type)) (R := fun w e => EventQueue.Matches Waits w.queue e)
    (fun _ _ _ _ m h => matches_step v m h) (EventQueue.matches_init v) h
  have hp := Transition.System.log_run (M := system (makeEventQueue Callback type))
    (fun _ _ _ h => posted_step h) h
  have hp : w.queue.added =
      ((system _).trace shows (.init _) as).flatMap Executor.Action.posted := hp
  refine ⟨e, he, hp.symm, m.begun, m.running, ?_, fun hf => ?_⟩
  · rw [hp, ← m.begun]
    exact Executor.jobs_run he
  · rw [discipline_fifo hf] at he
    rw [hp, ← m.begun]
    exact Executor.jobs_fifo he

theorem refines_executor_two : ∃ (w : World (makeEventQueue Callback .kDoubleBufferQueue)) (e : Executor Callback),
    (system _).run (.init _) [.schedule false, .advance 0, .schedule false, .advance 0, .load,
      .exchange, .test, .wait (some [.event]), .next, .process (), .process (), .resume,
      .process ()] = some w ∧
    w.queue.added = [.user 0, .user 1] ∧ Executor.begun e = [.user 0, .user 1] ∧
    e.running = some (.user 1) := by
  obtain ⟨w, hw, ha, hx, hc⟩ : ∃ w : World (makeEventQueue Callback .kDoubleBufferQueue),
      (system _).run (.init _) [.schedule false, .advance 0, .schedule false, .advance 0, .load,
        .exchange, .test, .wait (some [.event]), .next, .process (), .process (), .resume,
        .process ()] = some w ∧ w.queue.added = [.user 0, .user 1] ∧
      w.queue.executed = [.user 0, .user 1] ∧ w.queue.status.current = [.user 1] :=
    ⟨_, rfl, rfl, rfl, rfl⟩
  obtain ⟨e, -, s⟩ := refines_executor .kDoubleBufferQueue _ hw
  refine ⟨w, e, hw, ha, s.begun.trans hx, ?_⟩
  have hr := s.running.trans hc
  cases hrun : e.running with
  | none => simp [hrun] at hr
  | some job => simpa [hrun] using hr

end EventLoop
end Pedronet
