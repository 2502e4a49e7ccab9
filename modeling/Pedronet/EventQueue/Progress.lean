import Pedronet.EventQueue.LockFree
import Pedronet.EventQueue.Mutex
import Pedronet.Transition.Leads
import Mathlib.Algebra.GroupWithZero.Nat

namespace Pedronet

def Next.consumer {κ σ : Type} : Next κ σ → Option σ
  | .again consumer | .invoke _ consumer => some consumer
  | .finish => none

namespace EventQueue
variable {κ : Type}

-- Nothing blocks an Add or a Process, and a Process that finds no callback added behind it takes
-- out everything there is.
structure Progress (Q : EventQueue κ) where
  left : Q.Producer → Nat
  add (state : Q.State) (callback : κ) (pc next : Q.Producer) :
    (Q.add state callback pc).next = some next → left next < left pc
  measure : Q.State → Q.Consumer → Nat
  process (state : Q.State) (consumer : Q.Consumer) :
    ∃ choice later next, Q.process state consumer choice = some (later, next) ∧
      ∀ rest, next.consumer = some rest → measure later rest < measure state consumer
  clears : Q.State → Q.Consumer → Prop
  starts {w : World Q} : (system Q).Reachable w → w.status = .outside → clears w.state Q.start
  keeps {state later : Q.State} {consumer : Q.Consumer} {choice : Q.Choice}
    {next : Next κ Q.Consumer} : clears state consumer →
    Q.process state consumer choice = some (later, next) →
    match next.consumer with
    | some rest => clears later rest
    | none => Q.held later = []
  wakes {w : World Q} : (system Q).Reachable w → w.calls = [] → w.status = .outside →
    Q.held w.state ≠ [] → 0 < w.eventfd

variable {Q : EventQueue κ} {w : World Q}

def Progress.calling (p : Progress Q) (w : World Q) : Nat :=
  (w.calls.map fun call => p.left call.pc + 1).sum

theorem advance_smaller (p : Progress Q) {call : Call Q} {calls : List (Call Q)}
    (hc : w.calls = call :: calls) : p.calling (w.advance 0 call) < p.calling w := by
  simp only [Progress.calling, World.advance, hc]
  split
  · rename_i next hnext
    have := p.add _ _ _ _ hnext
    simp only [List.set_cons_zero, List.map_cons, List.sum_cons]
    omega
  · simp only [List.eraseIdx_cons_zero, List.map_cons, List.sum_cons]
    omega

def Progress.processing (p : Progress Q) (w : World Q) : Nat :=
  match w.status with
  | .outside => 0
  | .processing consumer => 2 * p.measure w.state consumer + 1
  | .running _ consumer => 2 * p.measure w.state consumer + 2

def Progress.Tidy (p : Progress Q) (w : World Q) : Prop :=
  match w.status.consumer with
  | some consumer => p.clears w.state consumer
  | none => Q.held w.state = []

theorem process_smaller (p : Progress Q) {consumer : Q.Consumer} (hf : w.free = true)
    (hs : w.status = .processing consumer) :
    ∃ choice t, step w (.process choice) = some t ∧ p.processing t < p.processing w ∧
      (p.Tidy w → p.Tidy t) := by
  obtain ⟨choice, later, next, hp, hlt⟩ := p.process w.state consumer
  refine ⟨choice, w.follow later next, by simp only [step, hs, hf, hp], ?_, fun ht => ?_⟩
  · cases next with
    | again rest =>
      have := hlt rest rfl
      simp only [Progress.processing, World.follow, hs]
      omega
    | invoke callback rest =>
      have := hlt rest rfl
      simp only [Progress.processing, World.follow, hs]
      omega
    | finish => simp [Progress.processing, World.follow, hs]
  · have hc : p.clears w.state consumer := by simpa [Progress.Tidy, hs, Status.consumer] using ht
    have hk := p.keeps hc hp
    cases next with
    | again rest => exact hk
    | invoke callback rest => exact hk
    | finish => exact hk

theorem resume_smaller (p : Progress Q) {callback : κ} {consumer : Q.Consumer}
    (hf : w.free = true) (hs : w.status = .running callback consumer) :
    ∃ t, step w .resume = some t ∧ p.processing t < p.processing w ∧ (p.Tidy w → p.Tidy t) := by
  refine ⟨{ w with status := .processing consumer }, by simp only [step, hs, hf], ?_, fun ht => ?_⟩
  · simp only [Progress.processing, hs]
    exact Nat.lt_succ_self _
  · simpa [Progress.Tidy, hs, Status.consumer] using ht

theorem calls_step {a : Action Q} {t : World Q} (hc : w.calls = []) (ha : a.issues = [])
    (h : step w a = some t) : t.calls = [] := by
  cases a with
  | add own callback => cases ha
  | advance index =>
    obtain ⟨call, hcall, -⟩ := step_advance h
    simp [hc] at hcall
  | handleEvents =>
    obtain ⟨-, -, rfl⟩ := step_handle_events h
    exact hc
  | process choice =>
    obtain ⟨consumer, state, next, -, -, rfl⟩ := step_process h
    cases next <;> exact hc
  | resume =>
    obtain ⟨callback, consumer, -, rfl⟩ := step_resume h
    exact hc

end EventQueue

variable {κ : Type} [DecidableEq κ]

def EventBlockingQueue.progress : EventQueue.Progress (eventQueue κ) where
  left _ := 0
  add _ _ _ _ h := by cases h
  measure state _ := state.queue.length
  process state consumer := by
    cases hq : state.queue with
    | nil => exact ⟨(), _, _, rfl, by simp [pop, hq, Next.consumer]⟩
    | cons first rest => exact ⟨(), _, _, rfl, by simp [pop, hq, Next.consumer]⟩
  clears _ _ := True
  starts _ _ := trivial
  keeps {state later consumer choice next} _ h := by
    cases hq : state.queue with
    | nil =>
      simp only [process, pop, hq, Option.some.injEq, Prod.mk.injEq] at h
      obtain ⟨rfl, rfl⟩ := h
      exact hq
    | cons first rest =>
      simp only [process, pop, hq, Option.some.injEq, Prod.mk.injEq] at h
      obtain ⟨rfl, rfl⟩ := h
      trivial
  wakes h _ ho hn := awake_reachable h ho hn

def EventDoubleBufferQueue.progress : EventQueue.Progress (eventQueue κ) where
  left _ := 0
  add _ _ _ _ h := by cases h
  measure state
    | .swap => state.pending.length + 1
    | .run rest => rest.length
  process state consumer := by
    cases consumer with
    | swap => exact ⟨(), _, _, rfl, by simp [Next.consumer]⟩
    | run rest => cases rest <;> exact ⟨(), _, _, rfl, by simp [Next.consumer]⟩
  clears state
    | .swap => state.running = []
    | .run _ => state.pending = []
  starts h ho := (fifo_reachable h).cleared (by rw [ho]; rfl)
  keeps {state later consumer choice next} hc h := by
    cases consumer with
    | swap =>
      simp only [process, Option.some.injEq, Prod.mk.injEq] at h
      obtain ⟨rfl, rfl⟩ := h
      exact hc
    | run rest =>
      cases rest <;>
      · simp only [process, Option.some.injEq, Prod.mk.injEq] at h
        obtain ⟨rfl, rfl⟩ := h
        exact hc
  wakes h _ ho hn := awake_reachable h (.inl ho) hn

theorem EventLockFreeQueue.dequeues (q : EventLockFreeQueue κ) :
    process q .dequeue (q.queue.take 32, q.queue.drop 32) =
      some ({ q with queue := q.queue.drop 32 },
        if q.queue.take 32 = [] then .finish else .again (.fetchSub (q.queue.take 32))) := by
  refine if_pos ⟨.of_eq (List.take_append_drop 32 q.queue), List.length_take_le 32 q.queue, ?_⟩
  intro h
  have hq : q.queue = [] := by simpa using h
  rw [hq, List.drop_nil]

def EventLockFreeQueue.progress : EventQueue.Progress (eventQueue κ) where
  left
    | .enqueue => 2
    | .fetchAdd => 1
    | .wakeUp => 0
  add state callback pc next h := by
    cases pc with
    | enqueue =>
      cases h
      exact Nat.one_lt_two
    | fetchAdd =>
      simp only [add] at h
      split at h
      · cases h
        exact Nat.one_pos
      · cases h
    | wakeUp => cases h
  measure state
    | .dequeue => 4 * state.queue.length
    | .fetchSub taken => 4 * state.queue.length + (taken.length + 2)
    | .run rest => 4 * state.queue.length + (rest.length + 1)
  process state consumer := by
    cases consumer with
    | dequeue =>
      refine ⟨(state.queue.take 32, state.queue.drop 32), _, _, dequeues state, fun rest hr => ?_⟩
      split at hr
      · cases hr
      · rename_i hne
        cases hr
        have hpos : 0 < (state.queue.take 32).length := List.length_pos_iff.mpr hne
        simp only [List.length_take, List.length_drop] at hpos ⊢
        omega
    | fetchSub taken =>
      refine ⟨([], []), _, _, rfl, fun rest hr => ?_⟩
      cases hr
      simp only
      omega
    | run rest =>
      cases rest with
      | nil =>
        refine ⟨([], []), _, _, rfl, fun rest hr => ?_⟩
        cases hr
        simp only
        omega
      | cons first rest =>
        refine ⟨([], []), _, _, rfl, fun rest hr => ?_⟩
        cases hr
        simp only [List.length_cons]
        omega
  clears _ _ := True
  starts _ _ := trivial
  keeps {state later consumer choice next} _ h := by
    cases hn : next.consumer with
    | some rest => trivial
    | none =>
      cases consumer with
      | dequeue =>
        rcases process_dequeue h with ⟨hq, rfl, -⟩ | ⟨taken, rest, -, -, rfl⟩
        · exact hq
        · cases hn
      | fetchSub taken =>
        simp only [EventLockFreeQueue.process, Option.some.injEq, Prod.mk.injEq] at h
        rw [← h.2] at hn
        cases hn
      | run rest =>
        cases rest <;>
        · simp only [EventLockFreeQueue.process, Option.some.injEq, Prod.mk.injEq] at h
          rw [← h.2] at hn
          cases hn
  wakes {w} h hc ho hn := by
    rcases (counted_reachable h).wakes ho with he | hw | hl
    · exact he
    · simp [waking, hc] at hw
    · rw [uncounted, hc] at hl
      exact absurd (List.length_eq_zero_iff.mp (Nat.le_zero.mp hl)) hn

end Pedronet
