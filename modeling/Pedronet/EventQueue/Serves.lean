import Pedronet.EventQueue.LockFree
import Pedronet.EventQueue.Mutex
import Pedronet.Executor

namespace Pedronet
namespace EventQueue
variable {κ : Type} {Q : EventQueue κ} {w t : World Q}

-- What a step shows from outside: a callback is handed over, begins, or has returned.
def shows (w : World Q) : Action Q → List (Executor.Action κ)
  | .add _ _ | .handleEvents => []
  | .advance index =>
    match w.calls[index]? with
    | some call => (unentered call).map .post
    | none => []
  | .process choice =>
    match w.status with
    | .processing consumer =>
      match Q.process w.state consumer choice with
      | some (_, .invoke callback _) => [.start callback]
      | _ => []
    | _ => []
  | .resume => [.stop]

-- `Waits` says which callbacks wait, in which order, by the queue and how far Process has come.
structure Serves (d : Executor.Discipline κ)
    (Waits : Q.State → Option Q.Consumer → List κ → Prop) : Prop where
  create : Waits Q.create none []
  start {state : Q.State} {l : List κ} : Waits state none l → Waits state (some Q.start) l
  add {state : Q.State} {consumer : Option Q.Consumer} {l : List κ} (callback : κ)
    (pc : Q.Producer) : Waits state consumer l →
    Waits (Q.add state callback pc).state consumer (if Q.entered pc then l else l ++ [callback])
  again {state next : Q.State} {consumer rest : Q.Consumer} {choice : Q.Choice} {l : List κ} :
    Waits state (some consumer) l → Q.process state consumer choice = some (next, .again rest) →
    Waits next (some rest) l
  invoke {state next : Q.State} {consumer rest : Q.Consumer} {choice : Q.Choice} {callback : κ}
    {l : List κ} : Waits state (some consumer) l →
    Q.process state consumer choice = some (next, .invoke callback rest) →
    ∃ later, d.take l callback = some later ∧ Waits next (some rest) later
  finish {state next : Q.State} {consumer : Q.Consumer} {choice : Q.Choice} {l : List κ} :
    Waits state (some consumer) l → Q.process state consumer choice = some (next, .finish) →
    Waits next none l

structure Matches (Waits : Q.State → Option Q.Consumer → List κ → Prop) (w : World Q)
    (e : Executor κ) : Prop where
  waits : Waits w.state w.status.consumer e.waiting
  running : e.running.toList = w.status.current
  begun : Executor.begun e = w.executed

variable {d : Executor.Discipline κ} {Waits : Q.State → Option Q.Consumer → List κ → Prop}

theorem matches_init (v : Serves d Waits) : Matches Waits (.init Q) Executor.idle :=
  ⟨v.create, rfl, rfl⟩

theorem matches_advance (v : Serves d Waits) {e : Executor κ} (m : Matches Waits w e) {index : Nat}
    {call : Call Q} (hc : w.calls[index]? = some call) :
    ∃ f, (Executor.system d).run e (shows w (.advance index)) = some f ∧
      Matches Waits (w.advance index call) f := by
  have hw := v.add call.callback call.pc m.waits
  simp only [shows, hc, unentered]
  cases he : Q.entered call.pc with
  | true =>
    rw [he] at hw
    exact ⟨e, rfl, hw, m.running, m.begun⟩
  | false =>
    rw [he] at hw
    exact ⟨{ e with waiting := e.waiting ++ [call.callback] }, rfl, hw, m.running, m.begun⟩

theorem matches_process (v : Serves d Waits) {e : Executor κ} (m : Matches Waits w e)
    {consumer : Q.Consumer} {choice : Q.Choice} {state : Q.State} {next : Next κ Q.Consumer}
    (hs : w.status = .processing consumer)
    (hp : Q.process w.state consumer choice = some (state, next)) :
    ∃ f, (Executor.system d).run e (shows w (.process choice)) = some f ∧
      Matches Waits (w.follow state next) f := by
  obtain ⟨hw, hr, hb⟩ := m
  rw [hs] at hw hr
  simp only [shows, hs, hp]
  cases next with
  | again rest => exact ⟨e, rfl, v.again hw hp, hr, hb⟩
  | finish => exact ⟨e, rfl, v.finish hw hp, hr, hb⟩
  | invoke callback rest =>
    obtain ⟨later, ht, hl⟩ := v.invoke hw hp
    have hnone : e.running = none := by simpa [Status.current] using hr
    have hfin : e.finished = w.executed := by simpa [Executor.begun, hnone] using hb
    refine ⟨{ e with waiting := later, running := some callback }, ?_, hl, rfl, ?_⟩
    · simp [Transition.System.run, Executor.system, Executor.step, hnone, ht]
    · simp [Executor.begun, hfin, World.follow]

theorem matches_step (v : Serves d Waits) {a : Action Q} {e : Executor κ} (m : Matches Waits w e)
    (h : step w a = some t) :
    ∃ f, (Executor.system d).run e (shows w a) = some f ∧ Matches Waits t f := by
  cases a with
  | add own callback =>
    obtain rfl := step_add h
    exact ⟨e, rfl, m.waits, m.running, m.begun⟩
  | advance index =>
    obtain ⟨call, hc, rfl⟩ := step_advance h
    exact matches_advance v m hc
  | handleEvents =>
    obtain ⟨hs, -, rfl⟩ := step_handle_events h
    obtain ⟨hw, hr, hb⟩ := m
    rw [hs] at hw hr
    exact ⟨e, rfl, v.start hw, hr, hb⟩
  | process choice =>
    obtain ⟨consumer, state, next, hs, hp, rfl⟩ := step_process h
    exact matches_process v m hs hp
  | resume =>
    obtain ⟨callback, consumer, hs, rfl⟩ := step_resume h
    obtain ⟨hw, hr, hb⟩ := m
    rw [hs] at hw hr
    have hrun : e.running = some callback := by simpa [Status.current] using hr
    refine ⟨{ e with running := none, finished := e.finished ++ [callback] }, ?_, hw, rfl, ?_⟩
    · simp [shows, Transition.System.run, Executor.system, Executor.step, hrun]
    · rw [Executor.begun_stop hrun]
      exact hb

theorem posted_step {a : Action Q} (h : step w a = some t) :
    t.added = w.added ++ (shows w a).flatMap Executor.Action.posted := by
  cases a with
  | add own callback =>
    obtain rfl := step_add h
    exact (List.append_nil _).symm
  | advance index =>
    obtain ⟨call, hc, rfl⟩ := step_advance h
    simp only [shows, hc, World.advance, unentered]
    split <;> simp [Executor.Action.posted]
  | handleEvents =>
    obtain ⟨-, -, rfl⟩ := step_handle_events h
    exact (List.append_nil _).symm
  | process choice =>
    obtain ⟨consumer, state, next, hs, hp, rfl⟩ := step_process h
    simp only [shows, hs, hp]
    cases next <;> simp [World.follow, Executor.Action.posted]
  | resume =>
    obtain ⟨callback, consumer, -, rfl⟩ := step_resume h
    simp [shows, Executor.Action.posted]

theorem added_reachable (v : Serves d Waits) (h : (system Q).Reachable w) :
    ∃ e : Executor κ, Matches Waits w e ∧ (Executor.begun e ++ e.waiting).Perm w.added := by
  refine Transition.System.invariant (M := system Q)
    (I := fun w => ∃ e : Executor κ, Matches Waits w e ∧
      (Executor.begun e ++ e.waiting).Perm w.added) ?_ ?_ h
  · rintro _ rfl
    exact ⟨Executor.idle, matches_init v, .nil⟩
  · rintro s a u ⟨e, m, hp⟩ hs
    obtain ⟨f, hf, m'⟩ := matches_step v m hs
    refine ⟨f, m', (Executor.jobs_run hf).symm.trans ?_⟩
    rw [posted_step hs]
    exact hp.append_right _

theorem executed_added (v : Serves d Waits) (h : (system Q).Reachable w) :
    ∀ callback ∈ w.executed, callback ∈ w.added := by
  obtain ⟨e, m, hp⟩ := added_reachable v h
  intro callback hm
  exact hp.subset (List.mem_append_left _ (m.begun ▸ hm))

end EventQueue

variable {κ : Type} [DecidableEq κ]

def EventBlockingQueue.Waits (q : EventBlockingQueue κ) (_ : Option Unit) (l : List κ) : Prop :=
  q.queue = l

theorem EventBlockingQueue.serves :
    EventQueue.Serves (Q := eventQueue κ) (Executor.fifo κ) Waits where
  create := rfl
  start h := h
  add callback _ h := congrArg (· ++ [callback]) h
  again {state next consumer rest choice l} _ hp := by
    cases hq : state.queue <;> simp [process, pop, hq] at hp
  invoke {state next consumer rest choice callback l} h hp := by
    cases hq : state.queue with
    | nil => simp [process, pop, hq] at hp
    | cons first later =>
      simp only [process, pop, hq, Option.some.injEq, Prod.mk.injEq, Next.invoke.injEq] at hp
      obtain ⟨rfl, rfl, -⟩ := hp
      obtain rfl : state.queue = l := h
      refine ⟨later, ?_, rfl⟩
      simp [Executor.fifo, Executor.takeFirst, hq]
  finish {state next consumer choice l} h hp := by
    cases hq : state.queue with
    | nil =>
      simp only [process, pop, hq, Option.some.injEq, Prod.mk.injEq] at hp
      obtain ⟨rfl, -⟩ := hp
      exact h
    | cons first later => simp [process, pop, hq] at hp

structure EventDoubleBufferQueue.Waits (q : EventDoubleBufferQueue κ)
    (consumer : Option (EventDoubleBufferQueue.ProcessPc κ)) (l : List κ) : Prop where
  order : unrun consumer ++ q.pending = l
  cleared : swapped consumer = false → q.running = []

theorem EventDoubleBufferQueue.serves :
    EventQueue.Serves (Q := eventQueue κ) (Executor.fifo κ) Waits where
  create := ⟨rfl, fun _ => rfl⟩
  start h := ⟨h.order, fun _ => h.cleared rfl⟩
  add callback _ h := by
    refine ⟨?_, h.cleared⟩
    rw [← h.order]
    exact (List.append_assoc _ _ _).symm
  again {state next consumer rest choice l} h hp := by
    cases consumer with
    | swap =>
      simp only [process, Option.some.injEq, Prod.mk.injEq, Next.again.injEq] at hp
      obtain ⟨rfl, rfl⟩ := hp
      refine ⟨?_, fun hf => by cases hf⟩
      have hr : state.running = [] := h.cleared rfl
      simpa [unrun, hr] using h.order
    | run later => cases later <;> simp [process] at hp
  invoke {state next consumer rest choice callback l} h hp := by
    cases consumer with
    | swap => simp [process] at hp
    | run later =>
      cases later with
      | nil => simp [process] at hp
      | cons first later =>
        simp only [process, Option.some.injEq, Prod.mk.injEq, Next.invoke.injEq] at hp
        obtain ⟨rfl, rfl, rfl⟩ := hp
        refine ⟨later ++ state.pending, ?_, rfl, fun hf => by cases hf⟩
        rw [← h.order]
        simp [Executor.fifo, Executor.takeFirst, unrun]
  finish {state next consumer choice l} h hp := by
    cases consumer with
    | swap => simp [process] at hp
    | run later =>
      cases later with
      | nil =>
        simp only [process, Option.some.injEq, Prod.mk.injEq] at hp
        obtain ⟨rfl, -⟩ := hp
        exact ⟨h.order, fun _ => rfl⟩
      | cons first later => simp [process] at hp

def EventLockFreeQueue.Waits (q : EventLockFreeQueue κ)
    (consumer : Option (EventLockFreeQueue.ProcessPc κ)) (l : List κ) : Prop :=
  l.Perm (inHand consumer ++ q.queue)

theorem EventLockFreeQueue.waits_process {state next : EventLockFreeQueue κ}
    {consumer rest : ProcessPc κ} {choice : List κ × List κ} {l : List κ}
    (h : Waits state (some consumer) l)
    (hp : process state consumer choice = some (next, .again rest)) : Waits next (some rest) l := by
  cases consumer with
  | dequeue =>
    rcases process_dequeue hp with ⟨-, -, hn⟩ | ⟨taken, later, hperm, rfl, he⟩
    · cases hn
    · cases he
      exact h.trans hperm.symm
  | fetchSub taken =>
    simp only [process, Option.some.injEq, Prod.mk.injEq, Next.again.injEq] at hp
    obtain ⟨rfl, rfl⟩ := hp
    exact h
  | run later =>
    cases later with
    | nil =>
      simp only [process, Option.some.injEq, Prod.mk.injEq, Next.again.injEq] at hp
      obtain ⟨rfl, rfl⟩ := hp
      exact h
    | cons first later => simp [process] at hp

theorem EventLockFreeQueue.serves :
    EventQueue.Serves (Q := eventQueue κ) (Executor.anyOrder κ) Waits where
  create := .nil
  start h := h
  add {state consumer l} callback pc h := by
    cases pc with
    | enqueue =>
      have hp := h.append_right [callback]
      rwa [List.append_assoc] at hp
    | fetchAdd => exact h
    | wakeUp => exact h
  again h hp := waits_process h hp
  invoke {state next consumer rest choice callback l} h hp := by
    cases consumer with
    | dequeue => rcases process_dequeue hp with ⟨-, -, hn⟩ | ⟨taken, later, -, -, hn⟩ <;> cases hn
    | fetchSub taken => simp [process] at hp
    | run later =>
      cases later with
      | nil => simp [process] at hp
      | cons first later =>
        simp only [process, Option.some.injEq, Prod.mk.injEq, Next.invoke.injEq] at hp
        obtain ⟨rfl, rfl, rfl⟩ := hp
        have hm : first ∈ l := h.symm.subset List.mem_cons_self
        refine ⟨l.erase first, if_pos hm, ?_⟩
        have he := h.erase first
        simpa [Waits, inHand] using he
  finish {state next consumer choice l} h hp := by
    cases consumer with
    | dequeue =>
      rcases process_dequeue hp with ⟨-, rfl, -⟩ | ⟨taken, later, -, -, hn⟩
      · exact h
      · cases hn
    | fetchSub taken => simp [process] at hp
    | run later => cases later <;> simp [process] at hp

end Pedronet
