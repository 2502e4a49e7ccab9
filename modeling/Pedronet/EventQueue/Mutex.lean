import Pedronet.EventQueue

namespace Pedronet

structure EventBlockingQueue (κ : Type) where
  queue : List κ
deriving DecidableEq, Repr

namespace EventBlockingQueue
variable {κ : Type}

def pop (q : EventBlockingQueue κ) : Option (κ × EventBlockingQueue κ) :=
  match q.queue with
  | [] => none
  | callback :: rest => some (callback, ⟨rest⟩)

def add (q : EventBlockingQueue κ) (callback : κ) : Produced (EventBlockingQueue κ) Unit :=
  let queue := q.queue ++ [callback]
  ⟨⟨queue⟩, queue.length == 1, none⟩

def process (q : EventBlockingQueue κ) : EventBlockingQueue κ × Next κ Unit :=
  match q.pop with
  | none => (q, .finish)
  | some (callback, rest) => (rest, .invoke callback ())

variable (κ) in
abbrev eventQueue : EventQueue κ where
  State := EventBlockingQueue κ
  Producer := Unit
  Consumer := Unit
  Choice := Unit
  create := ⟨[]⟩
  enter := ()
  entered _ := false
  add q callback _ := add q callback
  start := ()
  process q _ _ := some (process q)
  held := queue
  fresh_enter := rfl
  entered_next _ _ _ _ h := by cases h

abbrev World (κ : Type) := EventQueue.World (eventQueue κ)

variable {w t : World κ}

def Fifo (w : World κ) : Prop := w.added = w.executed ++ w.state.queue

theorem fifo_step {a : EventQueue.Action (eventQueue κ)} (h : Fifo w)
    (hs : EventQueue.step w a = some t) : Fifo t := by
  cases a with
  | add own callback =>
    obtain rfl := EventQueue.step_add hs
    exact h
  | advance index =>
    obtain ⟨call, -, rfl⟩ := EventQueue.step_advance hs
    have hf : w.added ++ [call.callback] = w.executed ++ (w.state.queue ++ [call.callback]) := by
      rw [show w.added = _ from h, List.append_assoc]
    exact hf
  | handleEvents =>
    obtain ⟨-, -, rfl⟩ := EventQueue.step_handle_events hs
    exact h
  | process choice =>
    obtain ⟨consumer, u, next, -, hp, rfl⟩ := EventQueue.step_process hs
    cases hq : w.state.queue with
    | nil =>
      simp only [process, pop, hq, Option.some.injEq, Prod.mk.injEq] at hp
      obtain ⟨rfl, rfl⟩ := hp
      exact h
    | cons callback rest =>
      simp only [process, pop, hq, Option.some.injEq, Prod.mk.injEq] at hp
      obtain ⟨rfl, rfl⟩ := hp
      have hf : w.added = (w.executed ++ [callback]) ++ rest := by
        rw [show w.added = _ from h, hq, List.append_assoc]
        rfl
      exact hf
  | resume =>
    obtain ⟨callback, consumer, -, rfl⟩ := EventQueue.step_resume hs
    exact h

theorem fifo_reachable (h : (EventQueue.system (eventQueue κ)).Reachable w) : Fifo w := by
  refine Transition.System.invariant ?_ ?_ h
  · rintro _ rfl
    rfl
  · intro s a u hi hs
    exact fifo_step hi hs

theorem lawful : EventQueue.Lawful (eventQueue κ) :=
  fun w h _ => ⟨w.executed, w.state.queue, fifo_reachable h, .refl _, .refl _⟩

def Awake (w : World κ) : Prop := w.status = .outside → w.state.queue ≠ [] → 0 < w.eventfd

theorem awake_step {a : EventQueue.Action (eventQueue κ)} (h : Awake w)
    (hs : EventQueue.step w a = some t) : Awake t := by
  cases a with
  | add own callback =>
    obtain rfl := EventQueue.step_add hs
    exact h
  | advance index =>
    obtain ⟨call, -, rfl⟩ := EventQueue.step_advance hs
    intro ho _
    refine EventQueue.eventfd_advance (fun hq => ?_) (h ho)
    change w.state.queue = [] at hq
    simp [add, hq]
  | handleEvents =>
    obtain ⟨-, -, rfl⟩ := EventQueue.step_handle_events hs
    intro ho
    cases ho
  | process choice =>
    obtain ⟨consumer, u, next, -, hp, rfl⟩ := EventQueue.step_process hs
    cases hq : w.state.queue with
    | nil =>
      simp only [process, pop, hq, Option.some.injEq, Prod.mk.injEq] at hp
      obtain ⟨rfl, rfl⟩ := hp
      exact fun _ hn => absurd hq hn
    | cons callback rest =>
      simp only [process, pop, hq, Option.some.injEq, Prod.mk.injEq] at hp
      obtain ⟨rfl, rfl⟩ := hp
      intro ho
      cases ho
  | resume =>
    obtain ⟨callback, consumer, -, rfl⟩ := EventQueue.step_resume hs
    intro ho
    cases ho

theorem awake_reachable (h : (EventQueue.system (eventQueue κ)).Reachable w) : Awake w := by
  refine Transition.System.invariant ?_ ?_ h
  · rintro _ rfl _ hn
    exact absurd rfl hn
  · intro s a u hi hs
    exact awake_step hi hs

def held (w : World κ) : List κ := w.state.queue

end EventBlockingQueue

structure EventDoubleBufferQueue (κ : Type) where
  pending : List κ
  running : List κ
deriving DecidableEq, Repr

namespace EventDoubleBufferQueue
variable {κ : Type}

inductive ProcessPc (κ : Type) where
  | swap
  | run (rest : List κ)
deriving DecidableEq, Repr

def add (q : EventDoubleBufferQueue κ) (callback : κ) :
    Produced (EventDoubleBufferQueue κ) Unit :=
  let pending := q.pending ++ [callback]
  ⟨{ q with pending := pending }, pending.length == 1, none⟩

def process (q : EventDoubleBufferQueue κ) :
    ProcessPc κ → EventDoubleBufferQueue κ × Next κ (ProcessPc κ)
  | .swap => (⟨q.running, q.pending⟩, .again (.run q.pending))
  | .run (callback :: rest) => (q, .invoke callback (.run rest))
  | .run [] => ({ q with running := [] }, .finish)

variable (κ) in
abbrev eventQueue : EventQueue κ where
  State := EventDoubleBufferQueue κ
  Producer := Unit
  Consumer := ProcessPc κ
  Choice := Unit
  create := ⟨[], []⟩
  enter := ()
  entered _ := false
  add q callback _ := add q callback
  start := .swap
  process q pc _ := some (process q pc)
  held := pending
  fresh_enter := rfl
  entered_next _ _ _ _ h := by cases h

abbrev World (κ : Type) := EventQueue.World (eventQueue κ)

variable {w t : World κ}

def unrun : Option (ProcessPc κ) → List κ
  | some (.run rest) => rest
  | _ => []

def swapped : Option (ProcessPc κ) → Bool
  | some (.run _) => true
  | _ => false

structure Fifo (w : World κ) : Prop where
  order : w.added = w.executed ++ (unrun w.status.consumer ++ w.state.pending)
  cleared : swapped w.status.consumer = false → w.state.running = []

theorem fifo_process (h : Fifo w) {consumer : ProcessPc κ} (hw : w.status = .processing consumer) :
    Fifo (w.follow (process w.state consumer).1 (process w.state consumer).2) := by
  obtain ⟨ho, hc⟩ := h
  rw [hw] at ho hc
  cases consumer with
  | swap =>
    refine ⟨?_, fun hf => by cases hf⟩
    have hr : w.state.running = [] := hc rfl
    have hf : w.added = w.executed ++ (w.state.pending ++ w.state.running) := by
      rw [hr, List.append_nil]
      exact ho
    exact hf
  | run rest =>
    cases rest with
    | nil => exact ⟨ho, fun _ => rfl⟩
    | cons callback rest =>
      refine ⟨?_, fun hf => by cases hf⟩
      have hf : w.added = (w.executed ++ [callback]) ++ (rest ++ w.state.pending) := by
        rw [List.append_assoc]
        exact ho
      exact hf

theorem fifo_step {a : EventQueue.Action (eventQueue κ)} (h : Fifo w)
    (hs : EventQueue.step w a = some t) : Fifo t := by
  cases a with
  | add own callback =>
    obtain rfl := EventQueue.step_add hs
    exact ⟨h.order, h.cleared⟩
  | advance index =>
    obtain ⟨call, -, rfl⟩ := EventQueue.step_advance hs
    refine ⟨?_, h.cleared⟩
    have hf : w.added ++ [call.callback] = w.executed ++
        (unrun w.status.consumer ++ (w.state.pending ++ [call.callback])) := by
      rw [h.order]
      simp only [List.append_assoc]
    exact hf
  | handleEvents =>
    obtain ⟨ho, -, rfl⟩ := EventQueue.step_handle_events hs
    obtain ⟨h1, h2⟩ := h
    rw [ho] at h1 h2
    exact ⟨h1, fun _ => h2 rfl⟩
  | process choice =>
    obtain ⟨consumer, u, next, hw, hp, rfl⟩ := EventQueue.step_process hs
    have he : process w.state consumer = (u, next) := Option.some.inj hp
    have hf := fifo_process h hw
    rw [he] at hf
    exact hf
  | resume =>
    obtain ⟨callback, consumer, hw, rfl⟩ := EventQueue.step_resume hs
    obtain ⟨h1, h2⟩ := h
    rw [hw] at h1 h2
    exact ⟨h1, h2⟩

theorem fifo_reachable (h : (EventQueue.system (eventQueue κ)).Reachable w) : Fifo w := by
  refine Transition.System.invariant ?_ ?_ h
  · rintro _ rfl
    exact ⟨rfl, fun _ => rfl⟩
  · intro s a u hi hs
    exact fifo_step hi hs

theorem lawful : EventQueue.Lawful (eventQueue κ) := by
  intro w h ho
  have hf := (fifo_reachable h).order
  rw [ho] at hf
  exact ⟨w.executed, w.state.pending, hf, .refl _, .refl _⟩

def Awake (w : World κ) : Prop :=
  w.status = .outside ∨ swapped w.status.consumer = true → w.state.pending ≠ [] → 0 < w.eventfd

theorem awake_process (hf : Fifo w) (h : Awake w) {consumer : ProcessPc κ}
    (hw : w.status = .processing consumer) :
    Awake (w.follow (process w.state consumer).1 (process w.state consumer).2) := by
  cases consumer with
  | swap =>
    intro _ hn
    exact absurd (hf.cleared (by rw [hw]; rfl)) hn
  | run rest =>
    have hp : w.state.pending ≠ [] → 0 < w.eventfd := h (.inr (by rw [hw]; rfl))
    cases rest with
    | nil => exact fun _ => hp
    | cons callback rest => exact fun _ => hp

theorem awake_step {a : EventQueue.Action (eventQueue κ)} (hf : Fifo w) (h : Awake w)
    (hs : EventQueue.step w a = some t) : Awake t := by
  cases a with
  | add own callback =>
    obtain rfl := EventQueue.step_add hs
    exact h
  | advance index =>
    obtain ⟨call, -, rfl⟩ := EventQueue.step_advance hs
    intro ho _
    refine EventQueue.eventfd_advance (fun hq => ?_) (h ho)
    change w.state.pending = [] at hq
    simp [add, hq]
  | handleEvents =>
    obtain ⟨-, -, rfl⟩ := EventQueue.step_handle_events hs
    rintro (ho | ho)
    · cases ho
    · cases ho
  | process choice =>
    obtain ⟨consumer, u, next, hw, hp, rfl⟩ := EventQueue.step_process hs
    have he : process w.state consumer = (u, next) := Option.some.inj hp
    have ha := awake_process hf h hw
    rw [he] at ha
    exact ha
  | resume =>
    obtain ⟨callback, consumer, hw, rfl⟩ := EventQueue.step_resume hs
    rintro (ho | ho)
    · cases ho
    · exact h (.inr (by rw [hw]; exact ho))

theorem awake_reachable (h : (EventQueue.system (eventQueue κ)).Reachable w) : Awake w := by
  refine (Transition.System.invariant (I := fun w => Fifo w ∧ Awake w) ?_ ?_ h).2
  · rintro _ rfl
    exact ⟨⟨rfl, fun _ => rfl⟩, fun _ hn => absurd rfl hn⟩
  · rintro s a u ⟨hf, ha⟩ hs
    exact ⟨fifo_step hf hs, awake_step hf ha hs⟩

def held (w : World κ) : List κ := unrun w.status.consumer ++ w.state.pending

end EventDoubleBufferQueue

theorem mutex_queues_wake_in_order (κ : Type)
    (as : List (EventQueue.Action (EventBlockingQueue.eventQueue κ)))
    (bs : List (EventQueue.Action (EventDoubleBufferQueue.eventQueue κ))) :
    (EventQueue.system _).Always (EventQueue.WakesInOrder EventBlockingQueue.held) (.init _) as ∧
      (EventQueue.system _).Always (EventQueue.WakesInOrder EventDoubleBufferQueue.held)
        (.init _) bs := by
  constructor
  · refine Transition.System.always_of_run fun cs t _ ht => ?_
    have hr := Transition.System.reachable_run (.start rfl) ht
    exact EventQueue.wakes_in_order hr (EventBlockingQueue.fifo_reachable hr)
      (EventBlockingQueue.awake_reachable hr)
  · refine Transition.System.always_of_run fun cs t _ ht => ?_
    have hr := Transition.System.reachable_run (.start rfl) ht
    exact EventQueue.wakes_in_order hr (EventDoubleBufferQueue.fifo_reachable hr).order
      fun ho => EventDoubleBufferQueue.awake_reachable hr (.inl ho)

end Pedronet
