import Pedronet.EventQueue.LockFree
import Pedronet.EventQueue.Mutex

namespace Pedronet

inductive EventQueueType where
  | kBlockingQueue
  | kDoubleBufferQueue
  | kLockFreeQueue
deriving DecidableEq, Repr

def makeEventQueue (κ : Type) [DecidableEq κ] : EventQueueType → EventQueue κ
  | .kBlockingQueue => EventBlockingQueue.eventQueue κ
  | .kDoubleBufferQueue => EventDoubleBufferQueue.eventQueue κ
  | .kLockFreeQueue => EventLockFreeQueue.eventQueue κ

theorem lawful_make (κ : Type) [DecidableEq κ] (type : EventQueueType) :
    (makeEventQueue κ type).Lawful := by
  cases type with
  | kBlockingQueue => exact EventBlockingQueue.lawful
  | kDoubleBufferQueue => exact EventDoubleBufferQueue.lawful
  | kLockFreeQueue => exact EventLockFreeQueue.lawful

namespace EventLoop

def kLooping : BitVec 32 := 1#32 <<< 0
def kJoinable : BitVec 32 := 1#32 <<< 1

inductive Callback where
  | user (id : Nat)
  | close
deriving DecidableEq, Repr

inductive Source where
  | event
  | timer
  | socket
deriving DecidableEq, Repr

inductive LoopPc where
  | load
  | exchange (expected : BitVec 32)
  | test
  | wait
  | batch (rest : List Source)
  | handling (rest : List Source)
  | processing (rest : List Source)
  | returned
deriving DecidableEq, Repr

-- One Close in a run; EventLoop.Exclusive has any number of them.
inductive ClosePc where
  | idle
  | called (own : Bool)
  | cleared (own : Bool)
  | scheduled
deriving DecidableEq, Repr

-- The loop thread cannot go on while a call of its own is in progress.
def ClosePc.own : ClosePc → Bool
  | .called own | .cleared own => own
  | _ => false

structure World (Q : EventQueue Callback) where
  state : BitVec 32
  pc : LoopPc
  eventRegistered : Bool
  timerRegistered : Bool
  latch : Nat
  queue : EventQueue.World Q
  fresh : Nat
  closing : ClosePc
  before : List Callback

inductive Action (Q : EventQueue Callback) where
  | load
  | exchange
  | test
  | wait (ready : Option (List Source))
  | next
  | leave
  | process (choice : Q.Choice)
  | resume
  | schedule (own : Bool)
  | advance (index : Nat)
  | close (own : Bool)
  | clear
  | scheduleClose

variable {Q : EventQueue Callback}

variable (Q) in
def World.init : World Q := ⟨0, .load, true, true, 1, .init Q, 0, .idle, []⟩

def looping (state : BitVec 32) : Bool := state &&& kLooping != 0

def World.free (w : World Q) : Bool := w.queue.free && !w.closing.own

def World.userCode (w : World Q) : Bool :=
  match w.pc, w.queue.status with
  | .handling _, _ => true
  | .processing _, .running (.user _) _ => true
  | _, _ => false

def World.mayCall (w : World Q) (own : Bool) : Bool := !own || (w.userCode && w.free)

def World.reported (w : World Q) (batch : List Source) : Bool :=
  batch.all fun source =>
    match source with
    | .event => w.eventRegistered && decide (0 < w.queue.eventfd)
    | .timer => w.timerRegistered
    | .socket => true

def World.follow (w : World Q) (rest : List Source) (queue : EventQueue.World Q) : World Q :=
  match queue.status with
  | .outside => { w with queue := queue, pc := .batch rest }
  | .running .close _ =>
    { w with
      queue := queue
      eventRegistered := false
      timerRegistered := false
      latch := w.latch - 1 }
  | _ => { w with queue := queue }

def World.joins (w : World Q) : Bool := w.state &&& kJoinable == 0 || w.latch == 0

def dispatch (w : World Q) : List Source → Option (World Q)
  | [] => some { w with pc := .test }
  | .event :: rest =>
    if w.eventRegistered = true then
      (EventQueue.step w.queue .handleEvents).map fun queue =>
        { w with queue := queue, pc := .processing rest }
    else some { w with pc := .batch rest }
  | .timer :: rest =>
    some { w with pc := if w.timerRegistered then .handling rest else .batch rest }
  | .socket :: rest => some { w with pc := .handling rest }

def step (w : World Q) : Action Q → Option (World Q)
  | .load =>
    match w.pc with
    | .load => some { w with pc := if looping w.state then .returned else .exchange w.state }
    | _ => none
  | .exchange =>
    match w.pc with
    | .exchange expected =>
      if w.state = expected then some { w with state := kLooping ||| kJoinable, pc := .test }
      else some { w with pc := .load }
    | _ => none
  | .test =>
    match w.pc with
    | .test => some { w with pc := if looping w.state then .wait else .returned }
    | _ => none
  | .wait ready =>
    match w.pc, ready with
    | .wait, none => some { w with pc := .test }
    | .wait, some batch => if w.reported batch = true then some { w with pc := .batch batch } else none
    | _, _ => none
  | .next =>
    match w.pc with
    | .batch rest => dispatch w rest
    | _ => none
  | .leave =>
    match w.pc, w.free with
    | .handling rest, true => some { w with pc := .batch rest }
    | _, _ => none
  | .process choice =>
    match w.pc with
    | .processing rest => (EventQueue.step w.queue (.process choice)).map (w.follow rest)
    | _ => none
  | .resume =>
    match w.pc, w.free with
    | .processing _, true =>
      (EventQueue.step w.queue .resume).map fun queue => { w with queue := queue }
    | _, _ => none
  | .schedule own =>
    if w.mayCall own = true then
      (EventQueue.step w.queue (.add own (.user w.fresh))).map fun queue =>
        { w with queue := queue, fresh := w.fresh + 1 }
    else none
  | .advance index =>
    (EventQueue.step w.queue (.advance index)).map fun queue => { w with queue := queue }
  | .close own =>
    match w.closing, w.mayCall own with
    | .idle, true => some { w with closing := .called own, before := w.queue.returned }
    | _, _ => none
  | .clear =>
    match w.closing with
    | .called own => some { w with state := w.state &&& ~~~kLooping, closing := .cleared own }
    | _ => none
  | .scheduleClose =>
    match w.closing with
    | .cleared own =>
      (EventQueue.step w.queue (.add own .close)).map fun queue =>
        { w with queue := queue, closing := .scheduled }
    | _ => none

variable (Q) in
def system : Transition.System (World Q) (Action Q) where
  start w := w = .init Q
  step := step

variable {w t : World Q}

theorem step_load (h : step w .load = some t) :
    w.pc = .load ∧ t = { w with pc := if looping w.state then .returned else .exchange w.state } := by
  simp only [step] at h
  split at h
  · rename_i hpc
    exact ⟨hpc, by simpa using h.symm⟩
  · cases h

theorem step_exchange (h : step w .exchange = some t) :
    ∃ expected, w.pc = .exchange expected ∧
      (t = { w with state := kLooping ||| kJoinable, pc := .test } ∨ t = { w with pc := .load }) := by
  simp only [step] at h
  split at h
  · rename_i expected hpc
    refine ⟨expected, hpc, ?_⟩
    split at h
    · exact .inl (by simpa using h.symm)
    · exact .inr (by simpa using h.symm)
  · cases h

theorem step_test (h : step w .test = some t) :
    w.pc = .test ∧ t = { w with pc := if looping w.state then .wait else .returned } := by
  simp only [step] at h
  split at h
  · rename_i hpc
    exact ⟨hpc, by simpa using h.symm⟩
  · cases h

theorem step_wait {ready : Option (List Source)} (h : step w (.wait ready) = some t) :
    w.pc = .wait ∧ (t = { w with pc := .test } ∨ ∃ batch, t = { w with pc := .batch batch }) := by
  simp only [step] at h
  split at h
  · rename_i hpc
    exact ⟨hpc, .inl (by simpa using h.symm)⟩
  · rename_i batch hpc
    split at h
    · exact ⟨hpc, .inr ⟨batch, by simpa using h.symm⟩⟩
    · cases h
  · cases h

theorem step_next (h : step w .next = some t) :
    ∃ rest, w.pc = .batch rest ∧
      ((∃ more queue, EventQueue.step w.queue .handleEvents = some queue ∧
          t = { w with queue := queue, pc := .processing more }) ∨
        ∃ pc, (pc = .test ∨ ∃ more, pc = .batch more ∨ pc = .handling more) ∧
          t = { w with pc := pc }) := by
  simp only [step] at h
  split at h
  · rename_i rest hpc
    refine ⟨rest, hpc, ?_⟩
    unfold dispatch at h
    split at h
    · cases h
      exact .inr ⟨_, .inl rfl, rfl⟩
    · rename_i more
      split at h
      · obtain ⟨queue, hq, rfl⟩ := Option.map_eq_some_iff.mp h
        exact .inl ⟨more, queue, hq, rfl⟩
      · cases h
        exact .inr ⟨_, .inr ⟨more, .inl rfl⟩, rfl⟩
    · rename_i more
      cases h
      refine .inr ⟨_, .inr ⟨more, ?_⟩, rfl⟩
      split
      · exact .inr rfl
      · exact .inl rfl
    · rename_i more
      cases h
      exact .inr ⟨_, .inr ⟨more, .inr rfl⟩, rfl⟩
  · cases h

theorem step_leave (h : step w .leave = some t) :
    ∃ rest, w.pc = .handling rest ∧ t = { w with pc := .batch rest } := by
  simp only [step] at h
  split at h
  · rename_i rest hpc _
    exact ⟨rest, hpc, by simpa using h.symm⟩
  · cases h

theorem step_process {choice : Q.Choice} (h : step w (.process choice) = some t) :
    ∃ rest queue, w.pc = .processing rest ∧
      EventQueue.step w.queue (.process choice) = some queue ∧ t = w.follow rest queue := by
  simp only [step] at h
  split at h
  · rename_i rest hpc
    obtain ⟨queue, hq, rfl⟩ := Option.map_eq_some_iff.mp h
    exact ⟨rest, queue, hpc, hq, rfl⟩
  · cases h

theorem step_resume (h : step w .resume = some t) :
    ∃ rest queue, w.pc = .processing rest ∧ EventQueue.step w.queue .resume = some queue ∧
      t = { w with queue := queue } := by
  simp only [step] at h
  split at h
  · rename_i rest hpc _
    obtain ⟨queue, hq, rfl⟩ := Option.map_eq_some_iff.mp h
    exact ⟨rest, queue, hpc, hq, rfl⟩
  · cases h

theorem step_schedule {own : Bool} (h : step w (.schedule own) = some t) :
    ∃ queue, EventQueue.step w.queue (.add own (.user w.fresh)) = some queue ∧
      t = { w with queue := queue, fresh := w.fresh + 1 } := by
  simp only [step] at h
  split at h
  · obtain ⟨queue, hq, rfl⟩ := Option.map_eq_some_iff.mp h
    exact ⟨queue, hq, rfl⟩
  · cases h

theorem step_advance {index : Nat} (h : step w (.advance index) = some t) :
    ∃ queue, EventQueue.step w.queue (.advance index) = some queue ∧
      t = { w with queue := queue } := by
  obtain ⟨queue, hq, rfl⟩ := Option.map_eq_some_iff.mp h
  exact ⟨queue, hq, rfl⟩

theorem step_close {own : Bool} (h : step w (.close own) = some t) :
    w.closing = .idle ∧ t = { w with closing := .called own, before := w.queue.returned } := by
  simp only [step] at h
  split at h
  · rename_i hc _
    exact ⟨hc, by simpa using h.symm⟩
  · cases h

theorem step_clear (h : step w .clear = some t) :
    ∃ own, w.closing = .called own ∧
      t = { w with state := w.state &&& ~~~kLooping, closing := .cleared own } := by
  simp only [step] at h
  split at h
  · rename_i own hc
    exact ⟨own, hc, by simpa using h.symm⟩
  · cases h

theorem step_schedule_close (h : step w .scheduleClose = some t) :
    ∃ own queue, w.closing = .cleared own ∧
      EventQueue.step w.queue (.add own .close) = some queue ∧
      t = { w with queue := queue, closing := .scheduled } := by
  simp only [step] at h
  split at h
  · rename_i own hc
    obtain ⟨queue, hq, rfl⟩ := Option.map_eq_some_iff.mp h
    exact ⟨own, queue, hc, hq, rfl⟩
  · cases h

end EventLoop
end Pedronet
