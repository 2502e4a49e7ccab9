import Pedronet.Transition
import Pedronet.SocketChannel

namespace Pedronet
namespace Acceptor

inductive Call where
  | listen
  | close
deriving DecidableEq, Repr

-- What EventLoop::Add and EventLoop::Remove schedule when another thread calls them.
inductive Task where
  | add
  | remove (latch : Nat)
deriving DecidableEq, Repr

end Acceptor

open Acceptor

-- `latches` has the count of each Close call's latch; the caller waits for the one of its last call.
structure Acceptor where
  channel : SocketChannel
  listening : Bool
  latches : List Nat
  tasks : List Task
  waiting : Option Nat
  calls : List Call
deriving DecidableEq, Repr

namespace Acceptor

inductive Action where
  | listen
  | close
  | await
  | task
deriving DecidableEq, Repr

def create : Acceptor := ⟨.create, false, [], [], none, []⟩

def countDown (a : Acceptor) (latch : Nat) : Acceptor :=
  { a with latches := a.latches.modify latch (· - 1) }

def runTask (a : Acceptor) : Task → Acceptor
  | .add =>
    if a.channel.registered then a
    else { a with channel := a.channel.add.setReadable true, listening := true }
  | .remove latch =>
    if a.channel.registered then { a with channel := a.channel.remove }.countDown latch else a

def step (a : Acceptor) : Action → Option Acceptor
  | .listen =>
    match a.waiting with
    | none => some { a with tasks := a.tasks ++ [.add], calls := a.calls ++ [.listen] }
    | some _ => none
  | .close =>
    match a.waiting with
    | none =>
      some { a with
        latches := a.latches ++ [1]
        tasks := a.tasks ++ [.remove a.latches.length]
        waiting := some a.latches.length
        calls := a.calls ++ [.close] }
    | some _ => none
  | .await =>
    match a.waiting with
    | some latch => if a.latches[latch]? = some 0 then some { a with waiting := none } else none
    | none => none
  | .task =>
    match a.tasks with
    | task :: rest => some ({ a with tasks := rest }.runTask task)
    | [] => none

def system : Transition.System Acceptor Action where
  start a := a = create
  step := step

variable {a b : Acceptor}

theorem step_listen (h : step a .listen = some b) :
    b = { a with tasks := a.tasks ++ [.add], calls := a.calls ++ [.listen] } := by
  simp only [step] at h
  split at h
  · simpa using h.symm
  · cases h

theorem step_close (h : step a .close = some b) :
    b = { a with
      latches := a.latches ++ [1]
      tasks := a.tasks ++ [.remove a.latches.length]
      waiting := some a.latches.length
      calls := a.calls ++ [.close] } := by
  simp only [step] at h
  split at h
  · simpa using h.symm
  · cases h

theorem step_await (h : step a .await = some b) : b = { a with waiting := none } := by
  simp only [step] at h
  split at h
  · split at h
    · simpa using h.symm
    · cases h
  · cases h

theorem step_task (h : step a .task = some b) :
    ∃ task rest, a.tasks = task :: rest ∧ b = { a with tasks := rest }.runTask task := by
  simp only [step] at h
  split at h
  · rename_i task rest ht
    exact ⟨task, rest, ht, by simpa using h.symm⟩
  · cases h

-- Each Close comes directly after a Listen; `listening` tells whether the calls before end with one.
def InTurn (listening : Bool) : List Call → Prop
  | [] => True
  | .listen :: rest => InTurn true rest
  | .close :: rest => listening = true ∧ InTurn false rest

def decidableInTurn : (listening : Bool) → (calls : List Call) → Decidable (InTurn listening calls)
  | _, [] => isTrue trivial
  | _, .listen :: rest => decidableInTurn true rest
  | _, .close :: rest =>
    have := decidableInTurn false rest
    inferInstanceAs (Decidable (_ ∧ _))

instance (listening : Bool) (calls : List Call) : Decidable (InTurn listening calls) :=
  decidableInTurn listening calls

def endsListening (listening : Bool) : List Call → Bool
  | [] => listening
  | .listen :: rest => endsListening true rest
  | .close :: rest => endsListening false rest

def counts (listening : Bool) : List Call → List Nat
  | [] => []
  | .listen :: rest => counts true rest
  | .close :: rest => (if listening then 0 else 1) :: counts false rest

theorem counts_zero_iff (listening : Bool) (calls : List Call) :
    (∀ n ∈ counts listening calls, n = 0) ↔ InTurn listening calls := by
  induction calls generalizing listening with
  | nil => simp [counts, InTurn]
  | cons call rest ih =>
    cases call with
    | listen => exact ih true
    | close =>
      simp only [counts, InTurn, List.forall_mem_cons, ih false]
      cases listening <;> simp

theorem ends_append (listening : Bool) (calls : List Call) (call : Call) :
    endsListening listening (calls ++ [call]) = (call == .listen) := by
  induction calls generalizing listening with
  | nil => cases call <;> rfl
  | cons head rest ih => cases head <;> exact ih _

theorem counts_listen (listening : Bool) (calls : List Call) :
    counts listening (calls ++ [.listen]) = counts listening calls := by
  induction calls generalizing listening with
  | nil => rfl
  | cons head rest ih =>
    cases head with
    | listen => exact ih true
    | close => exact congrArg (List.cons _) (ih false)

theorem counts_close (listening : Bool) (calls : List Call) :
    counts listening (calls ++ [.close]) =
      counts listening calls ++ [if endsListening listening calls then 0 else 1] := by
  induction calls generalizing listening with
  | nil => rfl
  | cons head rest ih =>
    cases head with
    | listen => exact ih true
    | close => exact congrArg (List.cons _) (ih false)

def drain (a : Acceptor) (tasks : List Task) : Acceptor := tasks.foldl runTask a

theorem drain_append (a : Acceptor) (tasks : List Task) (task : Task) :
    a.drain (tasks ++ [task]) = (a.drain tasks).runTask task := by
  simp [drain, List.foldl_append]

structure Same (a b : Acceptor) : Prop where
  registered : a.channel.registered = b.channel.registered
  latches : a.latches = b.latches

theorem run_task_same (h : Same a b) (task : Task) : Same (a.runTask task) (b.runTask task) := by
  obtain ⟨hr, hl⟩ := h
  cases task with
  | add =>
    simp only [runTask, hr]
    split
    · exact ⟨hr, hl⟩
    · exact ⟨by simp, hl⟩
  | remove latch =>
    simp only [runTask, hr]
    split
    · exact ⟨rfl, by simp [countDown, hl]⟩
    · exact ⟨hr, hl⟩

theorem drain_same (h : Same a b) (tasks : List Task) : Same (a.drain tasks) (b.drain tasks) := by
  induction tasks generalizing a b with
  | nil => exact h
  | cons task rest ih => exact ih (run_task_same h task)

theorem run_task_length (a : Acceptor) (task : Task) :
    (a.runTask task).latches.length = a.latches.length := by
  cases task with
  | add =>
    simp only [runTask]
    split <;> rfl
  | remove latch =>
    simp only [runTask]
    split
    · simp [countDown]
    · rfl

theorem drain_length (a : Acceptor) (tasks : List Task) :
    (a.drain tasks).latches.length = a.latches.length := by
  induction tasks generalizing a with
  | nil => rfl
  | cons task rest ih => exact (ih (a.runTask task)).trans (run_task_length a task)

theorem modify_before {l : List Nat} {i : Nat} (f : Nat → Nat) (n : Nat) (h : i < l.length) :
    (l ++ [n]).modify i f = l.modify i f ++ [n] := by
  induction l generalizing i with
  | nil => cases h
  | cons head rest ih =>
    cases i with
    | zero => rfl
    | succ i => simpa using ih (Nat.lt_of_succ_lt_succ h)

theorem modify_last (l : List Nat) (f : Nat → Nat) (n : Nat) :
    (l ++ [n]).modify l.length f = l ++ [f n] := by
  induction l with
  | nil => rfl
  | cons head rest ih => simpa using ih

def push (a : Acceptor) : Acceptor := { a with latches := a.latches ++ [1] }

theorem run_task_push {task : Task} (h : ∀ latch, task = .remove latch → latch < a.latches.length) :
    a.push.runTask task = (a.runTask task).push := by
  cases task with
  | add => by_cases hr : a.channel.registered = true <;> simp [runTask, push, hr]
  | remove latch =>
    by_cases hr : a.channel.registered = true
    · simp only [runTask, push, hr, if_true, countDown]
      rw [modify_before _ _ (h latch rfl)]
    · simp [runTask, push, hr]

theorem drain_push {tasks : List Task}
    (h : ∀ latch, .remove latch ∈ tasks → latch < a.latches.length) :
    a.push.drain tasks = (a.drain tasks).push := by
  induction tasks generalizing a with
  | nil => rfl
  | cons task rest ih =>
    have hpush : a.push.runTask task = (a.runTask task).push :=
      run_task_push fun latch he => h latch (he ▸ List.mem_cons_self)
    calc a.push.drain (task :: rest) = (a.push.runTask task).drain rest := rfl
      _ = (a.runTask task).push.drain rest := by rw [hpush]
      _ = ((a.runTask task).drain rest).push := ih fun latch hm => by
          rw [run_task_length]
          exact h latch (List.mem_cons_of_mem _ hm)

structure Settles (a : Acceptor) : Prop where
  registered : (a.drain a.tasks).channel.registered = endsListening false a.calls
  latches : (a.drain a.tasks).latches = counts false a.calls
  bounded : ∀ latch, .remove latch ∈ a.tasks → latch < a.latches.length

theorem settles_listen (s : Settles a) (h : step a .listen = some b) : Settles b := by
  obtain rfl := step_listen h
  have hsame := drain_same (a := { a with tasks := a.tasks ++ [.add], calls := a.calls ++ [.listen] })
    (b := a) ⟨rfl, rfl⟩ a.tasks
  refine ⟨?_, ?_, fun latch hm => s.bounded latch (by simpa using hm)⟩
  · rw [drain_append, ends_append]
    simp only [runTask]
    split
    · assumption
    · simp
  · rw [drain_append, counts_listen, ← s.latches, ← hsame.latches]
    simp only [runTask]
    split <;> rfl

theorem settles_close (s : Settles a) (h : step a .close = some b) : Settles b := by
  obtain rfl := step_close h
  have hsame := drain_same (a := { a with
      latches := a.latches ++ [1]
      tasks := a.tasks ++ [.remove a.latches.length]
      waiting := some a.latches.length
      calls := a.calls ++ [.close] }) (b := a.push) ⟨rfl, rfl⟩ a.tasks
  rw [drain_push s.bounded] at hsame
  have hlast : ((a.drain a.tasks).latches ++ [1]).modify a.latches.length (· - 1) =
      (a.drain a.tasks).latches ++ [0] := by
    rw [← drain_length a a.tasks, modify_last]
  refine ⟨?_, ?_, fun latch hm => ?_⟩
  · rw [drain_append, ends_append]
    simp only [runTask]
    split
    · rfl
    · rename_i hr
      exact Bool.eq_false_iff.mpr hr
  · rw [drain_append, counts_close, ← s.latches, ← s.registered]
    simp only [runTask, hsame.registered]
    change (if (a.drain a.tasks).channel.registered = true then _ else _ : Acceptor).latches = _
    split
    · simp only [countDown, hsame.latches]
      exact hlast
    · exact hsame.latches
  · rcases List.mem_append.mp hm with hm | hm
    · have := s.bounded latch hm
      simp only [List.length_append, List.length_singleton]
      omega
    · cases List.mem_singleton.mp hm
      simp

theorem settles_step {x : Action} (s : Settles a) (h : step a x = some b) : Settles b := by
  cases x with
  | listen => exact settles_listen s h
  | close => exact settles_close s h
  | await =>
    obtain rfl := step_await h
    have hsame := drain_same (a := { a with waiting := none }) (b := a) ⟨rfl, rfl⟩ a.tasks
    exact ⟨hsame.registered.trans s.registered, hsame.latches.trans s.latches, s.bounded⟩
  | task =>
    obtain ⟨task, rest, ht, rfl⟩ := step_task h
    have hkept : ({ a with tasks := rest }.runTask task).tasks = rest ∧
        ({ a with tasks := rest }.runTask task).calls = a.calls := by
      cases task <;> (simp only [runTask]; split <;> exact ⟨rfl, rfl⟩)
    have hsame := drain_same
      (run_task_same (a := { a with tasks := rest }) (b := a) ⟨rfl, rfl⟩ task) rest
    have hdrain : (a.runTask task).drain rest = a.drain a.tasks := by
      rw [ht]
      rfl
    rw [hdrain] at hsame
    refine ⟨?_, ?_, fun latch hm => ?_⟩
    · rw [hkept.1, hkept.2, hsame.registered]
      exact s.registered
    · rw [hkept.1, hkept.2, hsame.latches]
      exact s.latches
    · rw [run_task_length]
      rw [hkept.1] at hm
      exact s.bounded latch (by rw [ht]; exact List.mem_cons_of_mem _ hm)

theorem settles_create : Settles create := by
  refine ⟨rfl, rfl, fun latch hm => ?_⟩
  cases hm

def CountedDown (a : Acceptor) : Prop := ∀ n ∈ a.latches, n = 0

theorem closes_return_iff (as : List Action) {a : Acceptor} (h : system.run create as = some a)
    (ht : a.tasks = []) : CountedDown a ↔ InTurn false a.calls := by
  have hs : Settles a := Transition.System.invariant (M := system)
    (fun _ hc => hc ▸ settles_create) (fun _ _ _ s h => settles_step s h)
    (Transition.System.reachable_run (.start rfl) h)
  have hl := hs.latches
  rw [ht] at hl
  rw [← counts_zero_iff, ← hl]
  rfl

def relistened : List Action := [.listen, .task, .close, .task, .await, .listen, .close, .task, .task]

theorem closes_return_relistened :
    ∃ a, system.run create relistened = some a ∧ CountedDown a := by
  refine ⟨_, rfl, ?_⟩
  exact (closes_return_iff relistened rfl rfl).mpr (by decide)

-- TcpServer::Close closes the acceptor, ~Acceptor closes it again.
def closedTwice : List Action := [.listen, .task, .close, .task, .await, .close, .task]

theorem second_close_blocks :
    ¬ ∀ as a, system.run create as = some a → a.tasks = [] → CountedDown a := by
  intro h
  have hc := h closedTwice _ rfl rfl
  cases hc 1 (by decide)

end Acceptor
end Pedronet
