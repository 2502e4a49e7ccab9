import Pedronet.TcpConnection.Stream

namespace Pedronet
namespace TcpConnection

-- A connection's world takes the thread in Loop() for `Thread.loop`; here each thread has one
-- number, and the one that runs the loop may have called Send before it entered Loop().
structure Threads where
  world : World
  runner : Option Nat
  sent : List (Thread × Bytes)
  accepted : List (Thread × Bytes)

namespace Threads

inductive Action where
  | enterLoop (id : Nat)
  | leaveLoop
  | conn (action : TcpConnection.Action)
deriving DecidableEq, Repr

def init : Threads := ⟨.init, none, [], []⟩

def number (runner : Option Nat) : Thread → Thread
  | .loop => (runner.map .user).getD .loop
  | .user id => .user id

def numbered (runner : Option Nat) (es : List (Thread × Bytes)) : List (Thread × Bytes) :=
  es.map fun e => (number runner e.1, e.2)

def messagesOf : TcpConnection.Action → List (Thread × Bytes)
  | .call thread (.send _ buffer) | .call thread (.append buffer) => [(thread, buffer)]
  | _ => []

def allowed (runner : Option Nat) : TcpConnection.Action → Bool
  | .call (.user id) _ | .user id => runner != some id
  | .call .loop _ | .exec _ | .ret | .enter | .task _ | .events _ => runner.isSome

def step (s : Threads) : Action → Option Threads
  | .enterLoop id =>
    if s.runner = none ∧ s.world.users id = [] then some { s with runner := some id } else none
  | .leaveLoop => if s.world.loop = [] then some { s with runner := none } else none
  | .conn a =>
    if allowed s.runner a = true then
      (TcpConnection.step s.world a).map fun w =>
        { s with
          world := w
          sent := s.sent ++ numbered s.runner (messagesOf a)
          accepted := s.accepted ++
            numbered s.runner (w.conn.accepted.drop s.world.conn.accepted.length) }
    else none

def system : Transition.System Threads Action where
  start s := s = init
  step := step

-- A thread sends on the loop only when none of its own messages is still queued.
def InTurn (s : Threads) : Action → Prop
  | .conn (.call .loop (.send _ _)) | .conn (.call .loop (.append _)) =>
    ∀ id ∈ s.runner, queued (.user id) s.world.tasks = []
  | _ => True

instance (s : Threads) : DecidablePred (InTurn s)
  | .conn (.call .loop (.send _ _)) | .conn (.call .loop (.append _)) =>
    inferInstanceAs (Decidable (∀ _ ∈ _, _))
  | .conn (.call .loop .start) | .conn (.call .loop .sendOutput) | .conn (.call .loop .close)
  | .conn (.call .loop .forceClose) | .conn (.call .loop .shutdown)
  | .conn (.call .loop .forceShutdown) | .conn (.call (.user _) _) | .conn (.user _)
  | .conn (.exec _) | .conn .ret | .conn .enter | .conn (.task _) | .conn (.events _)
  | .enterLoop _ | .leaveLoop => isTrue trivial

-- The output is the accepted messages, whole and once each, and every thread's in its own order.
structure Streams (s : Threads) : Prop where
  bytes : s.world.conn.writeFailed = false →
    s.world.conn.written ++ (s.world.conn.output ++ unsent s.world.loop) =
      s.accepted.flatMap Prod.snd
  order : ∀ id, (messages (.user id) s.accepted).Sublist (messages (.user id) s.sent)

variable {s t : Threads} {id : Nat} {runner : Option Nat}

theorem step_conn {a : TcpConnection.Action} (h : step s (.conn a) = some t) :
    allowed s.runner a = true ∧ ∃ w, TcpConnection.step s.world a = some w ∧
      t = { s with
        world := w
        sent := s.sent ++ numbered s.runner (messagesOf a)
        accepted := s.accepted ++
          numbered s.runner (w.conn.accepted.drop s.world.conn.accepted.length) } := by
  simp only [step] at h
  split at h
  · rename_i ha
    obtain ⟨w, hw, rfl⟩ := Option.map_eq_some_iff.mp h
    exact ⟨ha, w, hw, rfl⟩
  · cases h

theorem messages_append (τ : Thread) (es fs : List (Thread × Bytes)) :
    messages τ (es ++ fs) = messages τ es ++ messages τ fs := List.flatMap_append

theorem numbered_append (es fs : List (Thread × Bytes)) :
    numbered runner (es ++ fs) = numbered runner es ++ numbered runner fs := List.map_append

theorem numbered_bytes (es : List (Thread × Bytes)) :
    (numbered runner es).flatMap Prod.snd = es.flatMap Prod.snd := List.flatMap_map ..

theorem messages_numbered_other (h : runner ≠ some id) (buffer : Bytes) :
    messages (.user id) (numbered runner [(.loop, buffer)]) = [] := by
  cases runner with
  | none => rfl
  | some r =>
    have hr : ¬ r = id := fun he => h (congrArg some he)
    simp [messages, numbered, number, hr]

def onTheWay (runner : Option Nat) (w : World) (id : Nat) : List Bytes :=
  messages (.user id) (numbered runner (entries w.loop)) ++
    (queued (.user id) w.tasks ++ calling w.users (.user id))

structure Sound (s : Threads) : Prop where
  layered : Layered s.world
  streamed : Streamed s.world
  bytes : s.accepted.flatMap Prod.snd = stream s.world.conn
  asleep : s.runner = none → s.world.loop = []
  idle : ∀ id ∈ s.runner, s.world.users id = []
  order : ∀ id, (messages (.user id) s.accepted ++ onTheWay s.runner s.world id).Sublist
    (messages (.user id) s.sent)

theorem sound_init : Sound init where
  layered := layered_init
  streamed := streamed_init
  bytes := rfl
  asleep _ := rfl
  idle _ h := by cases h
  order id := List.nil_sublist _

theorem on_loop_entries (op : Op) (rest : List Instr) :
    entries (op.onLoop :: rest) = messagesOf (.call .loop op) := by
  cases op <;> rfl

theorem user_messages (i : Nat) (op : Op) :
    messages (.user id) (numbered runner (messagesOf (.call (.user i) op))) =
      (TcpConnection.Action.call (.user i) op).sends (.user id) := by
  cases op <;> simp [messages, numbered, number, messagesOf, TcpConnection.Action.sends]

theorem task_messages (i : Nat) (job : Task) :
    messages (.user id) (numbered runner (entries [.task (.user i) job])) =
      if Thread.user i = .user id then job.sends else [] := by
  cases job <;> simp [messages, numbered, number, entries, Task.sends]

variable {w u : World}

-- A message sent on the loop overtakes what its own thread has queued, and nothing else.
theorem call_loop_turn (id : Nat) {op : Op} (hr : ∀ r ∈ runner, w.users r = [])
    (ht : messagesOf (.call .loop op) ≠ [] → ∀ r ∈ runner, queued (.user r) w.tasks = []) :
    messages (.user id) (numbered runner (messagesOf (.call .loop op))) ++
        (queued (.user id) w.tasks ++ calling w.users (.user id)) =
      (queued (.user id) w.tasks ++ calling w.users (.user id)) ++
        messages (.user id) (numbered runner (messagesOf (.call .loop op))) := by
  by_cases hrun : runner = some id
  · have hc : calling w.users (.user id) = [] := by rw [calling, hr id hrun]; rfl
    by_cases hm : messagesOf (.call .loop op) = []
    · rw [hm, hc]
      exact (List.append_nil _).symm
    · rw [hc, ht hm id hrun, List.append_nil, List.nil_append, List.append_nil]
  · have hm : messages (.user id) (numbered runner (messagesOf (.call .loop op))) = [] := by
      cases op <;> first | rfl | exact messages_numbered_other hrun _
    rw [hm, List.nil_append, List.append_nil]

theorem turn_of_in_turn {op : Op} (hi : InTurn s (.conn (.call .loop op)))
    (hm : messagesOf (.call .loop op) ≠ []) :
    ∀ r ∈ s.runner, queued (.user r) s.world.tasks = [] := by
  cases op <;> first | exact hi | exact absurd rfl hm

theorem world_step {a : TcpConnection.Action} (k : Sound s) (hi : InTurn s (.conn a))
    (ha : allowed s.runner a = true) (h : TcpConnection.step s.world a = some u) :
    ∃ new, u.conn.accepted = s.world.conn.accepted ++ new ∧ ∀ id,
      (messages (.user id) (numbered s.runner new) ++ onTheWay s.runner u id).Sublist
        (onTheWay s.runner s.world id ++
          messages (.user id) (numbered s.runner (messagesOf a))) := by
  cases a with
  | call thread op =>
    cases thread with
    | loop =>
      have hturn := fun id => call_loop_turn id k.idle (turn_of_in_turn hi)
      obtain ⟨handler, rest, hl, rfl⟩ := TcpConnection.step_call_loop h
      refine ⟨[], (List.append_nil _).symm, fun id => ?_⟩
      simp only [onTheWay, World.record, on_loop_entries, hturn, hl]
      exact List.Sublist.refl _
    | user i =>
      refine ⟨[], ?_, fun id => ?_⟩
      · rw [(call_user_handed (τ := .loop) h).2.1, List.append_nil]
      · obtain ⟨hl, -, hq⟩ := call_user_handed (τ := .user id) h
        rw [user_messages, onTheWay, onTheWay, hl, hq]
        simp [numbered, messages]
  | user i =>
    refine ⟨[], ?_, fun id => ?_⟩
    · rw [(user_handed (τ := .loop) h).2.1, List.append_nil]
    · obtain ⟨hl, -, hq⟩ := user_handed (τ := .user id) h
      rw [onTheWay, onTheWay, hl, hq]
      simp [numbered, messages, messagesOf]
  | exec env =>
    obtain ⟨i, rest, c, push, hl, he, rfl⟩ := step_executes h
    have hr : ∀ j ∈ rest, j.below = true := fun j hj => k.layered j (by rw [hl]; exact hj)
    obtain ⟨new, hd, hm | ⟨-, rfl, hm⟩⟩ := executes_entries he hr
    · refine ⟨new, hd, fun id => ?_⟩
      simp only [onTheWay, hl, ← hm, numbered_append, messages_append, List.append_assoc]
      simp [messagesOf, numbered, messages]
    · refine ⟨[], hd, fun id => ?_⟩
      simp only [onTheWay, hm]
      exact (List.sublist_append_right _ _).trans (List.sublist_append_left _ _)
  | ret =>
    obtain ⟨handler, rest, hl, rfl⟩ := TcpConnection.step_ret h
    have hr : ∀ i ∈ rest, i.below = true := fun i hi => k.layered i (by rw [hl]; exact hi)
    refine ⟨[], (List.append_nil _).symm, fun id => ?_⟩
    simp only [onTheWay, hl, entries_rest hr]
    simp [entries, messagesOf, numbered, messages]
  | enter =>
    obtain ⟨hl, rfl⟩ := TcpConnection.step_enter h
    refine ⟨[], (List.append_nil _).symm, fun id => ?_⟩
    simp [onTheWay, hl, entries, messagesOf, numbered, messages]
  | task index =>
    obtain ⟨i, job, hl, ht, hf, rfl⟩ := TcpConnection.step_task h
    refine ⟨[], (List.append_nil _).symm, fun id => ?_⟩
    simp only [onTheWay, hl, task_messages, queued_take ht hf]
    simp [entries, messagesOf, numbered, messages]
  | events events =>
    obtain ⟨hl, -, rfl⟩ := TcpConnection.step_events h
    refine ⟨[], (List.append_nil _).symm, fun id => ?_⟩
    simp only [onTheWay, hl, entries_rest (events_below events)]
    simp [entries, messagesOf, numbered, messages]

theorem idle_step {a : TcpConnection.Action} (ha : allowed runner a = true)
    (hi : ∀ id ∈ runner, w.users id = []) (h : TcpConnection.step w a = some u) :
    ∀ id ∈ runner, u.users id = [] := by
  intro id hid
  rw [← hi id hid]
  have hne : ∀ i, (runner != some i) = true → id ≠ i := by
    rintro i hn rfl
    exact ne_of_beq_false (by simpa using hn) hid
  cases a with
  | call thread op =>
    cases thread with
    | loop =>
      obtain ⟨handler, rest, -, rfl⟩ := TcpConnection.step_call_loop h
      rfl
    | user i =>
      obtain ⟨pc, -, -, rfl⟩ := TcpConnection.step_call_user h
      exact if_neg (hne i ha)
  | user i =>
    rcases step_calls h with ⟨job, rest, -, rfl⟩ | ⟨pc, rest, c, pcs, -, -, rfl⟩
    · exact if_neg (hne i ha)
    · exact if_neg (hne i ha)
  | exec env =>
    obtain ⟨i, rest, c, push, -, -, rfl⟩ := step_executes h
    rfl
  | ret =>
    obtain ⟨handler, rest, -, rfl⟩ := TcpConnection.step_ret h
    rfl
  | enter =>
    obtain ⟨-, rfl⟩ := TcpConnection.step_enter h
    rfl
  | task index =>
    obtain ⟨i, job, -, -, -, rfl⟩ := TcpConnection.step_task h
    rfl
  | events events =>
    obtain ⟨-, -, rfl⟩ := TcpConnection.step_events h
    rfl

theorem asleep_step {a : TcpConnection.Action} (ha : allowed none a = true)
    (h : TcpConnection.step w a = some u) : u.loop = w.loop := by
  cases a with
  | call thread op =>
    cases thread with
    | loop => cases ha
    | user i => exact (call_user_handed (τ := .loop) h).1
  | user i => exact (user_handed (τ := .loop) h).1
  | _ => cases ha

theorem sound_step {a : Action} (k : Sound s) (hi : InTurn s a) (h : step s a = some t) :
    Sound t := by
  cases a with
  | enterLoop id =>
    simp only [step] at h
    split at h
    · rename_i hc
      cases h
      have hl := k.asleep hc.1
      refine ⟨k.layered, k.streamed, k.bytes, fun hr => (by cases hr), ?_, fun i => ?_⟩
      · rintro i hm
        cases hm
        exact hc.2
      · have ho := k.order i
        simp only [onTheWay, hl] at ho ⊢
        exact ho
    · cases h
  | leaveLoop =>
    simp only [step] at h
    split at h
    · rename_i hl
      cases h
      refine ⟨k.layered, k.streamed, k.bytes, fun _ => hl, fun i hm => (by cases hm), fun i => ?_⟩
      have ho := k.order i
      simp only [onTheWay, hl] at ho ⊢
      exact ho
    · cases h
  | conn a =>
    obtain ⟨ha, u, hu, rfl⟩ := step_conn h
    obtain ⟨new, hnew, hmoves⟩ := world_step k hi ha hu
    have hdrop : u.conn.accepted.drop s.world.conn.accepted.length = new := by
      rw [hnew, List.drop_left]
    refine ⟨layered_step k.layered hu, streamed_step k.streamed hu, ?_, fun hr => ?_,
      idle_step ha k.idle hu, fun id => ?_⟩
    · rw [List.flatMap_append, numbered_bytes, hdrop, k.bytes, stream, stream, hnew,
        List.flatMap_append]
    · have hr' : s.runner = none := hr
      rw [asleep_step (hr' ▸ ha) hu, k.asleep hr']
    · simp only [hdrop, messages_append, List.append_assoc]
      refine ((hmoves id).append_left _).trans ?_
      rw [← List.append_assoc]
      exact (k.order id).append_right _

theorem streams_of_sound (k : Sound s) : Streams s where
  bytes hf := by rw [k.bytes, k.streamed.bytes hf]
  order id := (List.sublist_append_left _ _).trans (k.order id)

theorem streams_in_order {as : List Action} (hg : system.Along InTurn init as) :
    system.Always Streams init as :=
  Transition.System.always_of_along (fun _ _ _ k hi h => sound_step k hi h)
    (fun _ k => streams_of_sound k) sound_init hg

-- Thread 0 starts the connection and sends before it enters Loop(); OnConnect sends on the loop.
def sendsEarly : List Action :=
  [.conn (.call (.user 0) .start), .conn (.user 0), .conn (.user 0),
    .conn (.call (.user 0) (.send .string [1])), .conn (.user 0), .enterLoop 0, .conn (.task 0),
    .conn (.exec .none), .conn (.exec .none)]

def sendsOnLoop : List Action :=
  [.conn (.call .loop (.send .string [2])), .conn (.exec .none), .conn (.exec .none),
    .conn (.exec (.write (.wrote 1))), .conn (.exec .none)]

def runsQueuedSend : List Action :=
  [.conn (.task 0), .conn (.exec .none), .conn (.exec (.write (.wrote 1))), .conn (.exec .none)]

def sendsLater : List Action :=
  sendsEarly ++ [.conn .ret, .conn (.exec .none)] ++ runsQueuedSend ++ [.conn .enter] ++ sendsOnLoop

theorem streams_in_order_later :
    ∃ s, system.run init sendsLater = some s ∧ messages (.user 0) s.accepted = [[1], [2]] ∧
      Streams s := by
  have h : system.Always Streams init sendsLater := streams_in_order (by decide)
  exact ⟨_, rfl, rfl, Transition.System.always_last h rfl⟩

theorem own_sends_swapped : ¬ ∀ as, system.Always Streams init as := by
  intro h
  have hs := Transition.System.always_last
    (h (sendsEarly ++ sendsOnLoop ++ [.conn .ret, .conn (.exec .none)] ++ runsQueuedSend)) rfl
  exact absurd (hs.order 0) (by decide)

end Threads
end TcpConnection
end Pedronet
