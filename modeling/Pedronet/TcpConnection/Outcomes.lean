import Pedronet.TcpConnection

namespace Pedronet
namespace TcpConnection

inductive Calls (c : TcpConnection) : CallPc → TcpConnection → List CallPc → Prop where
  | start : Calls c .start { c with context := true } [.run .add]
  | close (h : c.state = .kConnected) :
    Calls c .close { c with state := .kDisconnected, closeWon := true } [.run .close]
  | closeLost (h : c.state ≠ .kConnected) : Calls c .close c []
  | forceClose (h : c.state ≠ .kDisconnected) :
    Calls c .forceClose { c with forceClosed := true } [.forceCloseStore]
  | forceClosed (h : c.state = .kDisconnected) :
    Calls c .forceClose { c with forceClosed := true } []
  | forceCloseStore : Calls c .forceCloseStore { c with state := .kDisconnected } [.run .forceClose]
  | shutdown (h : c.state = .kConnected) :
    Calls c .shutdown { c with state := .kDisconnecting } [.run .shutdown]
  | shutdownLost (h : c.state ≠ .kConnected) : Calls c .shutdown c []
  | forceShutdown (h : c.state ≠ .kDisconnected) : Calls c .forceShutdown c [.forceShutdownStore]
  | forceShutdownLost (h : c.state = .kDisconnected) : Calls c .forceShutdown c []
  | forceShutdownStore :
    Calls c .forceShutdownStore { c with state := .kDisconnecting } [.run .forceShutdown]

theorem calls_step (c : TcpConnection) {pc : CallPc} (h : ∀ task, pc ≠ .run task) :
    Calls c pc (callStep c pc).1 (callStep c pc).2 := by
  cases pc with
  | start => exact .start
  | close =>
    simp only [callStep]
    split
    · exact .close ‹_›
    · exact .closeLost ‹_›
  | forceClose =>
    simp only [callStep]
    split
    · exact .forceClosed ‹_›
    · exact .forceClose ‹_›
  | forceCloseStore => exact .forceCloseStore
  | shutdown =>
    simp only [callStep]
    split
    · exact .shutdown ‹_›
    · exact .shutdownLost ‹_›
  | forceShutdown =>
    simp only [callStep]
    split
    · exact .forceShutdownLost ‹_›
    · exact .forceShutdown ‹_›
  | forceShutdownStore => exact .forceShutdownStore
  | run task => exact absurd rfl (h task)

inductive Executes (c : TcpConnection) : Instr → TcpConnection → List Instr → Prop where
  | run (task : Task) : Executes c (.call (.run task)) c [.task .loop task]
  | call {pc : CallPc} {d : TcpConnection} {pcs : List CallPc} (h : Calls c pc d pcs) :
    Executes c (.call pc) d (pcs.map .call)
  | add (sender : Thread) (h : c.channel.registered = false) :
    Executes c (.task sender .add) { c with channel := c.channel.add } [.startCallback]
  | added (sender : Thread) (h : c.channel.registered = true) : Executes c (.task sender .add) c []
  | accept (sender : Thread) (buffer : Bytes) (h : c.state = .kConnected) :
    Executes c (.task sender (.handleSend buffer))
      { c with accepted := c.accepted ++ [(sender, buffer)] } [.directWrite buffer]
  | giveUp (sender : Thread) (buffer : Bytes) (h : c.state ≠ .kConnected) :
    Executes c (.task sender (.handleSend buffer)) c []
  | send (sender : Thread) (buffer : Bytes) :
    Executes c (.task sender (.send buffer)) c [.task sender (.handleSend buffer)]
  | closeTask (sender : Thread) (h : c.output = []) : Executes c (.task sender .close) c [.remove]
  | closeLater (sender : Thread) (h : c.output ≠ []) : Executes c (.task sender .close) c []
  | forceCloseTask (sender : Thread) : Executes c (.task sender .forceClose) c [.remove]
  | shutdownTask (sender : Thread) (h : c.output = []) :
    Executes c (.task sender .shutdown) (c.setWritable false) [.closeWrite]
  | shutdownLater (sender : Thread) (h : c.output ≠ []) : Executes c (.task sender .shutdown) c []
  | forceShutdownTask (sender : Thread) :
    Executes c (.task sender .forceShutdown) (c.setWritable false) [.closeWrite]
  | connect (h : c.state = .kConnecting) :
    Executes c .startCallback ({ c with state := .kConnected }.invoke .onConnect)
      [.handler .onConnect, .setReadable]
  | notConnecting (h : c.state ≠ .kConnecting) : Executes c .startCallback c []
  | setReadable : Executes c .setReadable { c with channel := c.channel.setReadable true } []
  | directQueue (buffer : Bytes) (h : ¬(c.output = [] ∧ buffer ≠ [])) :
    Executes c (.directWrite buffer) c [.appendOutput buffer]
  | directWrote (buffer : Bytes) (n : Nat) (h : c.output = []) :
    Executes c (.directWrite buffer) { c with written := c.written ++ buffer.take n }
      [.appendOutput (buffer.drop n)]
  | directFailed (buffer : Bytes) (soError : Nat) (h : soError = EWOULDBLOCK ∨ soError = EAGAIN) :
    Executes c (.directWrite buffer) { c with writeFailed := true } [.appendOutput buffer]
  | directError (buffer : Bytes) (soError : Nat) :
    Executes c (.directWrite buffer) { c with writeFailed := true }
      [.handleError soError, .appendOutput buffer]
  | append (buffer : Bytes) (h : buffer ≠ []) :
    Executes c (.appendOutput buffer) ({ c with output := c.output ++ buffer }.setWritable true) []
  | appendNone : Executes c (.appendOutput []) c []
  | fill (bytes : Bytes) :
    Executes c (.fill bytes)
      { c with output := c.output ++ bytes, accepted := c.accepted ++ [(.loop, bytes)] } []
  | sendOutput (h : c.output ≠ []) : Executes c .sendOutput (c.setWritable true) [.handleWrite]
  | sendNothing (h : c.output = []) : Executes c .sendOutput c []
  | read : Executes c .handleRead (c.invoke .onRead) [.handler .onRead]
  | eof : Executes c .handleRead { c with eofRead := true } [.handleClose]
  | readAgain : Executes c .handleRead c []
  | readError (errno : Nat) : Executes c .handleRead c [.handleError errno]
  | channelError (code : Nat) : Executes c .channelError c [.handleError code]
  | noError : Executes c (.handleError kOk) c [.call .forceClose]
  | error (code : Nat) (h : code ≠ kOk) :
    Executes c (.handleError code) (c.invoke (.onError code)) [.handler (.onError code)]
  | notWritable (h : c.channel.writable = false) : Executes c .handleWrite c []
  | nothingToWrite (h : c.output = []) : Executes c .handleWrite c [.writeDone]
  | wrote (n : Nat) (h : c.output ≠ []) :
    Executes c .handleWrite
      { c with written := c.written ++ c.output.take n, output := c.output.drop n } [.writeDone]
  | writeError (soError : Nat) (h : c.output ≠ []) :
    Executes c .handleWrite { c with writeFailed := true } [.handleError soError]
  | writeComplete (h : c.output = []) :
    Executes c .writeDone ((c.setWritable false).invoke .onWriteComplete)
      [.handler .onWriteComplete, .afterWriteComplete]
  | writeMore (h : c.output ≠ []) : Executes c .writeDone c []
  | disconnecting (h : c.state = .kDisconnecting) : Executes c .afterWriteComplete c [.closeWrite]
  | notDisconnecting (h : c.state ≠ .kDisconnecting) : Executes c .afterWriteComplete c []
  | closeWrite : Executes c .closeWrite { c with writeClosed := true } []
  | handleClose (h : c.state ≠ .kDisconnected) : Executes c .handleClose c [.handleCloseStore]
  | closed (h : c.state = .kDisconnected) : Executes c .handleClose c []
  | handleCloseStore : Executes c .handleCloseStore { c with state := .kDisconnected } [.remove]
  | remove (h : c.channel.registered = true) :
    Executes c .remove { c with channel := c.channel.remove } [.handleRemove]
  | removed (h : c.channel.registered = false) : Executes c .remove c []
  | handleRemove (h : c.state = .kDisconnected) :
    Executes c .handleRemove (c.invoke .onClose) [.handler .onClose, .afterClose]
  | shouldNotHappen (h : c.state ≠ .kDisconnected) : Executes c .handleRemove c []
  | afterClose :
    Executes c .afterClose { c with closeLatch := c.closeLatch - 1, context := false } []
  | fileClose : Executes c .fileClose c []

theorem task_step_executes (c : TcpConnection) (sender : Thread) (task : Task) :
    Executes c (.task sender task) (taskStep c sender task).1 (taskStep c sender task).2 := by
  cases task with
  | add =>
    simp only [taskStep]
    split
    · exact .added sender ‹_›
    · exact .add sender (Bool.eq_false_iff.mpr ‹_›)
  | handleSend buffer =>
    simp only [taskStep]
    split
    · exact .accept sender buffer ‹_›
    · exact .giveUp sender buffer ‹_›
  | send buffer => exact .send sender buffer
  | close =>
    simp only [taskStep]
    split
    · exact .closeTask sender ‹_›
    · exact .closeLater sender ‹_›
  | forceClose => exact .forceCloseTask sender
  | shutdown =>
    simp only [taskStep]
    split
    · exact .shutdownTask sender ‹_›
    · exact .shutdownLater sender ‹_›
  | forceShutdown => exact .forceShutdownTask sender

theorem direct_write_executes {c d : TcpConnection} {env : Env} {buffer : Bytes}
    {push : List Instr} (h : directWrite c buffer env = some (d, push)) :
    Executes c (.directWrite buffer) d push := by
  unfold directWrite at h
  split at h
  · split at h
    · cases h
    · cases h
      exact .directQueue buffer ‹_›
  · split at h
    · rename_i n hg
      cases h
      exact .directWrote buffer n hg.1
    · cases h
  · rename_i errno soError
    split at h
    · cases h
      split
      · exact .directError buffer soError
      · rename_i hne
        refine .directFailed buffer soError ?_
        by_cases he : soError = EWOULDBLOCK
        · exact .inl he
        · exact .inr (Decidable.byContradiction fun ha => hne ⟨he, ha⟩)
    · cases h
  · cases h

theorem handle_write_executes {c d : TcpConnection} {env : Env} {push : List Instr}
    (h : handleWrite c env = some (d, push)) : Executes c .handleWrite d push := by
  unfold handleWrite at h
  split at h
  · split at h
    · cases h
      exact .notWritable ‹_›
    · split at h
      · cases h
        exact .nothingToWrite ‹_›
      · cases h
  · rename_i n
    split at h
    · rename_i hg
      cases h
      exact .wrote n hg.2.1
    · cases h
  · rename_i errno soError
    split at h
    · rename_i hg
      cases h
      exact .writeError soError hg.2
    · cases h
  · cases h

theorem handle_read_executes {c d : TcpConnection} {env : Env} {push : List Instr}
    (h : handleRead c env = some (d, push)) : Executes c .handleRead d push := by
  unfold handleRead at h
  split at h
  · cases h
    exact .read
  · cases h
    exact .eof
  · rename_i errno
    cases h
    split
    · exact .readError errno
    · exact .readAgain
  · cases h

theorem executes {c d : TcpConnection} {env : Env} {i : Instr} {push : List Instr}
    (h : exec c env i = some (d, push)) : Executes c i d push := by
  cases i with
  | call pc =>
    cases pc with
    | run task => cases h; exact .run task
    | _ => cases h; exact .call (calls_step c (by simp))
  | task sender task =>
    have he : taskStep c sender task = (d, push) := Option.some.inj h
    have ht := task_step_executes c sender task
    rw [he] at ht
    exact ht
  | startCallback =>
    simp only [exec, Option.some.injEq] at h
    split at h <;> cases h
    · exact .connect ‹_›
    · exact .notConnecting ‹_›
  | handler handler => cases h
  | setReadable => cases h; exact .setReadable
  | directWrite buffer => exact direct_write_executes h
  | appendOutput buffer =>
    simp only [exec, Option.some.injEq] at h
    split at h <;> cases h
    · subst buffer
      exact .appendNone
    · exact .append buffer ‹_›
  | fill bytes => cases h; exact .fill bytes
  | sendOutput =>
    simp only [exec, Option.some.injEq] at h
    split at h <;> cases h
    · exact .sendNothing ‹_›
    · exact .sendOutput ‹_›
  | handleRead => exact handle_read_executes h
  | channelError =>
    simp only [exec] at h
    split at h <;> cases h
    exact .channelError _
  | handleError code =>
    simp only [exec, Option.some.injEq] at h
    split at h <;> cases h
    · subst code
      exact .noError
    · exact .error code ‹_›
  | handleWrite => exact handle_write_executes h
  | writeDone =>
    simp only [exec, Option.some.injEq] at h
    split at h <;> cases h
    · exact .writeComplete ‹_›
    · exact .writeMore ‹_›
  | afterWriteComplete =>
    simp only [exec, Option.some.injEq, Prod.mk.injEq] at h
    obtain ⟨rfl, rfl⟩ := h
    split
    · exact .disconnecting ‹_›
    · exact .notDisconnecting ‹_›
  | closeWrite => cases h; exact .closeWrite
  | handleClose =>
    simp only [exec, Option.some.injEq, Prod.mk.injEq] at h
    obtain ⟨rfl, rfl⟩ := h
    split
    · exact .closed ‹_›
    · exact .handleClose ‹_›
  | handleCloseStore => cases h; exact .handleCloseStore
  | remove =>
    simp only [exec, Option.some.injEq] at h
    split at h <;> cases h
    · exact .remove ‹_›
    · exact .removed (Bool.eq_false_iff.mpr ‹_›)
  | handleRemove =>
    simp only [exec, Option.some.injEq] at h
    split at h <;> cases h
    · exact .handleRemove ‹_›
    · exact .shouldNotHappen ‹_›
  | afterClose => cases h; exact .afterClose
  | fileClose => cases h; exact .fileClose

variable {w t : World}

theorem step_executes {env : Env} (h : step w (.exec env) = some t) :
    ∃ i rest c push, w.loop = i :: rest ∧ Executes w.conn i c push ∧
      t = { w with conn := c, loop := push ++ rest } := by
  obtain ⟨i, rest, c, push, hl, he, rfl⟩ := step_exec h
  exact ⟨i, rest, c, push, hl, executes he, rfl⟩

theorem step_calls {id : Nat} (h : step w (.user id) = some t) :
    (∃ task rest, w.users id = .run task :: rest ∧
      t = { w with tasks := w.tasks ++ [(id, task)] }.setUser id rest) ∨
    ∃ pc rest c pcs, w.users id = pc :: rest ∧ Calls w.conn pc c pcs ∧
      t = { w with conn := c }.setUser id (pcs ++ rest) := by
  obtain ⟨pc, rest, hu, rfl⟩ := step_user h
  by_cases hr : ∃ task, pc = .run task
  · obtain ⟨task, rfl⟩ := hr
    exact .inl ⟨task, rest, hu, rfl⟩
  · have hn : ∀ task, pc ≠ .run task := fun task he => hr ⟨task, he⟩
    exact .inr ⟨pc, rest, _, _, hu, calls_step w.conn hn, user_step_call hn⟩

theorem step_conn {a : Action} (h : step w a = some t) :
    t.conn = w.conn ∨
      (∃ id pc rest pcs, a = .user id ∧ w.users id = pc :: rest ∧ Calls w.conn pc t.conn pcs) ∨
      ∃ env i rest push, a = .exec env ∧ w.loop = i :: rest ∧ Executes w.conn i t.conn push := by
  cases a with
  | call thread op =>
    cases thread with
    | loop =>
      obtain ⟨handler, rest, -, rfl⟩ := step_call_loop h
      exact .inl rfl
    | user id =>
      obtain ⟨pc, -, -, rfl⟩ := step_call_user h
      exact .inl rfl
  | user id =>
    rcases step_calls h with ⟨task, rest, -, rfl⟩ | ⟨pc, rest, c, pcs, hu, hc, rfl⟩
    · exact .inl rfl
    · exact .inr (.inl ⟨id, pc, rest, pcs, rfl, hu, hc⟩)
  | exec env =>
    obtain ⟨i, rest, c, push, hl, he, rfl⟩ := step_executes h
    exact .inr (.inr ⟨env, i, rest, push, rfl, hl, he⟩)
  | ret =>
    obtain ⟨handler, rest, -, rfl⟩ := step_ret h
    exact .inl rfl
  | enter =>
    obtain ⟨-, rfl⟩ := step_enter h
    exact .inl rfl
  | task index =>
    obtain ⟨id, task, -, -, -, rfl⟩ := step_task h
    exact .inl rfl
  | events events =>
    obtain ⟨-, -, rfl⟩ := step_events h
    exact .inl rfl

def Action.records (w : World) : Action → List Record
  | .call thread op => [⟨thread, op, w.conn.state⟩]
  | _ => []

theorem step_records {a : Action} (h : step w a = some t) : t.calls = w.calls ++ a.records w := by
  cases a with
  | call thread op =>
    cases thread with
    | loop =>
      obtain ⟨handler, rest, -, rfl⟩ := step_call_loop h
      rfl
    | user id =>
      obtain ⟨pc, -, -, rfl⟩ := step_call_user h
      rfl
  | user id =>
    rcases step_calls h with ⟨task, rest, -, rfl⟩ | ⟨pc, rest, c, pcs, -, -, rfl⟩
    · exact (List.append_nil _).symm
    · exact (List.append_nil _).symm
  | exec env =>
    obtain ⟨i, rest, c, push, -, -, rfl⟩ := step_executes h
    exact (List.append_nil _).symm
  | ret =>
    obtain ⟨handler, rest, -, rfl⟩ := step_ret h
    exact (List.append_nil _).symm
  | enter =>
    obtain ⟨-, rfl⟩ := step_enter h
    exact (List.append_nil _).symm
  | task index =>
    obtain ⟨id, task, -, -, -, rfl⟩ := step_task h
    exact (List.append_nil _).symm
  | events events =>
    obtain ⟨-, -, rfl⟩ := step_events h
    exact (List.append_nil _).symm

def Instr.below : Instr → Bool
  | .handler _ | .setReadable | .appendOutput _ | .afterWriteComplete | .afterClose => true
  | .handleClose | .channelError | .fileClose | .handleRead | .handleWrite => true
  | _ => false

def Layered (w : World) : Prop := ∀ i ∈ w.loop.tail, i.below = true

theorem executes_below {c d : TcpConnection} {i : Instr} {push : List Instr}
    (h : Executes c i d push) : ∀ j ∈ push.tail, j.below = true := by
  cases h with
  | call h => cases h <;> simp
  | _ => simp [Instr.below]

theorem events_below (events : ReceiveEvents) :
    ∀ i ∈ (SocketChannel.handleEvents events).map callback, i.below = true := by
  intro i hi
  obtain ⟨cb, -, rfl⟩ := List.mem_map.mp hi
  cases cb <;> rfl

theorem layered_step {a : Action} (l : Layered w) (h : step w a = some t) : Layered t := by
  cases a with
  | call thread op =>
    cases thread with
    | loop =>
      obtain ⟨handler, rest, hl, rfl⟩ := step_call_loop h
      intro i hi
      rcases List.mem_cons.mp hi with rfl | hi
      · rfl
      · exact l i (by rw [hl]; exact hi)
    | user id =>
      obtain ⟨pc, -, -, rfl⟩ := step_call_user h
      exact l
  | user id =>
    rcases step_calls h with ⟨task, rest, -, rfl⟩ | ⟨pc, rest, c, pcs, -, -, rfl⟩
    · exact l
    · exact l
  | exec env =>
    obtain ⟨i, rest, c, push, hl, he, rfl⟩ := step_executes h
    have hrest : ∀ j ∈ rest, j.below = true := fun j hj => l j (by rw [hl]; exact hj)
    cases push with
    | nil => exact fun j hj => hrest j (List.mem_of_mem_tail hj)
    | cons top push =>
      intro j hj
      rcases List.mem_append.mp hj with hj | hj
      · exact executes_below he j hj
      · exact hrest j hj
  | ret =>
    obtain ⟨handler, rest, hl, rfl⟩ := step_ret h
    exact fun j hj => l j (by rw [hl]; exact List.mem_of_mem_tail hj)
  | enter =>
    obtain ⟨-, rfl⟩ := step_enter h
    intro i hi
    cases hi
  | task index =>
    obtain ⟨id, task, -, -, -, rfl⟩ := step_task h
    intro i hi
    cases hi
  | events events =>
    obtain ⟨-, -, rfl⟩ := step_events h
    exact fun i hi => events_below events i (List.mem_of_mem_tail hi)

theorem layered_init : Layered .init := by
  intro i hi
  cases hi

structure Carried (I : Instr → Prop) (P : Nat → CallPc → Prop) (J : Task → Prop) (w : World) :
    Prop where
  loop : ∀ i ∈ w.loop, I i
  users : ∀ id, ∀ pc ∈ w.users id, P id pc
  tasks : ∀ entry ∈ w.tasks, J entry.2

section
variable {I : Instr → Prop} {P : Nat → CallPc → Prop} {J : Task → Prop}

theorem carried_set_user (s : Carried I P J w) {id : Nat} {pcs : List CallPc}
    (h : ∀ pc ∈ pcs, P id pc) : Carried I P J (w.setUser id pcs) where
  loop := s.loop
  users i pc hm := by
    rcases mem_set_user hm with ⟨rfl, hp⟩ | hp
    · exact h pc hp
    · exact s.users i pc hp
  tasks := s.tasks

theorem carried_step {a : Action} (s : Carried I P J w) (h : step w a = some t)
    (hloop : ∀ op, a = .call .loop op → I op.onLoop)
    (huser : ∀ id op pc, a = .call (.user id) op → op.onUser = some pc → P id pc)
    (hqueue : ∀ id job, P id (.run job) → J job)
    (hcalls : ∀ id pc pcs, P id pc → Calls w.conn pc t.conn pcs → ∀ p ∈ pcs, P id p)
    (hexec : ∀ env i rest push, a = .exec env → w.loop = i :: rest →
      Executes w.conn i t.conn push → ∀ j ∈ push, I j)
    (htask : ∀ id job, J job → I (.task (.user id) job))
    (hother : I (.handler .other))
    (hcallback : w.conn.channel.registered = true → ∀ cb, I (callback cb)) : Carried I P J t := by
  cases a with
  | call thread op =>
    cases thread with
    | loop =>
      obtain ⟨handler, rest, hl, rfl⟩ := step_call_loop h
      refine ⟨fun i hi => ?_, s.users, s.tasks⟩
      rcases List.mem_cons.mp hi with rfl | hi
      · exact hloop op rfl
      · exact s.loop i (hl ▸ hi)
    | user id =>
      obtain ⟨pc, -, ho, rfl⟩ := step_call_user h
      have hr : Carried I P J (w.record (.user id) op) := ⟨s.loop, s.users, s.tasks⟩
      refine carried_set_user hr fun p hp => ?_
      rw [List.mem_singleton.mp hp]
      exact huser id op pc rfl ho
  | user id =>
    rcases step_calls h with ⟨job, rest, hu, rfl⟩ | ⟨pc, rest, c, pcs, hu, hc, rfl⟩
    · have hpc : ∀ pc ∈ CallPc.run job :: rest, P id pc := hu ▸ s.users id
      have hr : Carried I P J { w with tasks := w.tasks ++ [(id, job)] } := by
        refine ⟨s.loop, s.users, fun entry hm => ?_⟩
        rcases List.mem_append.mp hm with hm | hm
        · exact s.tasks entry hm
        · rw [List.mem_singleton.mp hm]
          exact hqueue id job (hpc _ List.mem_cons_self)
      exact carried_set_user hr fun pc hm => hpc pc (List.mem_cons_of_mem _ hm)
    · have hpc : ∀ p ∈ pc :: rest, P id p := hu ▸ s.users id
      have hr : Carried I P J { w with conn := c } := ⟨s.loop, s.users, s.tasks⟩
      refine carried_set_user hr fun p hm => ?_
      rcases List.mem_append.mp hm with hm | hm
      · exact hcalls id pc pcs (hpc pc List.mem_cons_self) hc p hm
      · exact hpc p (List.mem_cons_of_mem _ hm)
  | exec env =>
    obtain ⟨i, rest, c, push, hl, he, rfl⟩ := step_executes h
    refine ⟨fun j hj => ?_, s.users, s.tasks⟩
    rcases List.mem_append.mp hj with hj | hj
    · exact hexec env i rest push rfl hl he j hj
    · exact s.loop j (by rw [hl]; exact List.mem_cons_of_mem _ hj)
  | ret =>
    obtain ⟨handler, rest, hl, rfl⟩ := step_ret h
    exact ⟨fun i hi => s.loop i (by rw [hl]; exact List.mem_cons_of_mem _ hi), s.users, s.tasks⟩
  | enter =>
    obtain ⟨-, rfl⟩ := step_enter h
    refine ⟨fun i hi => ?_, s.users, s.tasks⟩
    rw [List.mem_singleton.mp hi]
    exact hother
  | task index =>
    obtain ⟨id, job, -, ht, -, rfl⟩ := step_task h
    refine ⟨fun i hi => ?_, s.users, fun entry hm => s.tasks entry (List.mem_of_mem_eraseIdx hm)⟩
    rw [List.mem_singleton.mp hi]
    exact htask id job (s.tasks _ (List.mem_of_getElem? ht))
  | events events =>
    obtain ⟨-, hr, rfl⟩ := step_events h
    refine ⟨fun i hi => ?_, s.users, s.tasks⟩
    obtain ⟨cb, -, rfl⟩ := List.mem_map.mp hi
    exact hcallback hr cb

end

def Pending (I : Instr → Prop) (P : CallPc → Prop) (J : Task → Prop) (w : World) : Prop :=
  (∃ i ∈ w.loop, I i) ∨ (∃ id, ∃ pc ∈ w.users id, P pc) ∨ ∃ entry ∈ w.tasks, J entry.2

section
variable {I : Instr → Prop} {P : CallPc → Prop} {J : Task → Prop} {Q : Prop}

theorem pending_users {users : Nat → List CallPc} {id : Nat} {pcs : List CallPc}
    (h : ∃ i, ∃ pc ∈ users i, P pc) (hid : (∃ pc ∈ users id, P pc) → ∃ pc ∈ pcs, P pc) :
    ∃ i, ∃ pc ∈ (if i = id then pcs else users i), P pc := by
  obtain ⟨i, pc, hm, hp⟩ := h
  by_cases hi : i = id
  · subst hi
    exact ⟨i, by simpa using hid ⟨pc, hm, hp⟩⟩
  · exact ⟨i, pc, by simpa [hi] using hm, hp⟩

theorem pending_calls {id : Nat} (s : Pending I P J w) (hqueue : ∀ job, P (.run job) → J job)
    (hcalls : ∀ pc rest pcs, w.users id = pc :: rest → Calls w.conn pc t.conn pcs → P pc →
      (∃ p ∈ pcs, P p) ∨ Q)
    (h : step w (.user id) = some t) : Pending I P J t ∨ Q := by
  rcases step_calls h with ⟨job, rest, hu, rfl⟩ | ⟨pc, rest, c, pcs, hu, hc, rfl⟩
  · left
    rcases s with hl | hu' | ⟨entry, hm, hj⟩
    · exact .inl hl
    · by_cases hp : P (.run job)
      · exact .inr (.inr ⟨(id, job), List.mem_append_right _ List.mem_cons_self, hqueue job hp⟩)
      · refine .inr (.inl (pending_users hu' ?_))
        rw [hu]
        rintro ⟨p, hm, hp'⟩
        rcases List.mem_cons.mp hm with rfl | hm
        · exact absurd hp' hp
        · exact ⟨p, hm, hp'⟩
    · exact .inr (.inr ⟨entry, List.mem_append_left _ hm, hj⟩)
  · rcases s with hl | hu' | ht
    · exact .inl (.inl hl)
    · by_cases hp : P pc
      · rcases hcalls pc rest pcs hu hc hp with ⟨p, hm, hp'⟩ | hq
        · exact .inl (.inr (.inl ⟨id, p, by simp [World.setUser, hm], hp'⟩))
        · exact .inr hq
      · refine .inl (.inr (.inl (pending_users hu' ?_)))
        rw [hu]
        rintro ⟨p, hm, hp'⟩
        rcases List.mem_cons.mp hm with rfl | hm
        · exact absurd hp' hp
        · exact ⟨p, List.mem_append_right _ hm, hp'⟩
    · exact .inl (.inr (.inr ht))

-- `Q` is what happens instead where the work is done.
theorem pending_step {a : Action} (s : Pending I P J w) (hhandler : ∀ handler, ¬ I (.handler handler))
    (hqueue : ∀ job, P (.run job) → J job)
    (hcalls : ∀ id pc rest pcs, a = .user id → w.users id = pc :: rest →
      Calls w.conn pc t.conn pcs → P pc → (∃ p ∈ pcs, P p) ∨ Q)
    (hexec : ∀ env i rest push, a = .exec env → w.loop = i :: rest →
      Executes w.conn i t.conn push → I i → (∃ j ∈ push, I j) ∨ Q)
    (htask : ∀ id job, J job → I (.task (.user id) job)) (h : step w a = some t) :
    Pending I P J t ∨ Q := by
  cases a with
  | call thread op =>
    left
    cases thread with
    | loop =>
      obtain ⟨handler, rest, hl, rfl⟩ := step_call_loop h
      exact s.imp_left fun ⟨i, hm, hi⟩ => ⟨i, List.mem_cons_of_mem _ (hl ▸ hm), hi⟩
    | user id =>
      obtain ⟨pc, hu, -, rfl⟩ := step_call_user h
      refine s.imp_right fun hr => hr.imp_left fun hu' => pending_users hu' fun ⟨p, hm, _⟩ => ?_
      change p ∈ w.users id at hm
      rw [hu] at hm
      cases hm
  | user id => exact pending_calls s hqueue (fun pc rest pcs => hcalls id pc rest pcs rfl) h
  | exec env =>
    obtain ⟨i, rest, c, push, hl, he, rfl⟩ := step_executes h
    rcases s with ⟨j, hm, hj⟩ | hr
    · rw [hl] at hm
      rcases List.mem_cons.mp hm with rfl | hm
      · refine (hexec env j rest push rfl hl he hj).imp_left fun ⟨k, hk, hi⟩ => .inl ⟨k, ?_, hi⟩
        exact List.mem_append_left _ hk
      · exact .inl (.inl ⟨j, List.mem_append_right _ hm, hj⟩)
    · exact .inl (.inr hr)
  | ret =>
    left
    obtain ⟨handler, rest, hl, rfl⟩ := step_ret h
    refine s.imp_left fun ⟨i, hm, hi⟩ => ⟨i, ?_, hi⟩
    rw [hl] at hm
    refine (List.mem_cons.mp hm).resolve_left ?_
    rintro rfl
    exact hhandler handler hi
  | enter =>
    left
    obtain ⟨hl, rfl⟩ := step_enter h
    refine s.imp_left fun ⟨i, hm, _⟩ => ?_
    rw [hl] at hm
    cases hm
  | task index =>
    left
    obtain ⟨id, job, hl, ht, -, rfl⟩ := step_task h
    rcases s with ⟨i, hm, -⟩ | hu | ⟨entry, hm, hj⟩
    · rw [hl] at hm
      cases hm
    · exact .inr (.inl hu)
    · obtain ⟨k, hk⟩ := List.mem_iff_getElem?.mp hm
      by_cases he : k = index
      · rw [he, ht] at hk
        cases hk
        exact .inl ⟨_, List.mem_cons_self, htask id job hj⟩
      · exact .inr (.inr ⟨entry, List.mem_eraseIdx_iff_getElem?.mpr ⟨k, he, hk⟩, hj⟩)
  | events events =>
    left
    obtain ⟨hl, -, rfl⟩ := step_events h
    refine s.imp_left fun ⟨i, hm, _⟩ => ?_
    rw [hl] at hm
    cases hm

end

end TcpConnection
end Pedronet
