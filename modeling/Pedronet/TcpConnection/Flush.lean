import Pedronet.TcpConnection.WriteInterest
import Pedronet.TcpConnection.Delivery
import Pedronet.Transition.Leads
import Mathlib.Algebra.GroupWithZero.Nat

namespace Pedronet

theorem SelectEvents.contains_remove_other {events other third : SelectEvents}
    (h : other.contains third = false) :
    (events.remove other).contains third = events.contains third := by
  rw [Bool.eq_iff_iff, contains_iff, contains_iff]
  constructor
  · rintro ⟨i, hi, ht⟩
    refine ⟨i, ?_, ht⟩
    simp only [remove, BitVec.getLsbD_and, Bool.and_eq_true] at hi
    exact hi.1
  · rintro ⟨i, hi, ht⟩
    have hlt := BitVec.lt_of_getLsbD hi
    refine ⟨i, ?_, ht⟩
    simp only [remove, BitVec.getLsbD_and, BitVec.getLsbD_not, Bool.and_eq_true, hi, hlt, true_and,
      decide_true, Bool.not_eq_true']
    refine Bool.eq_false_iff.mpr fun ho => ?_
    have := contains_iff.mpr ⟨i, ho, ht⟩
    rw [h] at this
    cases this

namespace SocketChannel

@[simp] theorem set_readable_readable (ch : SocketChannel) : (ch.setReadable true).readable = true := by
  rw [setReadable, readable, update_events]
  exact SelectEvents.contains_add (by decide)

@[simp] theorem set_writable_readable (ch : SocketChannel) (on : Bool) :
    (ch.setWritable on).readable = ch.readable := by
  rw [setWritable, readable, update_events]
  cases on with
  | false => exact SelectEvents.contains_remove_other (by decide)
  | true => exact SelectEvents.contains_add_other (by decide)

-- What a selector reports that polls the channel for its mask (TcpConnection.Selected).
def Asked (ch : SocketChannel) (events : ReceiveEvents) : Prop :=
  ∃ mask, ch.mask = some mask ∧
    (events = .kReadable ∧ mask.contains .kReadEvent = true ∨
      events = .kWritable ∧ mask.contains .kWriteEvent = true)

end SocketChannel

namespace TcpConnection
variable {w t : World} {c d : TcpConnection}

def Reads (w : World) : Prop :=
  w.conn.state = .kConnected → w.conn.channel.readable = true ∨ .setReadable ∈ w.loop

theorem executes_reads {i : Instr} {push : List Instr} (h : Executes c i d push)
    (hd : d.state = .kConnected) :
    (c.state = .kConnected ∧ d.channel.readable = c.channel.readable ∧ i ≠ .setReadable) ∨
      d.channel.readable = true ∨ .setReadable ∈ push := by
  cases h with
  | connect h => exact .inr (.inr (by simp))
  | setReadable => exact .inr (.inl (by simp))
  | call h =>
    refine .inl ⟨?_, by rw [calls_channel h], by simp⟩
    cases h <;> first | exact hd | cases hd
  | handleCloseStore => cases hd
  | append | shutdownTask | forceShutdownTask | sendOutput | writeComplete =>
    exact .inl ⟨hd, SocketChannel.set_writable_readable _ _, by simp⟩
  | _ => exact .inl ⟨hd, rfl, by simp⟩

theorem reads_step {a : Action} (r : Reads w) (h : step w a = some t) : Reads t := by
  intro ht
  cases a with
  | call thread op =>
    cases thread with
    | loop =>
      obtain ⟨handler, rest, hl, rfl⟩ := step_call_loop h
      exact (r ht).imp_right fun hm => List.mem_cons_of_mem _ (hl ▸ hm)
    | user id =>
      obtain ⟨pc, -, -, rfl⟩ := step_call_user h
      exact r ht
  | user id =>
    rcases step_calls h with ⟨task, rest, -, rfl⟩ | ⟨pc, rest, c, pcs, -, hc, rfl⟩
    · exact r ht
    · have hs : w.conn.state = .kConnected := by cases hc <;> first | exact ht | cases ht
      exact (r hs).imp_left fun hr => (congrArg SocketChannel.readable (calls_channel hc)).trans hr
  | exec env =>
    obtain ⟨i, rest, c, push, hl, he, rfl⟩ := step_executes h
    rcases executes_reads he ht with ⟨hc, hch, hi⟩ | hch | hm
    · rw [hch]
      refine (r hc).imp_right fun hm => List.mem_append_right _ ?_
      rw [hl] at hm
      exact (List.mem_cons.mp hm).resolve_left (Ne.symm hi)
    · exact .inl hch
    · exact .inr (List.mem_append_left _ hm)
  | ret =>
    obtain ⟨handler, rest, hl, rfl⟩ := step_ret h
    refine (r ht).imp_right fun hm => ?_
    rw [hl] at hm
    exact (List.mem_cons.mp hm).resolve_left (by simp)
  | enter =>
    obtain ⟨hl, rfl⟩ := step_enter h
    refine (r ht).imp_right fun hm => ?_
    rw [hl] at hm
    cases hm
  | task index =>
    obtain ⟨id, task, hl, -, -, rfl⟩ := step_task h
    refine (r ht).imp_right fun hm => ?_
    rw [hl] at hm
    cases hm
  | events events =>
    obtain ⟨hl, -, rfl⟩ := step_events h
    refine (r ht).imp_right fun hm => ?_
    rw [hl] at hm
    cases hm

theorem reads_init : Reads .init := fun h => by cases h

def Task.plain : Task → Bool
  | .add | .handleSend _ | .send _ => true
  | .close | .forceClose | .shutdown | .forceShutdown => false

def CallPc.plain : CallPc → Bool
  | .start => true
  | .run task => task.plain
  | .close | .forceClose | .forceCloseStore | .shutdown => false
  | .forceShutdown | .forceShutdownStore => false

def Instr.plain : Instr → Bool
  | .call pc => pc.plain
  | .task _ job => job.plain
  | .startCallback | .handler _ | .setReadable | .directWrite _ | .appendOutput _ | .fill _ => true
  | .sendOutput | .handleRead | .handleWrite | .writeDone | .afterWriteComplete => true
  | .channelError | .handleError _ | .closeWrite | .handleClose | .handleCloseStore => false
  | .remove | .handleRemove | .afterClose | .fileClose => false

-- What a socket answers as long as the connection stays up.
def Env.calm : Env → Bool
  | .none => true
  | .write (.wrote n) => n != 0
  | .read (.failed errno) => errno == EAGAIN
  | .write (.failed _ _) | .read .got | .read .eof | .soError _ => false

structure Plain (c d : TcpConnection) (push : List Instr) : Prop where
  state : d.state = .kConnected
  failed : d.writeFailed = c.writeFailed
  closed : d.writeClosed = c.writeClosed
  push : ∀ j ∈ push, j.plain = true

theorem direct_write_plain {env : Env} {buffer : Bytes} {push : List Instr}
    (h : directWrite c buffer env = some (d, push)) (hs : c.state = .kConnected)
    (he : env.calm = true) : Plain c d push := by
  unfold directWrite at h
  split at h
  · split at h
    · cases h
    · cases h
      exact ⟨hs, rfl, rfl, by simp [Instr.plain]⟩
  · split at h
    · cases h
      exact ⟨hs, rfl, rfl, by simp [Instr.plain]⟩
    · cases h
  · cases he
  · cases h

theorem handle_write_plain {env : Env} {push : List Instr}
    (h : handleWrite c env = some (d, push)) (hs : c.state = .kConnected)
    (he : env.calm = true) : Plain c d push := by
  unfold handleWrite at h
  split at h
  · split at h
    · cases h
      exact ⟨hs, rfl, rfl, by simp⟩
    · split at h
      · cases h
        exact ⟨hs, rfl, rfl, by simp [Instr.plain]⟩
      · cases h
  · split at h
    · cases h
      exact ⟨hs, rfl, rfl, by simp [Instr.plain]⟩
    · cases h
  · cases he
  · cases h

theorem handle_read_plain {env : Env} {push : List Instr}
    (h : handleRead c env = some (d, push)) (hs : c.state = .kConnected)
    (he : env.calm = true) : Plain c d push := by
  unfold handleRead at h
  split at h
  · cases he
  · cases he
  · rename_i errno
    have hn : errno = EAGAIN := by simpa [Env.calm] using he
    cases h
    exact ⟨hs, rfl, rfl, by simp [hn]⟩
  · cases h

theorem exec_plain {env : Env} {i : Instr} {push : List Instr}
    (h : exec c env i = some (d, push)) (hs : c.state = .kConnected) (hi : i.plain = true)
    (he : env.calm = true) : Plain c d push := by
  cases i with
  | directWrite buffer => exact direct_write_plain h hs he
  | handleWrite => exact handle_write_plain h hs he
  | handleRead => exact handle_read_plain h hs he
  | call pc =>
    cases pc with
    | start =>
      cases h
      exact ⟨hs, rfl, rfl, by simp [callStep, Instr.plain, CallPc.plain, Task.plain]⟩
    | run task =>
      cases h
      exact ⟨hs, rfl, rfl, by simpa [Instr.plain, CallPc.plain] using hi⟩
    | _ => cases hi
  | startCallback | afterWriteComplete =>
    simp only [exec, hs] at h
    cases h
    exact ⟨hs, rfl, rfl, by simp⟩
  | _ =>
    cases executes h with
    | _ => first | (cases hi; done) | exact ⟨hs, rfl, rfl, by simp [Instr.plain, Task.plain]⟩

def Instr.size : Instr → Nat
  | .call .start => 6
  | .call _ | .sendOutput => 5
  | .task _ (.send _) | .handleWrite => 4
  | .task _ _ | .writeDone => 3
  | .directWrite _ | .handleRead => 2
  | _ => 1

def height (loop : List Instr) : Nat := (loop.map Instr.size).sum

-- The kernel takes all that a write gives it, and has nothing to read.
def serve (c : TcpConnection) : Instr → Env
  | .directWrite buffer =>
    if c.output = [] ∧ buffer ≠ [] then .write (.wrote buffer.length) else .none
  | .handleWrite =>
    if c.channel.writable = true ∧ c.output ≠ [] then .write (.wrote c.output.length) else .none
  | .handleRead => .read (.failed EAGAIN)
  | _ => .none

theorem serve_calm (c : TcpConnection) (i : Instr) : (serve c i).calm = true := by
  unfold serve
  split
  · split
    · rename_i hb
      simpa [Env.calm] using hb.2
    · rfl
  · split
    · rename_i hw
      simpa [Env.calm] using hw.2
    · rfl
  · rfl
  · rfl

theorem exec_serve {i : Instr} (hs : c.state = .kConnected) (hi : i.plain = true)
    (hh : ∀ handler, i ≠ .handler handler) :
    ∃ d push, exec c (serve c i) i = some (d, push) ∧ height push < i.size := by
  cases i with
  | handler handler => exact absurd rfl (hh handler)
  | call pc =>
    cases pc with
    | start => exact ⟨_, _, rfl, by simp [height, callStep, Instr.size]⟩
    | run task => exact ⟨_, _, rfl, by cases task <;> simp [height, Instr.size]⟩
    | _ => cases hi
  | task sender job =>
    cases job with
    | add =>
      simp only [exec, taskStep]
      split <;> exact ⟨_, _, rfl, by simp [height, Instr.size]⟩
    | handleSend buffer =>
      simp only [exec, taskStep, if_pos hs]
      exact ⟨_, _, rfl, by simp [height, Instr.size]⟩
    | send buffer => exact ⟨_, _, rfl, by simp [height, Instr.size]⟩
    | _ => cases hi
  | directWrite buffer =>
    simp only [exec, serve]
    split
    · rename_i hb
      exact ⟨_, _, if_pos ⟨hb.1, hb.2, Nat.le_refl _⟩, by simp [height, Instr.size]⟩
    · rename_i hb
      exact ⟨_, _, if_neg hb, by simp [height, Instr.size]⟩
  | handleWrite =>
    simp only [exec, serve]
    split
    · rename_i hw
      exact ⟨_, _, if_pos ⟨hw.1, hw.2, Nat.le_refl _⟩, by simp [height, Instr.size]⟩
    · rename_i hw
      simp only [handleWrite]
      split
      · exact ⟨_, _, rfl, by simp [height, Instr.size]⟩
      · rename_i hn
        have ho : c.output = [] := Decidable.byContradiction fun ho =>
          hw ⟨by simpa using hn, ho⟩
        exact ⟨_, _, if_pos ho, by simp [height, Instr.size]⟩
  | handleRead => exact ⟨c, [], by simp [exec, serve, handleRead], by simp [height, Instr.size]⟩
  | startCallback | afterWriteComplete =>
    simp only [exec, hs]
    exact ⟨_, _, rfl, by simp [height, Instr.size]⟩
  | setReadable | fill bytes => exact ⟨_, _, rfl, by simp [height, Instr.size]⟩
  | appendOutput buffer | sendOutput | writeDone =>
    simp only [exec]
    split <;> exact ⟨_, _, rfl, by simp [height, Instr.size]⟩
  | _ => cases hi

-- What the loop does by itself, while the socket stays up.
def Goes (w : World) : Action → Prop
  | .exec env => env.calm = true
  | .ret | .task _ => True
  | .events events => w.conn.channel.Asked events
  | .call _ _ | .user _ | .enter => False

structure Open (w : World) : Prop where
  state : w.conn.state = .kConnected
  failed : w.conn.writeFailed = false
  closed : w.conn.writeClosed = false
  appended : appending w = false
  loop : ∀ i ∈ w.loop, i.plain = true
  tasks : ∀ entry ∈ w.tasks, entry.2.plain = true

theorem open_step {a : Action} (o : Open w) (hg : Goes w a) (h : step w a = some t) : Open t := by
  cases a with
  | call thread op | user id | enter => exact hg.elim
  | exec env =>
    obtain ⟨i, rest, c, push, hl, he, rfl⟩ := step_exec h
    have hloop := o.loop
    rw [hl] at hloop
    have p := exec_plain he o.state (hloop i List.mem_cons_self) hg
    refine ⟨p.state, p.failed.trans o.failed, p.closed.trans o.closed, o.appended, ?_, o.tasks⟩
    intro j hj
    rcases List.mem_append.mp hj with hj | hj
    · exact p.push j hj
    · exact hloop j (List.mem_cons_of_mem _ hj)
  | ret =>
    obtain ⟨handler, rest, hl, rfl⟩ := step_ret h
    refine ⟨o.state, o.failed, o.closed, o.appended, fun j hj => o.loop j ?_, o.tasks⟩
    rw [hl]
    exact List.mem_cons_of_mem _ hj
  | task index =>
    obtain ⟨id, job, -, hj, -, rfl⟩ := step_task h
    refine ⟨o.state, o.failed, o.closed, o.appended, ?_, fun e he => ?_⟩
    · intro i hi
      obtain rfl := List.mem_singleton.mp hi
      exact o.tasks (id, job) (List.mem_of_getElem? hj)
    · exact o.tasks e (List.mem_of_mem_eraseIdx he)
  | events events =>
    obtain ⟨-, -, rfl⟩ := step_events h
    refine ⟨o.state, o.failed, o.closed, o.appended, ?_, o.tasks⟩
    change ∀ i ∈ (SocketChannel.handleEvents events).map callback, i.plain = true
    obtain ⟨-, -, ⟨rfl, -⟩ | ⟨rfl, -⟩⟩ := hg
    · decide
    · decide

structure Awake (w : World) : Prop where
  interest : Interest w
  reads : Reads w
  streamed : Streamed w
  isOpen : Open w

theorem awake_step {a : Action} (k : Awake w) (hg : Goes w a) (h : step w a = some t) :
    Awake t := by
  have hgentle : a.gentle = true := by
    cases a <;> first | rfl | exact hg.elim
  have hflushes : Flushes w a := by
    cases a with
    | call thread op => exact hg.elim
    | ret => exact k.isOpen.appended
    | _ => trivial
  exact ⟨interest_step k.interest hgentle hflushes h, reads_step k.reads h,
    streamed_step k.streamed h, open_step k.isOpen hg h⟩

def Keeps (w t : World) : Prop := t.users = w.users ∧ ∀ τ, progress τ t = progress τ w

theorem keeps_step {a : Action} (k : Awake w) (hg : Goes w a) (h : step w a = some t) :
    Keeps w t := by
  refine ⟨?_, fun τ => ?_⟩
  · cases a with
    | call thread op | user id | enter => exact hg.elim
    | exec env =>
      obtain ⟨i, rest, c, push, -, -, rfl⟩ := step_exec h
      rfl
    | ret =>
      obtain ⟨handler, rest, -, rfl⟩ := step_ret h
      rfl
    | task index =>
      obtain ⟨id, job, -, -, -, rfl⟩ := step_task h
      rfl
    | events events =>
      obtain ⟨-, -, rfl⟩ := step_events h
      rfl
  · rcases progress_step τ k.interest.layered h with hp | ⟨hn, -, -⟩
    · rw [hp]
      cases a <;> first | exact List.append_nil _ | exact hg.elim
    · exact absurd k.isOpen.state hn

theorem exec_step {env : Env} {i : Instr} {rest push : List Instr} (hl : w.loop = i :: rest)
    (he : exec w.conn env i = some (c, push)) :
    step w (.exec env) = some { w with conn := c, loop := push ++ rest } := by
  simp [step, hl, he]

theorem loop_ends (k : Awake w) :
    ∃ t, system.Reaches Goes w t ∧ (Awake t ∧ t.tasks = w.tasks) ∧ t.loop = [] := by
  refine Transition.System.reaches_of_measure (fun t => height t.loop) ?_ ⟨k, rfl⟩
  rintro v ⟨kv, ht⟩ hl
  obtain ⟨i, rest, hi⟩ := List.exists_cons_of_ne_nil hl
  by_cases hh : ∃ handler, i = .handler handler
  · obtain ⟨handler, rfl⟩ := hh
    have hs : step v .ret = some { v with loop := rest } := by simp [step, hi]
    refine ⟨_, Transition.System.reaches_step (a := .ret) trivial hs,
      ⟨awake_step (a := .ret) kv trivial hs, ht⟩, ?_⟩
    simp [height, hi, Instr.size]
  · have hp := kv.isOpen.loop i (by simp [hi])
    obtain ⟨d, push, he, hlt⟩ := exec_serve kv.isOpen.state hp (fun handler hn => hh ⟨handler, hn⟩)
    have hs := exec_step hi he
    have hg : Goes v (.exec (serve v.conn i)) := serve_calm v.conn i
    refine ⟨_, Transition.System.reaches_step hg hs, ⟨awake_step kv hg hs, ht⟩, ?_⟩
    simpa [hi, height] using hlt

theorem tasks_end (k : Awake w) (hl : w.loop = []) :
    ∃ t, system.Reaches Goes w t ∧ (Awake t ∧ t.loop = []) ∧ t.tasks = [] := by
  refine Transition.System.reaches_of_measure (fun t => t.tasks.length) ?_ ⟨k, hl⟩
  rintro v ⟨kv, hv⟩ ht
  obtain ⟨⟨id, job⟩, tasks, htasks⟩ := List.exists_cons_of_ne_nil ht
  have hs : step v (.task 0) = some { v with loop := [.task (.user id) job], tasks := tasks } := by
    simp [step, hv, htasks]
  have hg : Goes v (.task 0) := trivial
  obtain ⟨t, hr, ⟨kt, hq⟩, he⟩ := loop_ends (awake_step kv hg hs)
  refine ⟨t, Transition.System.reaches_cons hg hs hr, ⟨kt, he⟩, ?_⟩
  rw [hq, htasks]
  exact Nat.lt_succ_self _

theorem write_ends (hs : w.conn.state = .kConnected) (hl : w.loop = [.handleWrite])
    (hw : w.conn.channel.writable = true) (ho : w.conn.output ≠ []) :
    ∃ t, system.Reaches Goes w t ∧ t.loop = [] ∧ t.tasks = w.tasks ∧ t.conn.output = [] := by
  have hg : Goes w (.exec (.write (.wrote w.conn.output.length))) := by
    simpa [Goes, Env.calm] using ho
  obtain ⟨u, hu, hlu, htu, hou, hsu⟩ :
      ∃ u, step w (.exec (.write (.wrote w.conn.output.length))) = some u ∧
        u.loop = [.writeDone] ∧ u.tasks = w.tasks ∧ u.conn.output = [] ∧
        u.conn.state = .kConnected :=
    ⟨_, exec_step hl (if_pos ⟨hw, ho, Nat.le_refl _⟩), rfl, rfl, List.drop_length, hs⟩
  obtain ⟨v, hv, hlv, htv, hov, hsv⟩ : ∃ v, step u (.exec .none) = some v ∧
      v.loop = [.handler .onWriteComplete, .afterWriteComplete] ∧ v.tasks = u.tasks ∧
      v.conn.output = [] ∧ v.conn.state = .kConnected :=
    ⟨_, exec_step hlu (congrArg some (if_pos hou)), rfl, rfl, hou, hsu⟩
  have hr : step v .ret = some { v with loop := [.afterWriteComplete] } := by simp [step, hlv]
  have he : step { v with loop := [.afterWriteComplete] } (.exec .none) =
      some { v with loop := [] } := by
    simp [step, exec, hsv]
  have hlast : system.Reaches Goes { v with loop := [.afterWriteComplete] } { v with loop := [] } :=
    Transition.System.reaches_step (a := .exec .none) rfl he
  have hret : system.Reaches Goes v { v with loop := [] } :=
    Transition.System.reaches_cons (a := .ret) trivial hr hlast
  have hdone : system.Reaches Goes u { v with loop := [] } :=
    Transition.System.reaches_cons (a := .exec .none) rfl hv hret
  exact ⟨{ v with loop := [] }, Transition.System.reaches_cons hg hu hdone, rfl,
    htv.trans htu, hov⟩

theorem output_ends (k : Awake w) (hl : w.loop = []) :
    ∃ t, system.Reaches Goes w t ∧ t.loop = [] ∧ t.tasks = w.tasks ∧ t.conn.output = [] := by
  by_cases ho : w.conn.output = []
  · exact ⟨w, Transition.System.reaches_refl, hl, rfl, ho⟩
  · have hs : w.conn.state = .kConnected := k.isOpen.state
    obtain ⟨hiff, hm⟩ := interest_follows k.interest (by simp [hs]) hl
    have hm := hm (by simp [hs])
    have hw : w.conn.channel.writable = true := hiff.mpr ho
    have hr : w.conn.channel.registered = true := by simp [SocketChannel.registered, hm]
    have hg : Goes w (.events .kWritable) := ⟨_, hm, .inr ⟨rfl, hw⟩⟩
    have he : step w (.events .kWritable) = some { w with loop := [.handleWrite] } := by
      simp only [step, hl, hr, if_true]
      rfl
    obtain ⟨t, ht, hlt, htt, hot⟩ := write_ends (w := { w with loop := [.handleWrite] }) hs rfl hw ho
    exact ⟨t, Transition.System.reaches_cons hg he ht, hlt, htt, hot⟩

theorem output_flushed (k : Awake w) :
    ∃ t, system.Reaches Goes w t ∧ t.loop = [] ∧ t.tasks = [] ∧ t.conn.output = [] := by
  obtain ⟨u, hu, ⟨ku, -⟩, hlu⟩ := loop_ends k
  obtain ⟨v, hv, ⟨kv, hlv⟩, htv⟩ := tasks_end ku hlu
  obtain ⟨t, ht, hlt, htt, ho⟩ := output_ends kv hlv
  exact ⟨t, Transition.System.reaches_trans hu (Transition.System.reaches_trans hv ht), hlt,
    htt.trans htv, ho⟩

end TcpConnection
end Pedronet
