import Pedronet.TcpConnection.LastCallback
import Pedronet.TcpConnection.BackPressure

namespace Pedronet
namespace TcpConnection
variable {w t : World} {c d : TcpConnection}

def Instr.mayWrite : Instr → Bool
  | .directWrite _ | .handleWrite => true
  | _ => false

-- The result of a write is read by the step that calls channel_->Write.
def Writes (w : World) : Action → Prop
  | .exec (.write _) => ∃ i ∈ w.loop.head?, i.mayWrite = true
  | _ => False

instance (w : World) : DecidablePred (Writes w)
  | .exec (.write _) =>
    decidable_of_iff (w.loop.head?.any Instr.mayWrite = true) (by simp [Option.any_eq_true, Writes])
  | .exec .none | .exec (.read _) | .exec (.soError _) => isFalse id
  | .call _ _ | .user _ | .ret | .enter | .task _ | .events _ => isFalse id

def TurnsOn (w t : World) : Prop :=
  w.conn.channel.writable = false ∧ t.conn.channel.writable = true

def WritesNothing (w : World) (a : Action) : Prop :=
  w.conn.writeClosed = true → ¬ Writes w a ∧ ∀ t, step w a = some t → ¬ TurnsOn w t

def Instr.unsent : Instr → Bool
  | .directWrite _ => true
  | .appendOutput buffer => buffer != []
  | _ => false

-- The write side is closed when nothing waits for it, neither behind the write interest nor in a
-- handleSend that reports its failed write, and output_ is not sent after that.
def Instr.guarded (w : World) : Instr → Prop
  | .closeWrite => w.conn.channel.writable = false ∧ ∀ i ∈ w.loop, i.unsent = false
  | .sendOutput => w.conn.writeClosed = true → w.conn.output = []
  | _ => True

instance (w : World) (i : Instr) : Decidable (i.guarded w) := by
  unfold Instr.guarded
  split <;> infer_instance

def Guarded (w : World) : Action → Prop
  | .exec _ => ∀ i ∈ w.loop.head?, i.guarded w
  | .call _ _ | .user _ | .ret | .enter | .task _ | .events _ => True

instance (w : World) : DecidablePred (Guarded w)
  | .exec _ => inferInstanceAs (Decidable (∀ _ ∈ _, _))
  | .call _ _ | .user _ | .ret | .enter | .task _ | .events _ => isTrue trivial

def Task.shuts : Task → Bool
  | .shutdown | .forceShutdown => true
  | _ => false

def CallPc.shuts : CallPc → Bool
  | .run task => task.shuts
  | _ => false

def Instr.shuts : Instr → Bool
  | .call pc => pc.shuts
  | .task _ job => job.shuts
  | .closeWrite => true
  | _ => false

structure Shut (w : World) : Prop where
  closing : w.conn.state.past = false →
    Carried (·.shuts = false) (fun _ pc => pc.shuts = false) (·.shuts = false) w
  past : w.conn.writeClosed = true → w.conn.state.past = true
  unwritable : w.conn.writeClosed = true → w.conn.channel.writable = false
  unsent : w.conn.writeClosed = true → ∀ i ∈ w.loop, i.unsent = false

theorem past_step {a : Action} (h : step w a = some t) (hw : w.conn.state.past = true) :
    t.conn.state.past = true := by
  have hc : w.conn.state ≠ .kConnecting := by
    intro hs
    rw [hs] at hw
    cases hw
  obtain ⟨h1, h2⟩ := step_connected h hc
  cases ht : t.conn.state with
  | kConnecting => exact absurd ht h1
  | kConnected =>
    rw [h2 ht] at hw
    cases hw
  | kDisconnecting | kDisconnected => rfl

theorem calls_shuts {pc : CallPc} {pcs : List CallPc} (h : Calls c pc d pcs)
    (hd : d.state.past = false) : ∀ p ∈ pcs, p.shuts = false := by
  cases h with
  | shutdown | forceShutdownStore => cases hd
  | _ => simp [CallPc.shuts, Task.shuts]

theorem executes_shuts {i : Instr} {push : List Instr} (h : Executes c i d push)
    (hi : i.shuts = false) (hd : d.state.past = false) : ∀ j ∈ push, j.shuts = false := by
  cases h with
  | run task => simpa [Instr.shuts, CallPc.shuts] using hi
  | call h =>
    intro j hj
    obtain ⟨pc, hpc, rfl⟩ := List.mem_map.mp hj
    exact calls_shuts h hd pc hpc
  | shutdownTask | forceShutdownTask => cases hi
  | disconnecting h =>
    rw [h] at hd
    cases hd
  | _ => simp [Instr.shuts, CallPc.shuts, Task.shuts]

theorem closing_step {a : Action} (s : Shut w) (h : step w a = some t)
    (ht : t.conn.state.past = false) :
    Carried (·.shuts = false) (fun _ pc => pc.shuts = false) (·.shuts = false) t := by
  have hw : w.conn.state.past = false := by
    refine Bool.eq_false_iff.mpr fun hp => ?_
    rw [past_step h hp] at ht
    cases ht
  have k := s.closing hw
  refine carried_step k h ?_ ?_ ?_ ?_ ?_ ?_ ?_ ?_
  · rintro op -
    cases op <;> rfl
  · rintro id op pc - ho
    unfold Op.onUser at ho
    split at ho <;> cases ho <;> rfl
  · exact fun _ _ hj => hj
  · exact fun _ _ _ _ hc => calls_shuts hc ht
  · exact fun _ i _ _ _ hl he => executes_shuts he (k.loop i (by simp [hl])) ht
  · exact fun _ _ hj => hj
  · rfl
  · intro _ cb
    cases cb <;> rfl

theorem executes_writable {i : Instr} {push : List Instr} (h : Executes c i d push)
    (hc : c.channel.writable = false) (hi : i.unsent = false)
    (ho : i = .sendOutput → c.output = []) : d.channel.writable = false := by
  cases h with
  | call h => rwa [calls_channel h]
  | append buffer h => simp [Instr.unsent, h] at hi
  | sendOutput h => exact absurd (ho rfl) h
  | setReadable => simpa using hc
  | shutdownTask | forceShutdownTask => simp [setWritable]
  | writeComplete => simp [setWritable, invoke]
  | _ => exact hc

theorem executes_unsent {i : Instr} {push : List Instr} (h : Executes c i d push)
    (hc : c.state.past = true) (hi : i.unsent = false) : ∀ j ∈ push, j.unsent = false := by
  cases h with
  | accept sender buffer h =>
    rw [h] at hc
    cases hc
  | directQueue | directWrote | directFailed | directError => cases hi
  | call h => simp [Instr.unsent]
  | _ => simp [Instr.unsent]

theorem calls_write_closed {pc : CallPc} {pcs : List CallPc} (h : Calls c pc d pcs) :
    d.writeClosed = c.writeClosed := by
  cases h <;> rfl

theorem executes_write_closed {i : Instr} {push : List Instr} (h : Executes c i d push) :
    d.writeClosed = c.writeClosed ∨ i = .closeWrite ∧ d = { c with writeClosed := true } ∧
      push = [] := by
  cases h with
  | closeWrite => exact .inr ⟨rfl, rfl, rfl⟩
  | call h => exact .inl (calls_write_closed h)
  | _ => exact .inl rfl

theorem shut_exec {env : Env} (s : Shut w) (hg : Guarded w (.exec env))
    (h : step w (.exec env) = some t) : Shut t := by
  have hclosing := closing_step s h
  have hpast := past_step h
  obtain ⟨i, rest, c, push, hl, he, rfl⟩ := step_executes h
  have hgi := hg i (by simp [hl])
  rcases executes_write_closed he with hc | ⟨rfl, rfl, rfl⟩
  · have hw : c.writeClosed = true → w.conn.writeClosed = true := fun ht => hc ▸ ht
    refine ⟨hclosing, fun ht => hpast (s.past (hw ht)), fun ht => ?_, fun ht j hj => ?_⟩
    · refine executes_writable he (s.unwritable (hw ht)) (s.unsent (hw ht) i (by simp [hl])) ?_
      rintro rfl
      exact hgi (hw ht)
    · have hu := s.unsent (hw ht)
      rcases List.mem_append.mp hj with hj | hj
      · exact executes_unsent he (s.past (hw ht)) (hu i (by simp [hl])) j hj
      · exact hu j (by simp [hl, hj])
  · have hp : w.conn.state.past = true := by
      refine Decidable.byContradiction fun hn => ?_
      have hi := (s.closing (Bool.eq_false_iff.mpr hn)).loop .closeWrite (by simp [hl])
      cases hi
    obtain ⟨hw, hu⟩ := hgi
    refine ⟨hclosing, fun _ => hp, fun _ => hw, fun _ j hj => hu j ?_⟩
    rw [hl]
    exact List.mem_cons_of_mem _ hj

theorem shut_step {a : Action} (s : Shut w) (hg : Guarded w a) (h : step w a = some t) :
    Shut t := by
  have hclosing := closing_step s h
  have hpast := past_step h
  cases a with
  | call thread op =>
    cases thread with
    | loop =>
      obtain ⟨handler, rest, hl, rfl⟩ := step_call_loop h
      refine ⟨hclosing, s.past, s.unwritable, fun hw i hi => ?_⟩
      rcases List.mem_cons.mp hi with rfl | hi
      · cases op <;> rfl
      · exact s.unsent hw i (by rwa [hl])
    | user id =>
      obtain ⟨pc, -, -, rfl⟩ := step_call_user h
      exact ⟨hclosing, s.past, s.unwritable, s.unsent⟩
  | user id =>
    rcases step_calls h with ⟨task, rest, -, rfl⟩ | ⟨pc, rest, c, pcs, -, hc, rfl⟩
    · exact ⟨hclosing, s.past, s.unwritable, s.unsent⟩
    · have hw := calls_write_closed hc
      refine ⟨hclosing, fun ht => hpast (s.past (hw ▸ ht)), fun ht => ?_, fun ht => ?_⟩
      · change c.channel.writable = false
        rw [calls_channel hc]
        exact s.unwritable (hw ▸ ht)
      · exact s.unsent (hw ▸ ht)
  | exec env => exact shut_exec s hg h
  | ret =>
    obtain ⟨handler, rest, hl, rfl⟩ := step_ret h
    exact ⟨hclosing, s.past, s.unwritable, fun hw i hi => s.unsent hw i (by simp [hl, hi])⟩
  | enter =>
    obtain ⟨-, rfl⟩ := step_enter h
    refine ⟨hclosing, s.past, s.unwritable, fun _ i hi => ?_⟩
    rw [List.mem_singleton.mp hi]
    rfl
  | task index =>
    obtain ⟨id, task, -, -, -, rfl⟩ := step_task h
    refine ⟨hclosing, s.past, s.unwritable, fun _ i hi => ?_⟩
    rw [List.mem_singleton.mp hi]
    rfl
  | events events =>
    obtain ⟨-, -, rfl⟩ := step_events h
    refine ⟨hclosing, s.past, s.unwritable, fun _ i hi => ?_⟩
    obtain ⟨cb, -, rfl⟩ := List.mem_map.mp hi
    cases cb <;> rfl

theorem shut_init : Shut .init where
  closing _ := ⟨(fun _ h => by cases h), (fun _ _ h => by cases h), fun _ h => by cases h⟩
  past h := by cases h
  unwritable h := by cases h
  unsent h := by cases h

theorem not_writes {a : Action} (s : Shut w) (hw : w.conn.writeClosed = true)
    (h : step w a = some t) : ¬ Writes w a := by
  intro hx
  cases a with
  | exec env =>
    cases env with
    | write result =>
      obtain ⟨i, hi, hm⟩ := hx
      obtain ⟨j, rest, c, push, hl, he, -⟩ := step_exec h
      rw [hl] at hi
      cases hi
      have hu := s.unsent hw i (by simp [hl])
      cases i with
      | directWrite buffer => cases hu
      | handleWrite => cases result <;> simp [exec, handleWrite, s.unwritable hw] at he
      | _ => cases hm
    | _ => exact hx
  | _ => exact hx

theorem writes_nothing {a : Action} (s : Shut w) (hg : Guarded w a) (h : step w a = some t) :
    WritesNothing w a := by
  intro hw
  refine ⟨not_writes s hw h, fun u hu ⟨_, hon⟩ => ?_⟩
  have hs := shut_step s hg hu
  have hc : u.conn.writeClosed = true := by
    rcases step_conn hu with he | ⟨_, _, _, _, _, _, hc⟩ | ⟨_, _, _, _, _, _, he⟩
    · rwa [he]
    · rwa [calls_write_closed hc]
    · rcases executes_write_closed he with he | ⟨-, he, -⟩
      · rwa [he]
      · rw [he]
  rw [hs.unwritable hc] at hon
  cases hon

theorem nothing_written (as : List Action) (h : system.Along Guarded .init as) :
    system.Along WritesNothing .init as :=
  Transition.System.along_of_along (fun _ _ _ s hg h => shut_step s hg h)
    (fun _ _ _ s hg h => writes_nothing s hg h) shut_init h

def shutdownInCallback : List Action :=
  started ++ ([.call .loop (.append [1]), .exec .none, .call .loop .forceShutdown, .exec .none,
    .exec .none, .exec .none, .exec .none, .exec .none, .call .loop (.send .view [2]), .exec .none,
    .exec .none, .ret, .exec .none, .events .kWritable, .exec .none] : List Action)

theorem nothing_written_shutdown :
    (system.run .init shutdownInCallback).any (fun w => w.conn.writeClosed) = true ∧
      system.Along WritesNothing .init shutdownInCallback :=
  ⟨rfl, nothing_written shutdownInCallback (by decide)⟩

-- ForceShutdown leaves the bytes in output_, and Send(&output_) does not look at state_.
def sentAfterShutdown : List Action :=
  started ++ ([.call .loop (.append [1]), .exec .none, .call .loop .forceShutdown, .exec .none,
    .exec .none, .exec .none, .exec .none, .exec .none, .call .loop .sendOutput, .exec .none] :
      List Action)

theorem written_after_close : ¬ ∀ as, system.Along WritesNothing .init as := by
  intro h
  have ha := h (sentAfterShutdown ++ [.exec (.write (.wrote 1))])
  exact (Transition.System.along_last ha rfl rfl rfl).1 ⟨_, rfl, rfl⟩

end TcpConnection
end Pedronet
