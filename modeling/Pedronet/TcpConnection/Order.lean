import Pedronet.TcpConnection.Outcomes

namespace Pedronet
namespace TcpConnection
variable {w t : World} {c d : TcpConnection}

def State.rank : State → Nat
  | .kConnecting => 0
  | .kConnected => 1
  | .kDisconnecting => 2
  | .kDisconnected => 3

theorem disconnected_of_rank {s : State} (h : State.kDisconnected.rank ≤ s.rank) :
    s = .kDisconnected := by
  cases s <;> first | rfl | exact absurd h (by decide)

structure Ordered (w t : World) (a : Action) : Prop where
  ascends : w.conn.state.rank ≤ t.conn.state.rank
  handled : w.conn.channel.registered = true → t.conn.channel.registered = false →
    t.loop.head? = some .handleRemove
  reported (env : Env) : a = .exec env → w.loop.head? = some .handleRemove →
    w.conn.state = .kDisconnected ∧ t.conn.invoked = w.conn.invoked ++ [.onClose]

def InOrder (w : World) (a : Action) : Prop := ∀ t, step w a = some t → Ordered w t a

def StoresInTime (w : World) : Action → Prop
  | .user id => (w.users id).head? = some .forceShutdownStore → w.conn.state ≠ .kDisconnected
  | .exec _ => w.loop.head? = some (.call .forceShutdownStore) → w.conn.state ≠ .kDisconnected
  | _ => True

instance (w : World) : DecidablePred (StoresInTime w)
  | .user _ | .exec _ => inferInstanceAs (Decidable (_ → _))
  | .call _ _ | .ret | .enter | .task _ | .events _ => isTrue trivial

theorem calls_rank {pc : CallPc} {pcs : List CallPc} (h : Calls c pc d pcs) :
    c.state.rank ≤ d.state.rank ↔ (pc = .forceShutdownStore → c.state ≠ .kDisconnected) := by
  cases h with
  | close h | shutdown h => simp [h, State.rank]
  | forceCloseStore => cases hs : c.state <;> simp [State.rank]
  | forceShutdownStore => cases hs : c.state <;> simp [State.rank]
  | _ => simp

theorem executes_rank {i : Instr} {push : List Instr} (h : Executes c i d push) :
    c.state.rank ≤ d.state.rank ↔
      (i = .call .forceShutdownStore → c.state ≠ .kDisconnected) := by
  cases h with
  | call h => simpa using calls_rank h
  | connect h => simp [h, invoke, State.rank]
  | handleCloseStore => cases hs : c.state <;> simp [State.rank]
  | _ => simp [setWritable, invoke]

theorem step_rank {a : Action} (h : step w a = some t) :
    w.conn.state.rank ≤ t.conn.state.rank ↔ StoresInTime w a := by
  cases a with
  | call thread op =>
    refine iff_of_true ?_ trivial
    cases thread with
    | loop =>
      obtain ⟨handler, rest, -, rfl⟩ := step_call_loop h
      exact Nat.le_refl _
    | user id =>
      obtain ⟨pc, -, -, rfl⟩ := step_call_user h
      exact Nat.le_refl _
  | user id =>
    rcases step_calls h with ⟨task, rest, hu, rfl⟩ | ⟨pc, rest, c, pcs, hu, hc, rfl⟩
    · exact iff_of_true (Nat.le_refl _) (by simp [StoresInTime, hu])
    · simp only [StoresInTime, hu, List.head?_cons, Option.some.injEq]
      exact calls_rank hc
  | exec env =>
    obtain ⟨i, rest, c, push, hl, he, rfl⟩ := step_executes h
    simp only [StoresInTime, hl, List.head?_cons, Option.some.injEq]
    exact executes_rank he
  | ret =>
    obtain ⟨handler, rest, -, rfl⟩ := step_ret h
    exact iff_of_true (Nat.le_refl _) trivial
  | enter =>
    obtain ⟨-, rfl⟩ := step_enter h
    exact iff_of_true (Nat.le_refl _) trivial
  | task index =>
    obtain ⟨id, task, -, -, -, rfl⟩ := step_task h
    exact iff_of_true (Nat.le_refl _) trivial
  | events events =>
    obtain ⟨-, -, rfl⟩ := step_events h
    exact iff_of_true (Nat.le_refl _) trivial

theorem calls_channel {pc : CallPc} {pcs : List CallPc} (h : Calls c pc d pcs) :
    d.channel = c.channel := by
  cases h <;> rfl

theorem executes_removes {i : Instr} {push : List Instr} (h : Executes c i d push)
    (hc : c.channel.registered = true) (hd : d.channel.registered = false) :
    push = [.handleRemove] := by
  cases h with
  | remove h => rfl
  | add sender h => cases hd
  | call h =>
    rw [calls_channel h, hc] at hd
    cases hd
  | _ =>
    simp [setWritable, invoke, hc] at hd

theorem step_removes {a : Action} (h : step w a = some t)
    (hw : w.conn.channel.registered = true) (ht : t.conn.channel.registered = false) :
    t.loop.head? = some .handleRemove := by
  rcases step_conn h with he | ⟨id, pc, rest, pcs, rfl, hu, hc⟩ | ⟨env, -, -, -, rfl, -, -⟩
  · rw [he, hw] at ht
    cases ht
  · rw [calls_channel hc, hw] at ht
    cases ht
  · obtain ⟨i, rest, c, push, -, he, rfl⟩ := step_executes h
    rw [executes_removes he hw ht]
    rfl

def Task.removes : Task → Bool
  | .close | .forceClose => true
  | _ => false

def CallPc.removes : CallPc → Bool
  | .run task => task.removes
  | _ => false

def Instr.removes : Instr → Bool
  | .call pc => pc.removes
  | .task _ job => job.removes
  | .remove | .handleRemove => true
  | _ => false

def Removing (state : State) (w : World) : Prop :=
  Carried (fun i => i.removes = true → state = .kDisconnected)
    (fun _ pc => pc.removes = true → state = .kDisconnected)
    (fun task => task.removes = true → state = .kDisconnected) w

theorem calls_removes {pc : CallPc} {pcs : List CallPc} (h : Calls c pc d pcs) :
    ∀ p ∈ pcs, p.removes = true → d.state = .kDisconnected := by
  cases h with
  | close h => simp
  | forceCloseStore => simp
  | _ => simp [CallPc.removes, Task.removes]

theorem executes_removing {i : Instr} {push : List Instr} (h : Executes c i d push)
    (hi : i.removes = true → d.state = .kDisconnected) :
    ∀ j ∈ push, j.removes = true → d.state = .kDisconnected := by
  cases h with
  | call h =>
    intro j hj
    obtain ⟨pc, hpc, rfl⟩ := List.mem_map.mp hj
    exact calls_removes h pc hpc
  | run task | closeTask | forceCloseTask | remove h =>
    intro j hj hr
    exact hi (by simp_all [Instr.removes, CallPc.removes, Task.removes])
  | handleCloseStore => simp
  | _ => simp [Instr.removes, CallPc.removes, Task.removes]

theorem removing_step {a : Action} (s : Removing w.conn.state w) (ha : StoresInTime w a)
    (h : step w a = some t) : Removing t.conn.state t := by
  have hd : w.conn.state = .kDisconnected → t.conn.state = .kDisconnected := by
    intro hw
    exact disconnected_of_rank (hw ▸ (step_rank h).mpr ha)
  have s' : Removing t.conn.state w :=
    ⟨fun i hi hr => hd (s.loop i hi hr), fun id pc hp hr => hd (s.users id pc hp hr),
      fun entry he hr => hd (s.tasks entry he hr)⟩
  refine carried_step s' h ?_ ?_ ?_ ?_ ?_ ?_ ?_ ?_
  · rintro op rfl hr
    cases op <;> cases hr
  · rintro id op pc rfl ho hr
    unfold Op.onUser at ho
    split at ho <;> cases ho <;> cases hr
  · exact fun id job hj => hj
  · exact fun id pc pcs hp hc => calls_removes hc
  · exact fun _ i rest push _ hl he => executes_removing he (s'.loop i (by simp [hl]))
  · exact fun id job hj => hj
  · intro hr
    cases hr
  · intro _ cb hr
    cases cb <;> cases hr

theorem removing_init : Removing .kConnecting .init where
  loop _ h := by cases h
  users _ _ h := by cases h
  tasks _ h := by cases h

theorem step_reports {a : Action} {env : Env} (s : Removing w.conn.state w)
    (h : step w a = some t) (ha : a = .exec env) (hl : w.loop.head? = some .handleRemove) :
    w.conn.state = .kDisconnected ∧ t.conn.invoked = w.conn.invoked ++ [.onClose] := by
  subst ha
  obtain ⟨i, rest, c, push, hi, he, rfl⟩ := step_executes h
  rw [hi] at hl
  cases hl
  have hd : w.conn.state = .kDisconnected := s.loop _ (by rw [hi]; exact List.mem_cons_self) rfl
  refine ⟨hd, ?_⟩
  cases he with
  | handleRemove hs => rfl
  | shouldNotHappen hs => exact absurd hd hs

theorem step_ordered {a : Action} (s : Removing w.conn.state w) (h : step w a = some t) :
    Ordered w t a ↔ StoresInTime w a := by
  constructor
  · exact fun o => (step_rank h).mp o.ascends
  · intro ha
    exact ⟨(step_rank h).mpr ha, step_removes h, fun _ => step_reports s h⟩

theorem state_ascends_iff (as : List Action) :
    system.Along InOrder .init as ↔ system.Along StoresInTime .init as := by
  refine Transition.System.along_iff_along (I := fun w => Removing w.conn.state w)
    (fun _ _ _ s ha h => removing_step s ha h) (fun w a t s h => ?_) removing_init
  rw [← step_ordered s h]
  constructor
  · exact fun ha => ha t h
  · rintro o u hu
    cases h.symm.trans hu
    exact o

-- ForceShutdown tests the state, another thread's Close wins its exchange, ForceShutdown stores.
def overtakenShutdown : List Action :=
  started ++ [.ret, .exec .none, .call (.user 1) .forceShutdown, .user 1, .call (.user 2) .close,
    .user 2, .user 2, .user 1, .task 0, .exec .none, .exec .none]

theorem state_descends : ¬ ∀ as, system.Along InOrder .init as := by
  intro h
  have ho := Transition.System.along_last (a := Action.exec .none)
    (h (overtakenShutdown ++ [.exec .none])) rfl rfl
  have hd := ((ho _ rfl).reported .none rfl rfl).1
  cases hd

end TcpConnection
end Pedronet
