import Pedronet.TcpConnection.LastCallback
import Mathlib.Data.List.Perm.Basic

namespace Pedronet
namespace TcpConnection
variable {w t : World} {c d : TcpConnection} {τ : Thread}

def CallPc.adds : CallPc → Bool
  | .start | .run .add => true
  | _ => false

def Instr.adds (τ : Thread) : Instr → Bool
  | .call pc => pc.adds && τ = .loop
  | .task sender .add => sender = τ
  | _ => false

def queuedAdd (τ : Thread) (entry : Nat × Task) : Bool := .user entry.1 = τ && entry.2 = .add

def callingAdds (users : Nat → List CallPc) : Thread → Nat
  | .loop => 0
  | .user id => (users id).countP CallPc.adds

-- The calls of Start by `τ` whose Add has not yet reached the selector.
def adding (τ : Thread) (w : World) : Nat :=
  w.loop.countP (Instr.adds τ) + w.tasks.countP (queuedAdd τ) + callingAdds w.users τ

def Action.starts : Action → Bool
  | .call _ op => op = .start
  | _ => false

def Action.startsOn (τ : Thread) : Action → Bool
  | .call thread op => op = .start && thread = τ
  | _ => false

def Record.starts (r : Record) : Bool := r.op = .start

def Record.startsOn (τ : Thread) (r : Record) : Bool := r.thread = τ && r.starts

def held (c : TcpConnection) (loop : List Instr) : Nat :=
  c.channel.registered.toNat + loop.count .handleRemove + c.invoked.count .onClose

def consumes (τ : Thread) (w : World) : Action → Bool
  | .exec _ => w.loop.head? = some (.task τ .add)
  | _ => false

theorem calls_adding {pc : CallPc} {pcs : List CallPc} (h : Calls c pc d pcs) :
    pcs.countP CallPc.adds = [pc].countP CallPc.adds := by
  cases h <;> rfl

theorem executes_adding {i : Instr} {push : List Instr} (h : Executes c i d push) :
    push.countP (Instr.adds τ) + (if i = .task τ .add then 1 else 0) =
      [i].countP (Instr.adds τ) := by
  cases h with
  | call h =>
    have hc := calls_adding h
    by_cases hτ : τ = .loop
    · simpa [List.countP_map, Function.comp_def, Instr.adds, hτ] using hc
    · simp [List.countP_map, Function.comp_def, Instr.adds, hτ]
  | run task => cases task <;> simp [Instr.adds, CallPc.adds, eq_comm]
  | _ => simp [Instr.adds, CallPc.adds, eq_comm]

theorem calling_adds_set_user (id : Nat) (pcs : List CallPc) (users : Nat → List CallPc) :
    callingAdds (fun i => if i = id then pcs else users i) τ =
      if .user id = τ then pcs.countP CallPc.adds else callingAdds users τ := by
  cases τ with
  | loop => rfl
  | user i =>
    by_cases hi : i = id
    · subst hi
      simp [callingAdds]
    · have hne : Thread.user id ≠ .user i := fun he => hi (Thread.user.inj he).symm
      simp [callingAdds, hi, hne]

theorem below_adds {i : Instr} (h : i.below = true) : i.adds τ = false := by
  cases i <;> first | rfl | cases h

theorem queued_add_take {tasks : List (Nat × Task)} {index : Nat} {entry : Nat × Task}
    (h : tasks[index]? = some entry) :
    tasks.countP (queuedAdd τ) =
      (tasks.eraseIdx index).countP (queuedAdd τ) + if queuedAdd τ entry then 1 else 0 := by
  obtain ⟨hi, rfl⟩ := List.getElem?_eq_some_iff.mp h
  rw [← (List.getElem_cons_eraseIdx_perm hi).countP_eq, List.countP_cons]

theorem on_loop_adds (op : Op) : op.onLoop.adds τ = (Action.call .loop op).startsOn τ := by
  cases op <;> simp [Op.onLoop, Instr.adds, CallPc.adds, Action.startsOn, eq_comm]

theorem on_user_adds {op : Op} {pc : CallPc} (h : op.onUser = some pc) (id : Nat) :
    (Action.call (.user id) op).startsOn τ = (pc.adds && .user id = τ) := by
  unfold Op.onUser at h
  split at h <;> cases h <;> simp [Action.startsOn, CallPc.adds]

theorem adding_step (τ : Thread) {a : Action} (h : step w a = some t) :
    adding τ t + (if consumes τ w a then 1 else 0) =
      adding τ w + if a.startsOn τ then 1 else 0 := by
  cases a with
  | call thread op =>
    cases thread with
    | loop =>
      obtain ⟨handler, rest, hl, rfl⟩ := step_call_loop h
      simp only [adding, hl, World.record, List.countP_cons, on_loop_adds, consumes]
      simp only [Bool.false_eq_true, if_false]
      omega
    | user id =>
      obtain ⟨pc, hu, ho, rfl⟩ := step_call_user h
      simp only [adding, World.setUser, World.record, calling_adds_set_user, on_user_adds ho id,
        consumes]
      by_cases hτ : .user id = τ
      · subst hτ
        simp [callingAdds, hu, List.countP_cons]
      · simp [hτ]
  | user id =>
    rcases step_calls h with ⟨task, rest, hu, rfl⟩ | ⟨pc, rest, c, pcs, hu, hc, rfl⟩
    · simp only [adding, World.setUser, calling_adds_set_user, consumes, Action.startsOn]
      by_cases hτ : .user id = τ
      · subst hτ
        cases task <;>
          simp [callingAdds, hu, List.countP_append, List.countP_cons, queuedAdd, CallPc.adds]
        omega
      · simp [hτ, List.countP_append, queuedAdd]
    · have hp := calls_adding hc
      simp only [adding, World.setUser, calling_adds_set_user, consumes, Action.startsOn]
      by_cases hτ : .user id = τ
      · subst hτ
        simp only [List.countP_cons, List.countP_nil] at hp
        simp [callingAdds, hu, List.countP_append, List.countP_cons, hp]
        omega
      · simp [hτ]
  | exec env =>
    obtain ⟨i, rest, c, push, hl, he, rfl⟩ := step_executes h
    have hp := executes_adding (τ := τ) he
    simp only [adding, hl, List.countP_append, List.countP_cons, List.countP_nil, consumes,
      List.head?_cons, Option.some.injEq, decide_eq_true_eq, Action.startsOn] at hp ⊢
    simp only [Bool.false_eq_true, if_false]
    omega
  | ret =>
    obtain ⟨handler, rest, hl, rfl⟩ := step_ret h
    simp [adding, hl, Instr.adds, consumes, Action.startsOn]
  | enter =>
    obtain ⟨hl, rfl⟩ := step_enter h
    simp [adding, hl, Instr.adds, consumes, Action.startsOn]
  | task index =>
    obtain ⟨id, task, hl, ht, -, rfl⟩ := step_task h
    simp only [adding, hl, queued_add_take ht, consumes, Action.startsOn]
    cases task <;> simp [Instr.adds, queuedAdd]
    omega
  | events events =>
    obtain ⟨hl, -, rfl⟩ := step_events h
    have hb : ((SocketChannel.handleEvents events).map callback).countP (Instr.adds τ) = 0 :=
      List.countP_eq_zero.mpr fun i hi => by simp [below_adds (events_below events i hi)]
    simp [adding, hl, hb, consumes, Action.startsOn]

def Instr.stage : Instr → Bool
  | .startCallback | .setReadable | .handleRemove | .afterClose => true
  | _ => false

def tally (g : TcpConnection → Nat) (p : Instr → Bool) (c : TcpConnection) (loop : List Instr) :
    Nat := g c + loop.countP p

theorem tally_step {g : TcpConnection → Nat} {p : Instr → Bool} {a : Action}
    (hp : ∀ i, p i = true → i.stage = true)
    (hcalls : ∀ c pc d pcs, Calls c pc d pcs → g d = g c)
    (hexec : ∀ c i d push, Executes c i d push → tally g p d push ≤ tally g p c [i] ∨
      ∃ sender, i = .task sender .add ∧ c.channel.registered = false ∧
        tally g p d push = tally g p c [i] + 1)
    (h : step w a = some t) :
    tally g p t.conn t.loop ≤ tally g p w.conn w.loop ∨
      ∃ τ, consumes τ w a = true ∧ w.conn.channel.registered = false ∧
        tally g p t.conn t.loop = tally g p w.conn w.loop + 1 := by
  have hn {i : Instr} (hi : i.stage = false) : p i = false := by
    rw [← Bool.not_eq_true]
    intro hpi
    rw [hp i hpi] at hi
    cases hi
  cases a with
  | call thread op =>
    left
    cases thread with
    | loop =>
      obtain ⟨handler, rest, hl, rfl⟩ := step_call_loop h
      have hi : p op.onLoop = false := hn (by cases op <;> rfl)
      simp [tally, World.record, hl, List.countP_cons, hi]
    | user id =>
      obtain ⟨pc, -, -, rfl⟩ := step_call_user h
      exact Nat.le_refl _
  | user id =>
    left
    rcases step_calls h with ⟨task, rest, -, rfl⟩ | ⟨pc, rest, c, pcs, -, hc, rfl⟩
    · exact Nat.le_refl _
    · simp [tally, World.setUser, hcalls _ _ _ _ hc]
  | exec env =>
    obtain ⟨i, rest, c, push, hl, he, rfl⟩ := step_executes h
    have hcons : w.loop.countP p = [i].countP p + rest.countP p := by
      rw [hl, ← List.singleton_append, List.countP_append]
    simp only [tally, List.countP_append] at *
    rcases hexec _ _ _ _ he with hle | ⟨sender, rfl, hr, heq⟩
    · exact .inl (by omega)
    · exact .inr ⟨sender, by simp [consumes, hl], hr, by omega⟩
  | ret =>
    obtain ⟨handler, rest, hl, rfl⟩ := step_ret h
    exact .inl (by simp [tally, hl, List.countP_cons])
  | enter =>
    obtain ⟨hl, rfl⟩ := step_enter h
    exact .inl (by simp [tally, hl, hn (i := .handler .other) rfl])
  | task index =>
    obtain ⟨id, task, hl, -, -, rfl⟩ := step_task h
    exact .inl (by simp [tally, hl, hn (i := .task (.user id) task) rfl])
  | events events =>
    obtain ⟨hl, -, rfl⟩ := step_events h
    have hz : ((SocketChannel.handleEvents events).map callback).countP p = 0 := by
      refine List.countP_eq_zero.mpr fun i hi => ?_
      obtain ⟨cb, -, rfl⟩ := List.mem_map.mp hi
      rw [hn (by cases cb <;> rfl)]
      exact Bool.false_ne_true
    exact .inl (by simp [tally, hl, hz])

def onChannel (c : TcpConnection) : Nat := c.channel.registered.toNat + c.invoked.count .onClose

theorem held_eq (c : TcpConnection) (loop : List Instr) :
    held c loop = tally onChannel (· == .handleRemove) c loop := by
  rw [held, tally, onChannel, List.count]
  omega

theorem executes_held {i : Instr} {push : List Instr} (h : Executes c i d push) :
    held d push ≤ held c [i] ∨ ∃ sender, i = .task sender .add ∧ c.channel.registered = false ∧
      held d push = held c [i] + 1 := by
  cases h with
  | add sender h =>
    refine .inr ⟨sender, rfl, h, ?_⟩
    have hr : c.channel.add.registered = true := rfl
    simp [held, h, hr]
    omega
  | call h =>
    left
    simp only [held, calls_channel h, calls_invoked h]
    cases h <;> simp
  | remove h =>
    left
    have hr : c.channel.remove.registered = false := rfl
    simp [held, h, hr]
  | handleRemove h =>
    left
    simp [held, invoke, List.count_append]
    omega
  | _ => exact .inl (by simp [held, setWritable, invoke, List.count_append])

theorem held_step {a : Action} (h : step w a = some t) :
    held t.conn t.loop ≤ held w.conn w.loop ∨
      ∃ τ, consumes τ w a = true ∧ w.conn.channel.registered = false ∧
        held t.conn t.loop = held w.conn w.loop + 1 := by
  simp only [held_eq]
  refine tally_step (fun i hi => ?_) (fun c pc d pcs hc => ?_) (fun c i d push he => ?_) h
  · rw [beq_iff_eq.mp hi]
    rfl
  · rw [onChannel, onChannel, calls_channel hc, calls_invoked hc]
  · simpa only [held_eq] using executes_held he

def starts (τ : Thread) (w : World) : Nat := w.calls.countP (Record.startsOn τ)

def allStarts (w : World) : Nat := w.calls.countP Record.starts

theorem starts_step (τ : Thread) {a : Action} (h : step w a = some t) :
    starts τ t = starts τ w + if a.startsOn τ then 1 else 0 := by
  rw [starts, step_records h, List.countP_append, ← starts]
  cases a <;> simp [Action.records, Record.startsOn, Record.starts, Action.startsOn, and_comm]

theorem all_starts_step {a : Action} (h : step w a = some t) :
    allStarts t = allStarts w + if a.starts then 1 else 0 := by
  rw [allStarts, step_records h, List.countP_append, ← allStarts]
  cases a <;> simp [Action.records, Record.starts, Action.starts]

theorem starts_apart {τ τ' : Thread} (hne : τ ≠ τ') (calls : List Record) :
    calls.countP (Record.startsOn τ) + calls.countP (Record.startsOn τ') ≤
      calls.countP Record.starts := by
  induction calls with
  | nil => simp
  | cons r calls ih =>
    simp only [List.countP_cons, Record.startsOn]
    by_cases hr : r.thread = τ
    · have hr' : r.thread ≠ τ' := hr ▸ hne
      simp [hr, hne]
      omega
    · by_cases hr' : r.thread = τ'
      · simp [hr', hne.symm]
        omega
      · simp [hr, hr']
        omega

theorem starts_on {a : Action} (h : a.startsOn τ = true) : a.starts = true := by
  cases a <;> simp_all [Action.startsOn, Action.starts]

structure Once (w : World) : Prop where
  added (τ : Thread) : adding τ w ≤ starts τ w
  held (τ : Thread) : held w.conn w.loop + adding τ w ≤ allStarts w

-- Only one thread has called Start, so a tally that grows does so at the cost of its own Add.
theorem spent_step {a : Action} {m n : Nat} (hm : ∀ τ, m + adding τ w ≤ allStarts w)
    (ha : ∀ τ, adding τ w ≤ starts τ w) (hn : allStarts t ≤ 1) (h : step w a = some t)
    (hgrows : n ≤ m ∨ ∃ τ, consumes τ w a = true ∧ w.conn.channel.registered = false ∧ n = m + 1)
    (τ : Thread) :
    n + adding τ t ≤ allStarts t := by
  have hadd := adding_step τ h
  have hs := hm τ
  have hall := all_starts_step h
  have hon : (if a.startsOn τ then 1 else 0) ≤ if a.starts then 1 else 0 := by
    by_cases ho : a.startsOn τ = true
    · simp [ho, starts_on ho]
    · simp [ho]
  rcases hgrows with hle | ⟨τ', hc, -, heq⟩
  · omega
  · have hadd' := adding_step τ' h
    have hs' := hm τ'
    have hexec : a.startsOn τ' = false := by
      cases a <;> first | rfl | cases hc
    simp only [hc, hexec, if_true, Bool.false_eq_true, if_false] at hadd'
    by_cases hne : τ = τ'
    · subst hne
      simp only [hc, if_true] at hadd
      omega
    · have hst := starts_apart hne w.calls
      have h1 := ha τ
      have h2 := ha τ'
      simp only [starts, allStarts] at *
      omega

theorem once_step {a : Action} (s : Once w) (hn : allStarts t ≤ 1) (h : step w a = some t) :
    Once t := by
  refine ⟨fun τ => ?_, spent_step s.held s.added hn h (held_step h)⟩
  have ha := adding_step τ h
  rw [starts_step τ h]
  have := s.added τ
  omega

structure Connecting (c : TcpConnection) : Prop where
  fresh : c.state = .kConnecting → .onConnect ∉ c.invoked ∧ .onClose ∉ c.invoked
  connects : c.invoked.count .onConnect ≤ 1
  ordered : c.invoked.Pairwise fun earlier later => earlier = .onClose → later ≠ .onConnect

theorem connecting_keeps (s : Connecting c) (hi : d.invoked = c.invoked)
    (hd : d.state = .kConnecting → c.state = .kConnecting) : Connecting d := by
  refine ⟨fun h => ?_, ?_, ?_⟩
  · rw [hi]
    exact s.fresh (hd h)
  · rw [hi]
    exact s.connects
  · rw [hi]
    exact s.ordered

theorem connecting_invokes {handler : Handler} (s : Connecting c)
    (hi : d.invoked = c.invoked ++ [handler])
    (hc : handler = .onConnect → c.state = .kConnecting)
    (hd : d.state = .kConnecting →
      c.state = .kConnecting ∧ handler ≠ .onConnect ∧ handler ≠ .onClose) : Connecting d := by
  refine ⟨fun h => ?_, ?_, ?_⟩
  · obtain ⟨hs, hne, hne'⟩ := hd h
    obtain ⟨h1, h2⟩ := s.fresh hs
    rw [hi]
    simp [h1, h2, hne.symm, hne'.symm]
  · rw [hi, List.count_append]
    by_cases hh : handler = .onConnect
    · have := List.count_eq_zero.mpr (s.fresh (hc hh)).1
      simp [hh, this]
    · simpa [List.count_cons, hh] using s.connects
  · rw [hi, List.pairwise_append]
    refine ⟨s.ordered, List.pairwise_singleton _ _, fun earlier he later hl hclose hconn => ?_⟩
    rw [List.mem_singleton.mp hl] at hconn
    exact (s.fresh (hc hconn)).2 (hclose ▸ he)

theorem calls_connecting {pc : CallPc} {pcs : List CallPc} (h : Calls c pc d pcs)
    (hd : d.state = .kConnecting) : c.state = .kConnecting := by
  cases h <;> first | exact hd | cases hd

theorem executes_connecting {i : Instr} {push : List Instr} (h : Executes c i d push)
    (s : Connecting c) : Connecting d := by
  cases h with
  | call h => exact connecting_keeps s (calls_invoked h) (calls_connecting h)
  | connect h => exact connecting_invokes s rfl (fun _ => h) fun hd => by cases hd
  | handleRemove h =>
    exact connecting_invokes s rfl (fun hn => by cases hn) fun hd => by cases h.symm.trans hd
  | read | error code h | writeComplete h =>
    exact connecting_invokes s rfl (fun hn => by cases hn) fun hd => ⟨hd, by simp, by simp⟩
  | handleCloseStore => exact connecting_keeps s rfl fun hd => by cases hd
  | _ => exact connecting_keeps s rfl id

theorem connecting_step {a : Action} (s : Connecting w.conn) (h : step w a = some t) :
    Connecting t.conn := by
  rcases step_conn h with he | ⟨id, pc, rest, pcs, rfl, hu, hc⟩ | ⟨env, i, rest, push, rfl, hl, he⟩
  · rw [he]
    exact s
  · exact connecting_keeps s (calls_invoked hc) (calls_connecting hc)
  · exact executes_connecting he s

structure ClosesOnce (w : World) : Prop where
  connects : w.conn.invoked.count .onConnect ≤ 1
  closes : w.conn.invoked.count .onClose ≤ 1
  ordered : w.conn.invoked.Pairwise fun earlier later => earlier = .onClose → later ≠ .onConnect
  absent (a : Action) (t : World) : step w a = some t →
    t.conn.invoked = w.conn.invoked ++ [.onClose] → w.conn.channel.registered = false

theorem step_closes {a : Action} (h : step w a = some t)
    (hi : t.conn.invoked = w.conn.invoked ++ [.onClose]) : .handleRemove ∈ w.loop := by
  rcases step_conn h with he | ⟨id, pc, rest, pcs, rfl, hu, hc⟩ | ⟨env, i, rest, push, rfl, hl, he⟩
  · simp [he] at hi
  · simp [calls_invoked hc] at hi
  · rcases executes_invoked he with hn | ⟨handler, hne, hn⟩ | ⟨rfl, -, -, -⟩
    · simp [hn] at hi
    · rw [hi] at hn
      exact absurd (by simpa using hn.symm) hne
    · rw [hl]
      exact List.mem_cons_self

structure Started (w : World) : Prop where
  once : Once w
  connecting : Connecting w.conn
  single : allStarts w ≤ 1

theorem started_closes_once (s : Started w) : ClosesOnce w := by
  have hheld := s.once.held .loop
  have hsingle := s.single
  simp only [held] at hheld
  refine ⟨s.connecting.connects, by omega, s.connecting.ordered, fun a t h hi => ?_⟩
  have hm := List.count_pos_iff.mpr (step_closes h hi)
  rw [← Bool.not_eq_true]
  intro hr
  simp only [hr, Bool.toNat_true] at hheld
  omega

theorem started_init : Started .init where
  once := ⟨fun τ => by cases τ <;> exact Nat.le_refl _, fun τ => by cases τ <;> exact Nat.le_refl _⟩
  connecting := ⟨fun _ => ⟨by simp [World.init, create], by simp [World.init, create]⟩,
    Nat.zero_le _, List.Pairwise.nil⟩
  single := Nat.zero_le _

theorem started_run {as : List Action} (s : Started w)
    (hn : allStarts w + as.countP Action.starts ≤ 1) (h : system.run w as = some t) :
    Started t := by
  induction as generalizing w with
  | nil =>
    cases h
    exact s
  | cons a as ih =>
    obtain ⟨u, hu, ht⟩ := Transition.System.run_cons h
    have hall := all_starts_step hu
    simp only [List.countP_cons] at hn
    have hle : allStarts u ≤ 1 := by omega
    exact ih ⟨once_step s.once hle hu, connecting_step s.connecting hu, hle⟩ (by omega) ht

theorem closes_once (as : List Action) (hn : as.countP Action.starts ≤ 1) :
    system.Always ClosesOnce .init as := by
  refine Transition.System.always_of_run fun bs t hb ht => ?_
  have hc : bs.countP Action.starts ≤ as.countP Action.starts := hb.sublist.countP_le
  refine started_closes_once (started_run started_init ?_ ht)
  have h0 : allStarts .init = 0 := rfl
  omega

def racingClosers : List Action :=
  started ++ [.ret, .exec .none, .call (.user 1) .forceClose, .user 1, .call (.user 2) .close,
    .user 2, .user 2, .user 1, .user 1, .events .kHangUp, .exec .none, .task 0, .exec .none,
    .exec .none, .exec .none, .call .loop .close, .exec .none, .ret, .exec .none, .task 0,
    .exec .none, .exec .none]

theorem closes_once_racing :
    (system.run .init racingClosers).isSome = true ∧
      system.Always ClosesOnce .init racingClosers :=
  ⟨rfl, closes_once racingClosers (by decide)⟩

end TcpConnection
end Pedronet
