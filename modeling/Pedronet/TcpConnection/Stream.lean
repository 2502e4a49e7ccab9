import Pedronet.TcpConnection.Outcomes

namespace Pedronet
namespace TcpConnection
variable {w t : World} {c d : TcpConnection} {τ : Thread}

def Task.sends : Task → List Bytes
  | .handleSend buffer | .send buffer => [buffer]
  | _ => []

def CallPc.sends : CallPc → List Bytes
  | .run job => job.sends
  | _ => []

def Record.sends (τ : Thread) (r : Record) : List Bytes :=
  match r.op with
  | .send _ buffer | .append buffer => if r.thread = τ then [buffer] else []
  | _ => []

def Action.sends (τ : Thread) : Action → List Bytes
  | .call thread (.send _ buffer) | .call thread (.append buffer) =>
    if thread = τ then [buffer] else []
  | _ => []

def sends (τ : Thread) (w : World) : List Bytes := w.calls.flatMap (Record.sends τ)

def messages (τ : Thread) (accepted : List (Thread × Bytes)) : List Bytes :=
  accepted.flatMap fun entry => if entry.1 = τ then [entry.2] else []

def acceptedOf (τ : Thread) (c : TcpConnection) : List Bytes := messages τ c.accepted

def waiting (τ : Thread) : List Instr → List Bytes
  | .task sender job :: _ => if sender = τ then job.sends else []
  | .call (.run job) :: _ => if τ = .loop then job.sends else []
  | .fill bytes :: _ => if τ = .loop then [bytes] else []
  | _ => []

def entries : List Instr → List (Thread × Bytes)
  | .task sender job :: _ => job.sends.map fun buffer => (sender, buffer)
  | .call (.run job) :: _ => job.sends.map fun buffer => (.loop, buffer)
  | .fill bytes :: _ => [(.loop, bytes)]
  | _ => []

def queued (τ : Thread) (tasks : List (Nat × Task)) : List Bytes :=
  tasks.flatMap fun entry => if .user entry.1 = τ then entry.2.sends else []

def calling (users : Nat → List CallPc) : Thread → List Bytes
  | .loop => []
  | .user id => (users id).flatMap CallPc.sends

def pending (τ : Thread) (w : World) : List Bytes :=
  waiting τ w.loop ++ (queued τ w.tasks ++ calling w.users τ)

def progress (τ : Thread) (w : World) : List Bytes := acceptedOf τ w.conn ++ pending τ w

theorem waiting_entries (loop : List Instr) : waiting τ loop = messages τ (entries loop) := by
  unfold waiting entries
  split <;> simp [messages, List.flatMap_map, eq_comm]
  all_goals split <;> simp_all

theorem entries_below {i : Instr} (h : i.below = true) (rest : List Instr) :
    entries (i :: rest) = [] := by
  cases i <;> first | rfl | cases h

theorem entries_rest {rest : List Instr} (h : ∀ i ∈ rest, i.below = true) : entries rest = [] := by
  cases rest with
  | nil => rfl
  | cons i rest => exact entries_below (h i List.mem_cons_self) rest

theorem waiting_rest {rest : List Instr} (h : ∀ i ∈ rest, i.below = true) :
    waiting τ rest = [] := by
  rw [waiting_entries, entries_rest h]
  rfl

theorem calls_sends {pc : CallPc} {pcs : List CallPc} (h : Calls c pc d pcs) :
    d.accepted = c.accepted ∧ pc.sends = [] ∧ pcs.flatMap CallPc.sends = [] := by
  cases h <;> exact ⟨rfl, rfl, rfl⟩

theorem calls_entries {pc : CallPc} {pcs : List CallPc} {rest : List Instr} (h : Calls c pc d pcs)
    (hr : ∀ i ∈ rest, i.below = true) : entries (pcs.map .call ++ rest) = [] := by
  cases h with
  | start | close | forceCloseStore | shutdown | forceShutdownStore => rfl
  | forceClose | forceShutdown => rfl
  | closeLost | forceClosed | shutdownLost | forceShutdownLost => exact entries_rest hr

theorem executes_entries {i : Instr} {push rest : List Instr} (h : Executes c i d push)
    (hr : ∀ j ∈ rest, j.below = true) :
    ∃ new, d.accepted = c.accepted ++ new ∧
      (new ++ entries (push ++ rest) = entries (i :: rest) ∨
        (c.state ≠ .kConnected ∧ new = [] ∧ entries (push ++ rest) = [])) := by
  have hrest : entries rest = [] := entries_rest hr
  cases h with
  | call h =>
    refine ⟨[], by rw [(calls_sends h).1, List.append_nil], .inl ?_⟩
    rw [List.nil_append, calls_entries h hr]
    cases h <;> rfl
  | accept sender buffer h => exact ⟨[(sender, buffer)], rfl, .inl rfl⟩
  | fill bytes => exact ⟨[(.loop, bytes)], rfl, .inl (by rw [List.nil_append, hrest]; rfl)⟩
  | giveUp sender buffer h => exact ⟨[], by rw [List.append_nil], .inr ⟨h, rfl, hrest⟩⟩
  | _ =>
    refine ⟨[], by simp [setWritable, invoke], .inl ?_⟩
    first
    | rfl
    | (rw [List.nil_append, List.nil_append, hrest]; rfl)

theorem executes_sends (τ : Thread) {i : Instr} {push rest : List Instr} (h : Executes c i d push)
    (hr : ∀ j ∈ rest, j.below = true) :
    acceptedOf τ d ++ waiting τ (push ++ rest) = acceptedOf τ c ++ waiting τ (i :: rest) ∨
      (c.state ≠ .kConnected ∧ acceptedOf τ d = acceptedOf τ c ∧ waiting τ (push ++ rest) = []) := by
  obtain ⟨new, hd, he | ⟨hn, rfl, he⟩⟩ := executes_entries h hr
  · refine .inl ?_
    simp only [acceptedOf, waiting_entries, ← he, hd, messages, List.flatMap_append,
      List.append_assoc]
  · refine .inr ⟨hn, ?_, by rw [waiting_entries, he]; rfl⟩
    rw [acceptedOf, hd, List.append_nil, ← acceptedOf]

theorem queued_take {tasks : List (Nat × Task)} {index id : Nat} {job : Task}
    (h : tasks[index]? = some (id, job)) (hf : ∀ earlier ∈ tasks.take index, earlier.1 ≠ id) :
    queued τ tasks = (if .user id = τ then job.sends else []) ++ queued τ (tasks.eraseIdx index) := by
  induction tasks generalizing index with
  | nil => cases h
  | cons entry tasks ih =>
    cases index with
    | zero =>
      cases h
      rfl
    | succ index =>
      have hne : entry.1 ≠ id := hf entry (by simp)
      have ht : tasks[index]? = some (id, job) := by simpa using h
      have hq := ih ht (fun earlier hm => hf earlier (by simp [hm]))
      simp only [queued, List.flatMap_cons, List.eraseIdx_cons_succ] at hq ⊢
      rw [hq]
      by_cases hτ : Thread.user id = τ
      · have hτ' : Thread.user entry.1 ≠ τ := by
          rw [← hτ]
          intro he
          exact hne (Thread.user.inj he)
        simp [hτ']
      · simp [hτ]

theorem calling_set_user (id : Nat) (pcs : List CallPc) (users : Nat → List CallPc) :
    calling (fun i => if i = id then pcs else users i) τ =
      if .user id = τ then pcs.flatMap CallPc.sends else calling users τ := by
  cases τ with
  | loop => rfl
  | user i =>
    by_cases hi : i = id
    · subst hi
      simp [calling]
    · have hne : Thread.user id ≠ .user i := fun he => hi (Thread.user.inj he).symm
      simp [calling, hi, hne]

theorem on_loop_waiting (op : Op) (rest : List Instr) :
    waiting τ (op.onLoop :: rest) = (Action.call .loop op).sends τ := by
  cases op <;> simp [Op.onLoop, waiting, Task.sends, Action.sends, eq_comm]

theorem on_user_sends {op : Op} {pc : CallPc} (h : op.onUser = some pc) (id : Nat) :
    (if .user id = τ then pc.sends else []) = (Action.call (.user id) op).sends τ := by
  unfold Op.onUser at h
  split at h <;> cases h <;> simp [CallPc.sends, Task.sends, Action.sends]

theorem sends_step {a : Action} (h : step w a = some t) : sends τ t = sends τ w ++ a.sends τ := by
  rw [sends, step_records h, List.flatMap_append, ← sends]
  cases a with
  | call thread op => cases op <;> simp [Action.records, Record.sends, Action.sends]
  | _ => rfl

theorem call_user_handed {id : Nat} {op : Op} (h : step w (.call (.user id) op) = some t) :
    t.loop = w.loop ∧ t.conn = w.conn ∧ queued τ t.tasks ++ calling t.users τ =
      queued τ w.tasks ++ calling w.users τ ++ (Action.call (.user id) op).sends τ := by
  obtain ⟨pc, hu, ho, rfl⟩ := step_call_user h
  refine ⟨rfl, rfl, ?_⟩
  rw [← on_user_sends ho id]
  simp only [World.setUser, World.record, calling_set_user]
  by_cases hτ : .user id = τ
  · subst hτ
    simp [calling, hu]
  · simp [hτ]

theorem user_handed {id : Nat} (h : step w (.user id) = some t) :
    t.loop = w.loop ∧ t.conn.accepted = w.conn.accepted ∧
      queued τ t.tasks ++ calling t.users τ = queued τ w.tasks ++ calling w.users τ := by
  rcases step_calls h with ⟨job, rest, hu, rfl⟩ | ⟨pc, rest, c, pcs, hu, hc, rfl⟩
  · refine ⟨rfl, rfl, ?_⟩
    simp only [World.setUser, calling_set_user, queued, List.flatMap_append]
    by_cases hτ : .user id = τ
    · subst hτ
      simp [calling, hu, CallPc.sends]
    · simp [hτ]
  · obtain ⟨ha, hpc, hpcs⟩ := calls_sends hc
    refine ⟨rfl, ha, ?_⟩
    simp only [World.setUser, calling_set_user]
    by_cases hτ : .user id = τ
    · subst hτ
      simp [calling, hu, hpc, hpcs]
    · simp [hτ]

theorem progress_step (τ : Thread) {a : Action} (l : Layered w) (h : step w a = some t) :
    progress τ t = progress τ w ++ a.sends τ ∨
      (w.conn.state ≠ .kConnected ∧ (progress τ t).Sublist (progress τ w) ∧ a.sends τ = []) := by
  cases a with
  | call thread op =>
    refine .inl ?_
    cases thread with
    | loop =>
      obtain ⟨handler, rest, hl, rfl⟩ := step_call_loop h
      have hw : progress τ w = acceptedOf τ w.conn ++ (queued τ w.tasks ++ calling w.users τ) := by
        rw [progress, pending, hl]
        rfl
      rw [hw]
      simp only [progress, pending, World.record, on_loop_waiting]
      by_cases hτ : τ = .loop
      · subst hτ
        have hq : queued .loop w.tasks = [] := by simp [queued]
        simp [hq, calling]
      · have hs : (Action.call .loop op).sends τ = [] := by
          cases op <;> simp [Action.sends, Ne.symm hτ]
        rw [hs]
        simp
    | user id =>
      have ⟨hl, hc, hq⟩ := call_user_handed (τ := τ) h
      simp only [progress, pending, hl, hc, hq, List.append_assoc]
  | user id =>
    have ⟨hl, ha, hq⟩ := user_handed (τ := τ) h
    refine .inl ?_
    simp only [progress, pending, acceptedOf, hl, ha, hq, Action.sends, List.append_nil]
  | exec env =>
    obtain ⟨i, rest, c, push, hl, he, rfl⟩ := step_executes h
    have hr : ∀ j ∈ rest, j.below = true := fun j hj => l j (by rw [hl]; exact hj)
    rcases executes_sends τ he hr with hs | ⟨hn, ha, hw⟩
    · refine .inl ?_
      simp only [progress, pending, hl, Action.sends, List.append_nil]
      rw [← List.append_assoc, hs, List.append_assoc]
    · refine .inr ⟨hn, ?_, rfl⟩
      simp only [progress, pending, hl, ha, hw, List.nil_append]
      exact (List.sublist_append_right _ _).append_left _
  | ret =>
    obtain ⟨handler, rest, hl, rfl⟩ := step_ret h
    have hr : ∀ i ∈ rest, i.below = true := fun i hi => l i (by rw [hl]; exact hi)
    refine .inl ?_
    simp only [progress, pending, hl, waiting_rest hr, Action.sends, List.append_nil]
    rfl
  | enter =>
    obtain ⟨hl, rfl⟩ := step_enter h
    refine .inl ?_
    simp only [progress, pending, hl, Action.sends, List.append_nil]
    rfl
  | task index =>
    obtain ⟨id, task, hl, ht, hf, rfl⟩ := step_task h
    refine .inl ?_
    simp only [progress, pending, hl, Action.sends, List.append_nil, queued_take ht hf, waiting,
      List.nil_append, List.append_assoc]
  | events events =>
    obtain ⟨hl, -, rfl⟩ := step_events h
    refine .inl ?_
    simp only [progress, pending, hl, Action.sends, List.append_nil, waiting_rest (events_below events)]
    rfl

theorem progress_init : progress τ .init = [] := by cases τ <;> rfl

theorem sends_in_order {a : Action} (l : Layered w) (hp : (progress τ w).Sublist (sends τ w))
    (h : step w a = some t) : (progress τ t).Sublist (sends τ t) := by
  rw [sends_step h]
  rcases progress_step τ l h with he | ⟨-, hsub, ha⟩
  · rw [he]
    exact hp.append_right _
  · rw [ha, List.append_nil]
    exact hsub.trans hp

def Instr.steady : Instr → Bool
  | .appendOutput _ => false
  | i => i.below

def unsent : List Instr → Bytes
  | .directWrite buffer :: _ => buffer
  | .appendOutput buffer :: _ => buffer
  | _ => []

def stream (c : TcpConnection) : Bytes := c.accepted.flatMap Prod.snd

structure Streamed (w : World) : Prop where
  steady : w.conn.writeFailed = false → ∀ i ∈ w.loop.tail, i.steady = true
  bytes : w.conn.writeFailed = false →
    w.conn.written ++ (w.conn.output ++ unsent w.loop) = stream w.conn

theorem unsent_steady {rest : List Instr} (h : ∀ i ∈ rest, i.steady = true) : unsent rest = [] := by
  cases rest with
  | nil => rfl
  | cons i rest =>
    have hi := h i List.mem_cons_self
    cases i <;> first | rfl | cases hi

theorem executes_failed {i : Instr} {push : List Instr} (h : Executes c i d push)
    (hd : d.writeFailed = false) : c.writeFailed = false := by
  cases h with
  | call h => cases h <;> exact hd
  | directFailed | directError | writeError => cases hd
  | _ => exact hd

theorem executes_steady {i : Instr} {push : List Instr} (h : Executes c i d push)
    (hd : d.writeFailed = false) : ∀ j ∈ push.tail, j.steady = true := by
  cases h with
  | call h => cases h <;> simp
  | directError => cases hd
  | _ => simp [Instr.steady, Instr.below]

theorem executes_bytes {i : Instr} {push rest : List Instr} (h : Executes c i d push)
    (hd : d.writeFailed = false) (hr : unsent rest = [])
    (hb : c.written ++ (c.output ++ unsent (i :: rest)) = stream c) :
    d.written ++ (d.output ++ unsent (push ++ rest)) = stream d := by
  cases h with
  | call h =>
    have hb' : c.written ++ (c.output ++ []) = stream c := hb
    cases h <;> first | exact hb' | (rw [List.map_nil, List.nil_append, hr]; exact hb')
  | accept sender buffer h =>
    have hb' : c.written ++ (c.output ++ []) = stream c := hb
    have hs : stream { c with accepted := c.accepted ++ [(sender, buffer)] } = stream c ++ buffer := by
      simp [stream]
    rw [hs, ← hb']
    simp [unsent]
  | directWrote buffer n h =>
    have hb' : c.written ++ ([] ++ buffer) = stream c := h ▸ hb
    have hs : (c.written ++ buffer.take n) ++ ([] ++ buffer.drop n) = stream c := by
      rw [← hb']
      simp
    rw [← h] at hs
    exact hs
  | directFailed | directError | writeError => cases hd
  | append buffer h =>
    rw [List.nil_append, hr]
    have hs : c.written ++ ((c.output ++ buffer) ++ []) = stream c := by
      rw [List.append_nil]
      exact hb
    exact hs
  | appendNone =>
    rw [List.nil_append, hr]
    exact hb
  | fill bytes =>
    have hb' : c.written ++ (c.output ++ []) = stream c := hb
    rw [stream, List.flatMap_append, ← stream, ← hb', List.nil_append, hr]
    simp
  | wrote n h =>
    have hb' : c.written ++ (c.output ++ []) = stream c := hb
    have hs : (c.written ++ c.output.take n) ++ (c.output.drop n ++ []) = stream c := by
      rw [← hb']
      simp
    exact hs
  | _ => first | exact hb | (rw [List.nil_append, hr]; exact hb)

theorem streamed_step {a : Action} (s : Streamed w) (h : step w a = some t) : Streamed t := by
  cases a with
  | call thread op =>
    cases thread with
    | loop =>
      obtain ⟨handler, rest, hl, rfl⟩ := step_call_loop h
      obtain ⟨hst, hb⟩ := s
      rw [hl] at hst hb
      refine ⟨fun hd i hi => ?_, fun hd => ?_⟩
      · rcases List.mem_cons.mp hi with rfl | hi
        · rfl
        · exact hst hd i hi
      · have hu : unsent (op.onLoop :: .handler handler :: rest) = [] := by cases op <;> rfl
        rw [hu]
        exact hb hd
    | user id =>
      obtain ⟨pc, -, -, rfl⟩ := step_call_user h
      exact ⟨s.steady, s.bytes⟩
  | user id =>
    rcases step_calls h with ⟨task, rest, -, rfl⟩ | ⟨pc, rest, c, pcs, -, hc, rfl⟩
    · exact ⟨s.steady, s.bytes⟩
    · cases hc <;> exact ⟨s.steady, s.bytes⟩
  | exec env =>
    obtain ⟨i, rest, c, push, hl, he, rfl⟩ := step_executes h
    obtain ⟨hst, hb⟩ := s
    rw [hl] at hst hb
    refine ⟨fun hd j hj => ?_, fun hd => ?_⟩
    · have hrest := hst (executes_failed he hd)
      cases push with
      | nil => exact hrest j (List.mem_of_mem_tail hj)
      | cons top push =>
        rcases List.mem_append.mp hj with hj | hj
        · exact executes_steady he hd j hj
        · exact hrest j hj
    · have hc := executes_failed he hd
      exact executes_bytes he hd (unsent_steady (hst hc)) (hb hc)
  | ret =>
    obtain ⟨handler, rest, hl, rfl⟩ := step_ret h
    obtain ⟨hst, hb⟩ := s
    rw [hl] at hst hb
    refine ⟨fun hd i hi => hst hd i (List.mem_of_mem_tail hi), fun hd => ?_⟩
    have hr : unsent rest = [] := unsent_steady (hst hd)
    have hs : w.conn.written ++ (w.conn.output ++ unsent rest) = stream w.conn := hr ▸ hb hd
    exact hs
  | enter =>
    obtain ⟨hl, rfl⟩ := step_enter h
    obtain ⟨-, hb⟩ := s
    rw [hl] at hb
    exact ⟨fun _ i hi => (by cases hi), hb⟩
  | task index =>
    obtain ⟨id, task, hl, -, -, rfl⟩ := step_task h
    obtain ⟨-, hb⟩ := s
    rw [hl] at hb
    exact ⟨fun _ i hi => (by cases hi), hb⟩
  | events events =>
    obtain ⟨hl, -, rfl⟩ := step_events h
    obtain ⟨-, hb⟩ := s
    rw [hl] at hb
    have hst : ∀ i ∈ (SocketChannel.handleEvents events).map callback, i.steady = true := by
      intro i hi
      obtain ⟨cb, -, rfl⟩ := List.mem_map.mp hi
      cases cb <;> rfl
    refine ⟨fun _ i hi => hst i (List.mem_of_mem_tail hi), fun hd => ?_⟩
    rw [unsent_steady hst]
    exact hb hd

theorem streamed_init : Streamed .init where
  steady _ _ h := by cases h
  bytes _ := rfl

end TcpConnection
end Pedronet
