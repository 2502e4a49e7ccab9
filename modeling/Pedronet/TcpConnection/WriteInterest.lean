import Pedronet.TcpConnection.Order
import Pedronet.TcpConnection.Shutdown

namespace Pedronet
namespace TcpConnection
variable {w t : World} {c d : TcpConnection}

def FollowsOutput (w : World) : Prop :=
  w.conn.state ≠ .kDisconnected → w.loop = [] →
    (w.conn.channel.writable = true ↔ w.conn.output ≠ []) ∧
      (w.conn.state ≠ .kConnecting → w.conn.channel.mask = some w.conn.channel.events)

def lastOp (calls : List Record) : Option Op :=
  (calls.filter fun r => r.thread = .loop).getLast?.map Record.op

def Op.appends : Op → Bool
  | .append _ => true
  | _ => false

-- A handler has put bytes into output_ and has called nothing since.
def appending (w : World) : Bool := (lastOp w.calls).any Op.appends

def Instr.inCallback : Instr → Bool
  | .handler .onConnect | .handler .onRead | .handler .onWriteComplete | .handler (.onError _) => true
  | _ => false

-- OnConnect, OnRead, OnWriteComplete and OnError write into output_ directly only when they call
-- Send(&output_) before anything else.
def Flushes (w : World) : Action → Prop
  | .call .loop op =>
    (op.appends = true → w.loop.head?.any Instr.inCallback = true) ∧
      (appending w = true → op.appends = true ∨ op = .sendOutput)
  | .ret => appending w = false
  | .call (.user _) _ | .user _ | .exec _ | .enter | .task _ | .events _ => True

instance (w : World) : DecidablePred (Flushes w)
  | .call .loop _ => inferInstanceAs (Decidable (_ ∧ _))
  | .ret => inferInstanceAs (Decidable (_ = _))
  | .call (.user _) _ | .user _ | .exec _ | .enter | .task _ | .events _ => isTrue trivial

def Balanced (c : TcpConnection) : Prop := c.channel.writable = true ↔ c.output ≠ []

def Follows (appending : Bool) (c : TcpConnection) : List Instr → Prop
  | .writeDone :: _ => appending = false ∧ (c.output ≠ [] → c.channel.writable = true)
  | .fill _ :: rest =>
    appending = true ∧ (c.channel.writable = true → c.output ≠ []) ∧
      ∃ handler more, rest = .handler handler :: more
  | .sendOutput :: _ => appending = false ∧ (c.channel.writable = true → c.output ≠ [])
  | .handler _ :: _ =>
    (c.channel.writable = true → c.output ≠ []) ∧ (appending = false → Balanced c)
  | _ => appending = false ∧ Balanced c

theorem follows_rest {rest : List Instr} (hr : ∀ i ∈ rest, i.below = true) (hb : Balanced c) :
    Follows false c rest := by
  cases rest with
  | nil => exact ⟨rfl, hb⟩
  | cons i rest =>
    have hi := hr i List.mem_cons_self
    cases i with
    | handler handler => exact ⟨hb.mp, fun _ => hb⟩
    | _ => first | exact ⟨rfl, hb⟩ | cases hi

theorem balanced_set_writable (c : TcpConnection) (h : c.output ≠ []) :
    Balanced (c.setWritable true) := by
  simp [Balanced, setWritable, h]

theorem balanced_unset_writable (c : TcpConnection) (h : c.output = []) :
    Balanced (c.setWritable false) := by
  simp [Balanced, setWritable, h]

theorem calls_balanced {pc : CallPc} {pcs : List CallPc} (h : Calls c pc d pcs) (hb : Balanced c) :
    Balanced d := by
  cases h <;> exact hb

theorem calls_follows {pc : CallPc} {pcs : List CallPc} {rest : List Instr} (h : Calls c pc d pcs)
    (hr : ∀ i ∈ rest, i.below = true) (hb : Balanced c) :
    Follows false d (pcs.map .call ++ rest) := by
  have hd := calls_balanced h hb
  cases pcs with
  | nil => exact follows_rest hr hd
  | cons p pcs => exact ⟨rfl, hd⟩

theorem executes_follows {i : Instr} {push rest : List Instr} {app : Bool} (h : Executes c i d push)
    (hg : i.gentle = true) (hr : ∀ j ∈ rest, j.below = true) (hf : Follows app c (i :: rest)) :
    Follows app d (push ++ rest) := by
  cases h with
  | fill bytes =>
    obtain ⟨rfl, hw, handler, more, rfl⟩ := hf
    exact ⟨fun ho => by simp [hw ho], fun ha => by cases ha⟩
  | sendOutput h =>
    obtain ⟨rfl, -⟩ := hf
    exact ⟨rfl, balanced_set_writable c h⟩
  | sendNothing h =>
    obtain ⟨rfl, hw⟩ := hf
    exact follows_rest hr ⟨hw, fun hn => absurd h hn⟩
  | writeComplete h =>
    have hb : Balanced (c.setWritable false) := balanced_unset_writable c h
    exact ⟨hb.mp, fun _ => hb⟩
  | writeMore h =>
    obtain ⟨rfl, hw⟩ := hf
    exact follows_rest hr ⟨fun _ => h, fun _ => hw h⟩
  | nothingToWrite h => exact ⟨hf.1, fun hn => absurd h hn⟩
  | wrote n h => exact ⟨hf.1, fun _ => hf.2.mpr h⟩
  | append buffer h =>
    obtain ⟨rfl, -⟩ := hf
    exact follows_rest hr (balanced_set_writable _ (by simp [h]))
  | shutdownTask sender h =>
    obtain ⟨rfl, -⟩ := hf
    exact ⟨rfl, balanced_unset_writable c h⟩
  | forceShutdownTask sender => cases hg
  | setReadable =>
    obtain ⟨rfl, hb⟩ := hf
    refine follows_rest hr ?_
    simpa [Balanced] using hb
  | call h =>
    obtain ⟨rfl, hb⟩ : app = false ∧ Balanced c := hf
    exact calls_follows h hr hb
  | _ =>
    obtain ⟨rfl, hb⟩ := hf
    first
    | exact ⟨rfl, hb⟩
    | exact ⟨hb.mp, fun _ => hb⟩
    | exact follows_rest hr hb

theorem last_op_append (calls : List Record) (r : Record) :
    lastOp (calls ++ [r]) = if r.thread = .loop then some r.op else lastOp calls := by
  simp only [lastOp, List.filter_append]
  by_cases hr : r.thread = .loop <;> simp [hr]

theorem follows_step {a : Action} (l : Layered w) (g : Gentle w) (hf : Flushes w a)
    (s : Follows (appending w) w.conn w.loop) (h : step w a = some t) :
    Follows (appending t) t.conn t.loop := by
  cases a with
  | call thread op =>
    cases thread with
    | loop =>
      obtain ⟨handler, rest, hl, rfl⟩ := step_call_loop h
      rw [hl] at s
      obtain ⟨hw, hb⟩ := s
      have happ : appending (w.record .loop op) = op.appends := by
        simp [appending, World.record, last_op_append]
      have hold : op.appends = false → op ≠ .sendOutput → appending w = false := by
        intro ho hs
        refine Bool.eq_false_iff.mpr fun ha => ?_
        rcases hf.2 ha with ho' | hs'
        · rw [ho] at ho'
          cases ho'
        · exact hs hs'
      change Follows (appending (w.record .loop op)) w.conn (op.onLoop :: .handler handler :: rest)
      rw [happ]
      cases op with
      | append bytes => exact ⟨rfl, hw, handler, rest, rfl⟩
      | sendOutput => exact ⟨rfl, hw⟩
      | _ => exact ⟨rfl, hb (hold rfl (by simp))⟩
    | user id =>
      obtain ⟨pc, -, -, rfl⟩ := step_call_user h
      have happ : appending ((w.record (.user id) op).setUser id [pc]) = appending w := by
        simp [appending, World.record, World.setUser, last_op_append]
      rw [happ]
      exact s
  | user id =>
    rcases step_calls h with ⟨task, rest, -, rfl⟩ | ⟨pc, rest, c, pcs, -, hc, rfl⟩
    · exact s
    · cases hc <;> exact s
  | exec env =>
    obtain ⟨i, rest, c, push, hl, he, rfl⟩ := step_executes h
    rw [hl] at s
    refine executes_follows he (g.loop i (by simp [hl])) (fun j hj => l j ?_) s
    rw [hl]
    exact hj
  | ret =>
    obtain ⟨handler, rest, hl, rfl⟩ := step_ret h
    rw [hl] at s
    have ha : appending w = false := hf
    change Follows (appending w) w.conn rest
    rw [ha]
    exact follows_rest (fun i hi => l i (by rw [hl]; exact hi)) (s.2 ha)
  | enter =>
    obtain ⟨hl, rfl⟩ := step_enter h
    rw [hl] at s
    exact ⟨s.2.mp, fun _ => s.2⟩
  | task index =>
    obtain ⟨id, task, hl, -, -, rfl⟩ := step_task h
    rw [hl] at s
    exact s
  | events events =>
    obtain ⟨hl, -, rfl⟩ := step_events h
    rw [hl] at s
    obtain ⟨ha, hb⟩ := s
    change Follows (appending w) w.conn _
    rw [ha]
    exact follows_rest (events_below events) hb

def Task.early : Task → Bool
  | .shutdown | .forceShutdown => false
  | _ => true

def CallPc.early : CallPc → Bool
  | .forceShutdown | .forceShutdownStore => false
  | .run task => task.early
  | _ => true

def Instr.early : Instr → Bool
  | .call pc => pc.early
  | .task _ job => job.early
  | .handler .other | .sendOutput | .remove => true
  | _ => false

structure Unadded (w : World) : Prop where
  state : w.conn.state = .kConnecting
  output : w.conn.output = []
  events : w.conn.channel.events = .kNoneEvent
  work : Carried (·.early = true) (fun _ pc => pc.early = true) (·.early = true) w

theorem calls_unadded {pc : CallPc} {pcs : List CallPc} (h : Calls c pc d pcs)
    (hi : pc.early = true) (hs : c.state = .kConnecting) (hd : d.state ≠ .kDisconnected) :
    d.state = .kConnecting ∧ d.output = c.output ∧ d.channel = c.channel ∧
      ∀ p ∈ pcs, p.early = true := by
  cases h with
  | close h | shutdown h =>
    rw [hs] at h
    cases h
  | forceCloseStore => exact absurd rfl hd
  | forceShutdown h => cases hi
  | forceShutdownStore => cases hi
  | _ => exact ⟨hs, rfl, rfl, by simp [CallPc.early, Task.early]⟩

theorem executes_unadded {i : Instr} {push : List Instr} (h : Executes c i d push)
    (hi : i.early = true) (hs : c.state = .kConnecting) (ho : c.output = [])
    (hc : c.channel.registered = false) (hr : d.channel.registered = false)
    (hd : d.state ≠ .kDisconnected) :
    d.state = .kConnecting ∧ d.output = [] ∧ d.channel = c.channel ∧ ∀ j ∈ push, j.early = true := by
  cases h with
  | call h =>
    obtain ⟨h1, h2, h3, h4⟩ := calls_unadded h hi hs hd
    refine ⟨h1, h2.trans ho, h3, fun j hj => ?_⟩
    obtain ⟨pc, hpc, rfl⟩ := List.mem_map.mp hj
    exact h4 pc hpc
  | run task => exact ⟨hs, ho, rfl, by simpa [Instr.early, CallPc.early] using hi⟩
  | add sender h => cases hr
  | accept sender buffer h =>
    rw [hs] at h
    cases h
  | sendOutput h => exact absurd ho h
  | remove h =>
    rw [hc] at h
    cases h
  | giveUp | send | closeTask | closeLater | forceCloseTask | added | sendNothing | removed =>
    exact ⟨hs, ho, rfl, by simp [Instr.early, Task.early]⟩
  | _ => cases hi

theorem unadded_work {a : Action} (e : Unadded w) (hg : a.gentle = true) (hf : Flushes w a)
    (hw : w.conn.channel.registered = false) (ht : t.conn.channel.registered = false)
    (hd : t.conn.state ≠ .kDisconnected) (h : step w a = some t) :
    Carried (·.early = true) (fun _ pc => pc.early = true) (·.early = true) t := by
  refine carried_step e.work h ?_ ?_ ?_ ?_ ?_ ?_ ?_ ?_
  · rintro op rfl
    cases op with
    | append bytes =>
      obtain ⟨handler, rest, hl, -⟩ := step_call_loop h
      have hin := hf.1 rfl
      have hearly := e.work.loop (.handler handler) (by simp [hl])
      rw [hl] at hin
      cases handler <;> first | (cases hearly; done) | cases hin
    | forceShutdown => cases hg
    | _ => rfl
  · rintro id op pc rfl ho
    unfold Op.onUser at ho
    split at ho <;> cases ho <;> first | rfl | cases hg
  · exact fun _ _ hj => hj
  · exact fun _ _ _ hp hc => (calls_unadded hc hp e.state hd).2.2.2
  · exact fun _ i _ _ _ hl he =>
      (executes_unadded he (e.work.loop i (by simp [hl])) e.state e.output hw ht hd).2.2.2
  · exact fun _ _ hj => hj
  · rfl
  · intro hr
    rw [hw] at hr
    cases hr

theorem unadded_step {a : Action} (e : Unadded w) (hg : a.gentle = true) (hf : Flushes w a)
    (hw : w.conn.channel.registered = false) (ht : t.conn.channel.registered = false)
    (hd : t.conn.state ≠ .kDisconnected) (h : step w a = some t) : Unadded t := by
  have hwork := unadded_work e hg hf hw ht hd h
  rcases step_conn h with he | ⟨id, pc, rest, pcs, rfl, hu, hc⟩ | ⟨env, i, rest, push, rfl, hl, he⟩
  · exact ⟨he ▸ e.state, he ▸ e.output, he ▸ e.events, hwork⟩
  · have hp := e.work.users id pc (by simp [hu])
    obtain ⟨h1, h2, h3, -⟩ := calls_unadded hc hp e.state hd
    exact ⟨h1, h2.trans e.output, h3 ▸ e.events, hwork⟩
  · have hi := e.work.loop i (by simp [hl])
    obtain ⟨h1, h2, h3, -⟩ := executes_unadded he hi e.state e.output hw ht hd
    exact ⟨h1, h2, h3 ▸ e.events, hwork⟩

theorem executes_synced {i : Instr} {push : List Instr} (h : Executes c i d push)
    (he : c.channel.registered = false → c.channel.events = .kNoneEvent)
    (s : c.channel.Synced) : d.channel.Synced := by
  cases h with
  | call h => rwa [calls_channel h]
  | add sender h => exact SocketChannel.synced_add (he h)
  | remove h => exact fun _ hm => by cases hm
  | append | shutdownTask | forceShutdownTask | sendOutput | writeComplete | setReadable =>
    exact SocketChannel.synced_update s _
  | _ => exact s

structure Interest (w : World) : Prop where
  layered : Layered w
  gentle : Gentle w
  removing : Removing w.conn.state w
  early : w.conn.channel.registered = false → w.conn.state ≠ .kDisconnected → Unadded w
  synced : w.conn.state ≠ .kDisconnected → w.conn.channel.Synced
  follows : Follows (appending w) w.conn w.loop

theorem gentle_in_time (g : Gentle w) (a : Action) : StoresInTime w a := by
  cases a with
  | user id =>
    intro hu
    have hm : CallPc.forceShutdownStore ∈ w.users id := List.mem_of_mem_head? (by simp [hu])
    cases g.users id _ hm
  | exec env =>
    intro hl
    have hm : Instr.call .forceShutdownStore ∈ w.loop := List.mem_of_mem_head? (by simp [hl])
    cases g.loop _ hm
  | _ => trivial

theorem interest_step {a : Action} (s : Interest w) (hg : a.gentle = true) (hf : Flushes w a)
    (h : step w a = some t) : Interest t := by
  have hti := gentle_in_time s.gentle a
  have hremoving := removing_step s.removing hti h
  have hopen : t.conn.state ≠ .kDisconnected → w.conn.state ≠ .kDisconnected := by
    intro ht hw
    exact ht (disconnected_of_rank (hw ▸ (step_rank h).mpr hti))
  refine ⟨layered_step s.layered h, gentle_step s.gentle hg h, hremoving, fun hr hd => ?_,
    fun hd => ?_, follows_step s.layered s.gentle hf s.follows h⟩
  · cases hw : w.conn.channel.registered with
    | false => exact unadded_step (s.early hw (hopen hd)) hg hf hw hr hd h
    | true =>
      have hm : Instr.handleRemove ∈ t.loop :=
        List.mem_of_mem_head? (by simp [step_removes h hw hr])
      exact absurd (hremoving.loop _ hm rfl) hd
  · have hs := s.synced (hopen hd)
    rcases step_conn h with he | ⟨_, _, _, _, _, _, hc⟩ | ⟨_, _, _, _, _, _, he⟩
    · rwa [he]
    · rwa [calls_channel hc]
    · exact executes_synced he (fun hr => (s.early hr (hopen hd)).events) hs

theorem interest_init : Interest .init where
  layered := layered_init
  gentle := gentle_init
  removing := removing_init
  early _ _ := ⟨rfl, rfl, rfl, (fun _ hm => by cases hm), (fun _ _ hm => by cases hm),
    fun _ hm => by cases hm⟩
  synced _ _ hm := by cases hm
  follows := ⟨rfl, by decide, by decide⟩

theorem interest_follows (s : Interest w) : FollowsOutput w := by
  intro hd hl
  have hf := s.follows
  rw [hl] at hf
  refine ⟨hf.2, fun hs => ?_⟩
  cases hm : w.conn.channel.mask with
  | none =>
    have hr : w.conn.channel.registered = false := by simp [SocketChannel.registered, hm]
    exact absurd (s.early hr hd).state hs
  | some mask => rw [s.synced hd mask hm]

end TcpConnection
end Pedronet
