import Pedronet.TcpConnection.Stream
import Pedronet.TcpConnection.Shutdown
import Mathlib.Data.List.TakeWhile

namespace Pedronet
namespace TcpConnection
variable {w t : World} {c d : TcpConnection} {T : Thread}

def Record.shuts (T : Thread) (r : Record) : Bool := r.thread = T && r.op = .shutdown

def Record.promises (T : Thread) (r : Record) : List Bytes :=
  if r.state = .kConnected then r.sends T else []

def connected (T : Thread) (calls : List Record) : List Bytes := calls.flatMap (Record.promises T)

def promised (T : Thread) (calls : List Record) : List Bytes :=
  connected T (calls.takeWhile fun r => !r.shuts T)

def Called (T : Thread) (w : World) : Prop := ∃ r ∈ w.calls, r.shuts T = true

def Delivered (T : Thread) (w : World) : Prop :=
  ∃ l r, w.conn.accepted = l ++ r ∧ l.flatMap Prod.snd <+: w.conn.written ∧
    (promised T w.calls).Sublist (messages T l)

def Won (T : Thread) (w : World) : Prop :=
  Called T w ∧ (promised T w.calls).Sublist (acceptedOf T w.conn)

def Flushed (T : Thread) (w : World) : Prop := Called T w ∧ Delivered T w

def Action.soleShutdown (T : Thread) : Action → Bool
  | .call thread .shutdown => thread = T
  | _ => true

def Action.allowed (T : Thread) (a : Action) : Bool := a.gentle && a.soleShutdown T

def Timely (w : World) : Action → Prop
  | .user id =>
    (w.users id).head? = some .shutdown → w.conn.state = .kConnected → pending (.user id) w = []
  | .exec _ =>
    w.loop.head? = some (.call .shutdown) → w.conn.state = .kConnected → w.completing →
      w.conn.output = []
  | _ => True

instance (w : World) : DecidablePred (Timely w)
  | .user _ => inferInstanceAs (Decidable (_ → _ → _))
  | .exec _ => inferInstanceAs (Decidable (_ → _ → _ → _))
  | .call _ _ | .ret | .enter | .task _ | .events _ => isTrue trivial

theorem promised_sublist (T : Thread) (calls : List Record) :
    (promised T calls).Sublist (connected T calls) := by
  have h : connected T calls = promised T calls ++
      connected T (calls.dropWhile fun r => !r.shuts T) := by
    rw [promised, connected, connected, connected, ← List.flatMap_append,
      List.takeWhile_append_dropWhile]
  rw [h]
  exact List.sublist_append_left _ _

theorem promised_frozen (h : Called T w) (calls : List Record) :
    promised T (w.calls ++ calls) = promised T w.calls := by
  obtain ⟨r, hr, hs⟩ := h
  rw [promised, promised, List.takeWhile_append, if_neg]
  intro hl
  have hall : w.calls.takeWhile (fun r => !r.shuts T) = w.calls :=
    (List.takeWhile_sublist _).eq_of_length hl
  have := List.mem_takeWhile_imp (hall.symm ▸ hr)
  simp [hs] at this

structure Grows (w t : World) : Prop where
  calls : w.calls <+: t.calls
  accepted : w.conn.accepted <+: t.conn.accepted
  written : w.conn.written <+: t.conn.written
  failed : t.conn.writeFailed = false → w.conn.writeFailed = false

theorem calls_grows {pc : CallPc} {pcs : List CallPc} (h : Calls c pc d pcs) :
    d.accepted = c.accepted ∧ d.written = c.written ∧ d.output = c.output ∧
      d.writeFailed = c.writeFailed := by
  cases h <;> exact ⟨rfl, rfl, rfl, rfl⟩

theorem executes_grows {i : Instr} {push : List Instr} (h : Executes c i d push) :
    c.accepted <+: d.accepted ∧ c.written <+: d.written := by
  cases h with
  | call h =>
    obtain ⟨ha, hw, -⟩ := calls_grows h
    rw [ha, hw]
    exact ⟨List.prefix_rfl, List.prefix_rfl⟩
  | accept | fill => exact ⟨List.prefix_append _ _, List.prefix_rfl⟩
  | directWrote | wrote => exact ⟨List.prefix_rfl, List.prefix_append _ _⟩
  | _ => exact ⟨List.prefix_rfl, List.prefix_rfl⟩

theorem grows_step {a : Action} (h : step w a = some t) : Grows w t := by
  have hr : w.calls <+: t.calls := ⟨a.records w, (step_records h).symm⟩
  rcases step_conn h with hc | ⟨id, pc, rest, pcs, -, -, hc⟩ | ⟨env, i, rest, push, -, -, he⟩
  · exact ⟨hr, hc ▸ List.prefix_rfl, hc ▸ List.prefix_rfl, fun hf => hc ▸ hf⟩
  · obtain ⟨ha, hw, -, hf⟩ := calls_grows hc
    exact ⟨hr, ha ▸ List.prefix_rfl, hw ▸ List.prefix_rfl, fun h => hf ▸ h⟩
  · obtain ⟨ha, hw⟩ := executes_grows he
    exact ⟨hr, ha, hw, executes_failed he⟩

theorem called_grows (h : Called T w) (g : Grows w t) : Called T t := by
  obtain ⟨r, hr, hs⟩ := h
  exact ⟨r, g.calls.subset hr, hs⟩

theorem promised_grows (h : Called T w) (g : Grows w t) :
    promised T t.calls = promised T w.calls := by
  obtain ⟨calls, hc⟩ := g.calls
  rw [← hc]
  exact promised_frozen h calls

theorem won_grows (h : Won T w) (g : Grows w t) : Won T t := by
  refine ⟨called_grows h.1 g, ?_⟩
  obtain ⟨accepted, ha⟩ := g.accepted
  rw [promised_grows h.1 g, acceptedOf, ← ha, messages, List.flatMap_append]
  exact h.2.trans (List.sublist_append_left _ _)

theorem flushed_grows (h : Flushed T w) (g : Grows w t) : Flushed T t := by
  obtain ⟨hc, l, r, ha, hw, hp⟩ := h
  obtain ⟨accepted, hacc⟩ := g.accepted
  refine ⟨called_grows hc g, l, r ++ accepted, ?_, hw.trans g.written, ?_⟩
  · rw [← hacc, ha, List.append_assoc]
  · rw [promised_grows hc g]
    exact hp

theorem flushed_all (h : Won T w) (hw : w.conn.written = stream w.conn) : Flushed T w :=
  ⟨h.1, w.conn.accepted, [], (List.append_nil _).symm, hw ▸ List.prefix_rfl, h.2⟩

def Task.fits (T : Thread) (w : World) : Task → Prop
  | .shutdown => Won T w
  | _ => True

def CallPc.fits (T thread : Thread) (w : World) : CallPc → Prop
  | .shutdown => thread = T ∧ Called T w
  | .run job => job.fits T w
  | _ => True

def Instr.fits (T : Thread) (w : World) : Instr → Prop
  | .call pc => pc.fits T .loop w
  | .task _ job => job.fits T w
  | .closeWrite => w.conn.writeFailed = false → Flushed T w
  | _ => True

structure Fits (T : Thread) (w : World) : Prop where
  loop : ∀ i ∈ w.loop, i.fits T w
  users : ∀ id, ∀ pc ∈ w.users id, pc.fits T (.user id) w
  tasks : ∀ entry ∈ w.tasks, entry.2.fits T w

theorem task_fits_grows {job : Task} (h : job.fits T w) (g : Grows w t) : job.fits T t := by
  cases job with
  | shutdown => exact won_grows h g
  | _ => trivial

theorem call_fits_grows {thread : Thread} {pc : CallPc} (h : pc.fits T thread w) (g : Grows w t) :
    pc.fits T thread t := by
  cases pc with
  | shutdown => exact ⟨h.1, called_grows h.2 g⟩
  | run job =>
    have hj : job.fits T w := h
    exact task_fits_grows hj g
  | _ => trivial

theorem instr_fits_grows {i : Instr} (h : i.fits T w) (g : Grows w t) : i.fits T t := by
  cases i with
  | call pc =>
    have hpc : pc.fits T .loop w := h
    exact call_fits_grows hpc g
  | task sender job =>
    have hj : job.fits T w := h
    exact task_fits_grows hj g
  | closeWrite => exact fun hf => flushed_grows (h (g.failed hf)) g
  | _ => trivial

def Anchored (T : Thread) (w : World) : Prop :=
  ∀ id, T = .user id → ∃ l r, w.conn.accepted = l ++ r ∧ l.flatMap Prod.snd <+: w.conn.written ∧
    messages T r = []

structure Delivering (T : Thread) (w : World) : Prop where
  layered : Layered w
  gentle : Gentle w
  streamed : Streamed w
  fits : Fits T w
  early : w.conn.state = .kConnecting → connected T w.calls = []
  kept : w.conn.state = .kConnected → (connected T w.calls).Sublist (progress T w)
  won : w.conn.state = .kDisconnecting → Won T w
  alone : ∀ id job rest, w.loop = .task (.user id) job :: rest → rest = []
  completing : w.completing → w.conn.writeFailed = false →
    Anchored T w ∧ (w.conn.state = .kDisconnecting → Flushed T w)

theorem calls_state {pc : CallPc} {pcs : List CallPc} (h : Calls c pc d pcs)
    (hg : pc.gentle = true) :
    d.state = c.state ∨ d.state = .kDisconnected ∨
      (pc = .shutdown ∧ c.state = .kConnected ∧ d.state = .kDisconnecting) := by
  cases h with
  | close | forceCloseStore => exact .inr (.inl rfl)
  | shutdown h => exact .inr (.inr ⟨rfl, h, rfl⟩)
  | forceShutdownStore => cases hg
  | _ => exact .inl rfl

theorem executes_state {i : Instr} {push : List Instr} (h : Executes c i d push)
    (hg : i.gentle = true) :
    d.state = c.state ∨ d.state = .kDisconnected ∨
      (c.state = .kConnecting ∧ d.state = .kConnected) ∨
      (i = .call .shutdown ∧ c.state = .kConnected ∧ d.state = .kDisconnecting) := by
  cases h with
  | call h =>
    rcases calls_state h hg with hs | hs | ⟨rfl, hc, hd⟩
    · exact .inl hs
    · exact .inr (.inl hs)
    · exact .inr (.inr (.inr ⟨rfl, hc, hd⟩))
  | connect h => exact .inr (.inr (.inl ⟨h, rfl⟩))
  | handleCloseStore => exact .inr (.inl rfl)
  | _ => exact .inl rfl

def Wins (w : World) : Action → Prop
  | .user id => (w.users id).head? = some .shutdown ∧ w.conn.state = .kConnected
  | .exec _ => w.loop.head? = some (.call .shutdown) ∧ w.conn.state = .kConnected
  | _ => False

theorem state_step {a : Action} (g : Gentle w) (h : step w a = some t) :
    t.conn.state = w.conn.state ∨ t.conn.state = .kDisconnected ∨
      (w.conn.state = .kConnecting ∧ t.conn.state = .kConnected) ∨
      (Wins w a ∧ t.conn.state = .kDisconnecting) := by
  rcases step_conn h with hc | ⟨id, pc, rest, pcs, rfl, hu, hc⟩ | ⟨env, i, rest, push, rfl, hl, he⟩
  · exact .inl (hc ▸ rfl)
  · rcases calls_state hc (g.users id pc (by simp [hu])) with hs | hs | ⟨rfl, hw, hs⟩
    · exact .inl hs
    · exact .inr (.inl hs)
    · exact .inr (.inr (.inr ⟨⟨by simp [hu], hw⟩, hs⟩))
  · rcases executes_state he (g.loop i (by simp [hl])) with hs | hs | hs | ⟨rfl, hw, hs⟩
    · exact .inl hs
    · exact .inr (.inl hs)
    · exact .inr (.inr (.inl hs))
    · exact .inr (.inr (.inr ⟨⟨by simp [hl], hw⟩, hs⟩))

theorem connected_step {a : Action} (h : step w a = some t) :
    connected T t.calls =
      connected T w.calls ++ if w.conn.state = .kConnected then a.sends T else [] := by
  rw [step_records h, connected, List.flatMap_append, ← connected]
  cases a with
  | call thread op =>
    cases op <;> simp [Action.records, Record.promises, Record.sends, Action.sends]
  | _ => simp [Action.records, Action.sends]

theorem kept_step {a : Action} (s : Delivering T w) (h : step w a = some t)
    (ht : t.conn.state = .kConnected) : (connected T t.calls).Sublist (progress T t) := by
  rw [connected_step h]
  rcases state_step s.gentle h with hs | hs | ⟨hc, -⟩ | ⟨-, hs⟩
  · have hw : w.conn.state = .kConnected := hs.symm.trans ht
    rw [if_pos hw]
    rcases progress_step T s.layered h with hp | ⟨hn, -, -⟩
    · rw [hp]
      exact (s.kept hw).append_right _
    · exact absurd hw hn
  · rw [ht] at hs
    cases hs
  · rw [s.early hc, hc]
    exact List.nil_sublist _
  · rw [ht] at hs
    cases hs

theorem wins_won {a : Action} (s : Delivering T w) (ht : Timely w a) (hw : Wins w a) :
    Won T w := by
  cases a with
  | user id =>
    obtain ⟨hu, hc⟩ := hw
    obtain ⟨rfl, hcalled⟩ := s.fits.users id _ (List.mem_of_mem_head? hu)
    have hk := s.kept hc
    rw [progress, ht hu hc, List.append_nil] at hk
    exact ⟨hcalled, (promised_sublist _ _).trans hk⟩
  | exec env =>
    obtain ⟨hl, hc⟩ := hw
    obtain ⟨rfl, hcalled⟩ := s.fits.loop _ (List.mem_of_mem_head? hl)
    have hp : pending .loop w = [] := by
      obtain ⟨rest, hr⟩ := List.head?_eq_some_iff.mp hl
      simp [pending, hr, waiting, queued, calling]
    have hk := s.kept hc
    rw [progress, hp, List.append_nil] at hk
    exact ⟨hcalled, (promised_sublist _ _).trans hk⟩
  | _ => cases hw

theorem won_step {a : Action} (s : Delivering T w) (ha : Timely w a) (h : step w a = some t)
    (ht : t.conn.state = .kDisconnecting) : Won T t := by
  refine won_grows ?_ (grows_step h)
  rcases state_step s.gentle h with hs | hs | ⟨-, hs⟩ | ⟨hw, -⟩
  · exact s.won (hs.symm.trans ht)
  · rw [ht] at hs
    cases hs
  · rw [ht] at hs
    cases hs
  · exact wins_won s ha hw

theorem calls_fits {thread : Thread} {pc : CallPc} {pcs : List CallPc} (h : Calls c pc d pcs)
    (hw : d.state = .kDisconnecting → Won T t) : ∀ p ∈ pcs, p.fits T thread t := by
  cases h with
  | shutdown h =>
    intro p hp
    obtain rfl := List.mem_singleton.mp hp
    exact hw rfl
  | _ => simp [CallPc.fits, Task.fits]

theorem written_stream (s : Streamed w) (hf : w.conn.writeFailed = false)
    (ho : w.conn.output = []) (hu : unsent w.loop = []) : w.conn.written = stream w.conn := by
  have hb := s.bytes hf
  rwa [ho, hu, List.append_nil, List.append_nil] at hb

theorem executes_fits (s : Delivering T w) {i : Instr} {rest push : List Instr}
    (hl : w.loop = i :: rest) (he : Executes w.conn i c push) (g : Grows w t)
    (ht : t.conn = c) (hw : t.conn.state = .kDisconnecting → Won T t) :
    ∀ j ∈ push, j.fits T t := by
  have hi : i.fits T w := s.fits.loop i (by simp [hl])
  cases he with
  | run job =>
    intro j hj
    obtain rfl := List.mem_singleton.mp hj
    exact task_fits_grows (show job.fits T w from hi) g
  | call hc =>
    intro j hj
    obtain ⟨p, hp, rfl⟩ := List.mem_map.mp hj
    exact calls_fits hc (ht ▸ hw) p hp
  | shutdownTask sender ho =>
    intro j hj
    obtain rfl := List.mem_singleton.mp hj
    intro hf
    have hb := written_stream s.streamed (g.failed hf) ho (by rw [hl]; rfl)
    exact flushed_grows (flushed_all hi hb) g
  | disconnecting hs =>
    intro j hj
    obtain rfl := List.mem_singleton.mp hj
    intro hf
    have hm : w.completing := by simp [World.completing, hl]
    exact flushed_grows ((s.completing hm (g.failed hf)).2 hs) g
  | forceShutdownTask sender =>
    have := s.gentle.loop _ (by rw [hl]; exact List.mem_cons_self)
    cases this
  | _ => simp [Instr.fits, CallPc.fits, Task.fits]

theorem shutdown_called {thread : Thread} (h : thread = T)
    (hr : t.calls = w.calls ++ [⟨thread, .shutdown, w.conn.state⟩]) :
    thread = T ∧ Called T t := by
  refine ⟨h, ⟨thread, .shutdown, w.conn.state⟩, ?_, by simp [Record.shuts, h]⟩
  rw [hr]
  exact List.mem_append_right _ List.mem_cons_self

theorem fits_step {a : Action} (s : Delivering T w) (ha : a.soleShutdown T = true)
    (hti : Timely w a) (h : step w a = some t) : Fits T t := by
  have g := grows_step h
  have hwon := won_step s hti h
  have hr := step_records h
  have f : Carried (Instr.fits T t) (fun id => CallPc.fits T (.user id) t) (Task.fits T t) w :=
    ⟨fun i hi => instr_fits_grows (s.fits.loop i hi) g,
      fun id pc hpc => call_fits_grows (s.fits.users id pc hpc) g,
      fun entry hm => task_fits_grows (s.fits.tasks entry hm) g⟩
  have f' := carried_step f h ?_ ?_ ?_ ?_ ?_ ?_ ?_ ?_
  · exact ⟨f'.loop, f'.users, f'.tasks⟩
  · rintro op rfl
    cases op with
    | shutdown => exact shutdown_called (by simpa [Action.soleShutdown] using ha) hr
    | _ => trivial
  · rintro id op pc rfl ho
    unfold Op.onUser at ho
    split at ho <;> cases ho
    case h_8 => exact shutdown_called (by simpa [Action.soleShutdown] using ha) hr
    all_goals trivial
  · exact fun id job hj => hj
  · exact fun id pc pcs _ hc => calls_fits hc hwon
  · exact fun _ i rest push _ hl he => executes_fits s hl he g rfl hwon
  · exact fun id job hj => hj
  · trivial
  · intro _ cb
    cases cb <;> trivial

theorem executes_accepted {i : Instr} {push : List Instr} (h : Executes c i d push) :
    d.accepted = c.accepted ∨
      ∃ sender buffer, d.accepted = c.accepted ++ [(sender, buffer)] ∧
        (i = .task sender (.handleSend buffer) ∨ sender = .loop) := by
  cases h with
  | call h => exact .inl (calls_grows h).1
  | accept sender buffer h => exact .inr ⟨sender, buffer, rfl, .inl rfl⟩
  | fill bytes => exact .inr ⟨.loop, bytes, rfl, .inr rfl⟩
  | _ => exact .inl rfl

theorem anchored_grows (h : Anchored T w) (g : Grows w t)
    (ha : ∃ r, t.conn.accepted = w.conn.accepted ++ r ∧ ∀ id, T = .user id → messages T r = []) :
    Anchored T t := by
  intro id hT
  obtain ⟨l, r, hacc, hw, hr⟩ := h id hT
  obtain ⟨extra, he, hn⟩ := ha
  refine ⟨l, r ++ extra, by rw [he, hacc, List.append_assoc], hw.trans g.written, ?_⟩
  rw [messages, List.flatMap_append]
  exact List.append_eq_nil_iff.mpr ⟨hr, hn id hT⟩

-- Tasks of other threads run from an empty stack, so within OnWriteComplete only the loop thread sends.
theorem anchored_step {a : Action} (s : Delivering T w) (h : step w a = some t)
    (hm : w.completing) (hw : Anchored T w) : Anchored T t := by
  have g := grows_step h
  have hsame : t.conn.accepted = w.conn.accepted → Anchored T t := fun he =>
    anchored_grows hw g ⟨[], by rw [he, List.append_nil], fun _ _ => rfl⟩
  rcases step_conn h with hc | ⟨id, pc, rest, pcs, -, -, hc⟩ | ⟨env, i, rest, push, -, hl, he⟩
  · exact hsame (hc ▸ rfl)
  · exact hsame (calls_grows hc).1
  · rcases executes_accepted he with ha | ⟨sender, buffer, ha, hi⟩
    · exact hsame ha
    · cases sender with
      | loop =>
        refine anchored_grows hw g ⟨_, ha, ?_⟩
        rintro id rfl
        simp [messages]
      | user id =>
        rcases hi with rfl | hi
        · have hr := s.alone id _ rest hl
          rw [World.completing, hl, hr] at hm
          simp at hm
        · cases hi

theorem wins_flushed {a : Action} (s : Delivering T w) (ha : Timely w a) (hw : Wins w a)
    (hm : w.completing) (hf : w.conn.writeFailed = false) : Flushed T w := by
  have hwon := wins_won s ha hw
  cases a with
  | user id =>
    obtain ⟨rfl, -⟩ := s.fits.users id _ (List.mem_of_mem_head? hw.1)
    obtain ⟨l, r, hacc, hwr, hr⟩ := (s.completing hm hf).1 id rfl
    have hp := hwon.2
    rw [acceptedOf, hacc, messages, List.flatMap_append] at hp
    rw [messages] at hr
    rw [hr, List.append_nil] at hp
    exact ⟨hwon.1, l, r, hacc, hwr, hp⟩
  | exec env =>
    obtain ⟨rest, hr⟩ := List.head?_eq_some_iff.mp hw.1
    exact flushed_all hwon (written_stream s.streamed hf (ha hw.1 hw.2 hm) (by rw [hr]; rfl))
  | _ => cases hw

theorem flushed_step {a : Action} (s : Delivering T w) (ha : Timely w a) (h : step w a = some t)
    (hm : w.completing) (hf : t.conn.writeFailed = false)
    (ht : t.conn.state = .kDisconnecting) : Flushed T t := by
  have g := grows_step h
  rcases state_step s.gentle h with hs | hs | ⟨-, hs⟩ | ⟨hw, -⟩
  · exact flushed_grows ((s.completing hm (g.failed hf)).2 (hs.symm.trans ht)) g
  · rw [ht] at hs
    cases hs
  · rw [ht] at hs
    cases hs
  · exact flushed_grows (wins_flushed s ha hw hm (g.failed hf)) g

theorem executes_begins {i : Instr} {push : List Instr} (h : Executes c i d push)
    (hm : .afterWriteComplete ∈ push) :
    i = .writeDone ∧ c.output = [] ∧ d.accepted = c.accepted ∧ d.written = c.written := by
  cases h with
  | writeComplete h => exact ⟨rfl, h, rfl, rfl⟩
  | call h => simp at hm
  | _ => simp at hm

theorem completing_step {a : Action} (s : Delivering T w) (ha : Timely w a)
    (h : step w a = some t) (hm : t.completing) (hf : t.conn.writeFailed = false) :
    Anchored T t ∧ (t.conn.state = .kDisconnecting → Flushed T t) := by
  have g := grows_step h
  have hwon := won_step s ha h
  have hold : w.completing → Anchored T t ∧ (t.conn.state = .kDisconnecting → Flushed T t) :=
    fun hm => ⟨anchored_step s h hm (s.completing hm (g.failed hf)).1, flushed_step s ha h hm hf⟩
  cases a with
  | call thread op =>
    cases thread with
    | loop =>
      obtain ⟨handler, rest, hl, rfl⟩ := step_call_loop h
      refine hold ?_
      rw [World.completing, hl]
      rcases List.mem_cons.mp hm with hm | hm
      · cases op <;> cases hm
      · exact hm
    | user id =>
      obtain ⟨pc, -, -, rfl⟩ := step_call_user h
      exact hold hm
  | user id =>
    rcases step_calls h with ⟨task, rest, -, rfl⟩ | ⟨pc, rest, c, pcs, -, hc, rfl⟩
    · exact hold hm
    · exact hold hm
  | exec env =>
    obtain ⟨i, rest, c, push, hl, he, rfl⟩ := step_executes h
    rcases List.mem_append.mp hm with hm | hm
    · obtain ⟨rfl, ho, hacc, hwr⟩ := executes_begins he hm
      have hb := written_stream s.streamed (g.failed hf) ho (by rw [hl]; rfl)
      have hb' : c.written = stream c := by rw [hwr, hb, stream, stream, hacc]
      refine ⟨fun id _ => ?_, fun hs => flushed_all (hwon hs) hb'⟩
      exact ⟨c.accepted, [], (List.append_nil _).symm, hb' ▸ List.prefix_rfl, rfl⟩
    · refine hold ?_
      rw [World.completing, hl]
      exact List.mem_cons_of_mem _ hm
  | ret =>
    obtain ⟨handler, rest, hl, rfl⟩ := step_ret h
    refine hold ?_
    rw [World.completing, hl]
    exact List.mem_cons_of_mem _ hm
  | enter =>
    obtain ⟨-, rfl⟩ := step_enter h
    simp [World.completing] at hm
  | task index =>
    obtain ⟨id, task, -, -, -, rfl⟩ := step_task h
    simp [World.completing] at hm
  | events events =>
    obtain ⟨-, -, rfl⟩ := step_events h
    obtain ⟨cb, -, hcb⟩ := List.mem_map.mp hm
    cases cb <;> cases hcb

theorem executes_task {i : Instr} {push : List Instr} {id : Nat} {job : Task}
    (h : Executes c i d push) (ht : push.head? = some (.task (.user id) job)) :
    push.tail = [] ∧ ∃ job', i = .task (.user id) job' := by
  cases h with
  | send sender buffer =>
    obtain ⟨rfl, -⟩ := Instr.task.inj (Option.some.inj ht)
    exact ⟨rfl, _, rfl⟩
  | call h => cases h <;> simp at ht
  | _ => simp at ht

theorem alone_step {a : Action} (s : Delivering T w) (h : step w a = some t) :
    ∀ id job rest, t.loop = .task (.user id) job :: rest → rest = [] := by
  intro id job rest ht
  cases a with
  | call thread op =>
    cases thread with
    | loop =>
      obtain ⟨handler, rest', -, rfl⟩ := step_call_loop h
      cases op <;> cases ht
    | user id' =>
      obtain ⟨pc, -, -, rfl⟩ := step_call_user h
      exact s.alone id job rest ht
  | user id' =>
    rcases step_calls h with ⟨task, rest', -, rfl⟩ | ⟨pc, rest', c, pcs, -, hc, rfl⟩
    · exact s.alone id job rest ht
    · exact s.alone id job rest ht
  | exec env =>
    obtain ⟨i, rest', c, push, hl, he, rfl⟩ := step_executes h
    cases push with
    | nil =>
      have hr : rest' = .task (.user id) job :: rest := ht
      have hb := s.layered (.task (.user id) job) (by rw [hl, hr]; exact List.mem_cons_self)
      cases hb
    | cons top push =>
      obtain ⟨rfl, hr⟩ := List.cons.inj ht
      obtain ⟨hp, job', rfl⟩ := executes_task he rfl
      have hr' : push ++ rest' = rest := hr
      rw [← hr', s.alone id job' rest' hl, List.append_nil]
      exact hp
  | ret =>
    obtain ⟨handler, rest', hl, rfl⟩ := step_ret h
    have hr : rest' = .task (.user id) job :: rest := ht
    have hb := s.layered (.task (.user id) job) (by rw [hl, hr]; exact List.mem_cons_self)
    cases hb
  | enter =>
    obtain ⟨-, rfl⟩ := step_enter h
    cases ht
  | task index =>
    obtain ⟨id', task, -, -, -, rfl⟩ := step_task h
    cases ht
    rfl
  | events events =>
    obtain ⟨-, -, rfl⟩ := step_events h
    have he : (SocketChannel.handleEvents events).map callback = .task (.user id) job :: rest := ht
    have hb := events_below events (.task (.user id) job) (by rw [he]; exact List.mem_cons_self)
    cases hb

theorem early_step {a : Action} (s : Delivering T w) (h : step w a = some t)
    (ht : t.conn.state = .kConnecting) : connected T t.calls = [] := by
  rcases state_step s.gentle h with hs | hs | ⟨-, hs⟩ | ⟨-, hs⟩
  · have hw : w.conn.state = .kConnecting := hs.symm.trans ht
    rw [connected_step h, s.early hw, hw]
    rfl
  · rw [ht] at hs
    cases hs
  · rw [ht] at hs
    cases hs
  · rw [ht] at hs
    cases hs

theorem delivering_step {a : Action} (s : Delivering T w) (ha : a.allowed T = true)
    (hti : Timely w a) (h : step w a = some t) : Delivering T t := by
  simp only [Action.allowed, Bool.and_eq_true] at ha
  obtain ⟨hg, hsole⟩ := ha
  exact {
    layered := layered_step s.layered h
    gentle := gentle_step s.gentle hg h
    streamed := streamed_step s.streamed h
    fits := fits_step s hsole hti h
    early := early_step s h
    kept := kept_step s h
    won := won_step s hti h
    alone := alone_step s h
    completing := completing_step s hti h }

theorem delivering_init : Delivering T .init where
  layered := layered_init
  gentle := gentle_init
  streamed := streamed_init
  fits := ⟨fun _ h => (by cases h), fun _ _ h => (by cases h), fun _ h => (by cases h)⟩
  early _ := rfl
  kept h := by cases h
  won h := by cases h
  alone _ _ _ h := by cases h
  completing h := by cases h

def ClosesDelivered (T : Thread) (w : World) : Prop :=
  w.loop.head? = some .closeWrite → w.conn.writeFailed = false → Delivered T w

theorem shutdown_delivers (T : Thread) (as : List Action)
    (hf : system.Along (fun _ a => a.allowed T = true) .init as)
    (hg : system.Along Timely .init as) : system.Always (ClosesDelivered T) .init as := by
  refine Transition.System.always_of_along (M := system)
    (fun _ _ _ s ha h => delivering_step s ha.1 ha.2 h) (fun w s hl hw => ?_) delivering_init
    (Transition.System.along_and hf hg)
  exact (s.fits.loop _ (List.mem_of_mem_head? hl) hw).2

def shutdownAfterSend : List Action :=
  started ++ [.ret, .exec .none, .call (.user 1) (.send .string [1, 2]), .user 1, .task 0,
    .exec .none, .exec (.write (.wrote 1)), .exec .none, .call (.user 1) .shutdown, .user 1, .user 1,
    .task 0, .exec .none, .events .kWritable, .exec (.write (.wrote 1)), .exec .none, .ret,
    .exec .none]

theorem shutdown_delivers_after_send :
    (system.run .init shutdownAfterSend).isSome = true ∧
      system.Always (ClosesDelivered (.user 1)) .init shutdownAfterSend :=
  ⟨rfl, shutdown_delivers (.user 1) shutdownAfterSend (by decide) (by decide)⟩

theorem shutdown_drops_send :
    ¬ ∀ T as, system.Along (fun _ a => a.allowed T = true) .init as →
      system.Always (ClosesDelivered T) .init as := by
  intro h
  have ha := h (.user 1)
    (started ++ [.ret, .exec .none, .call (.user 1) (.send .string [1]), .user 1,
      .call (.user 1) .shutdown, .user 1, .user 1, .task 0, .exec .none, .task 0, .exec .none])
    (by decide)
  obtain ⟨l, r, hacc, -, hp⟩ := Transition.System.always_last ha rfl rfl rfl
  have hl : l = [] := (List.append_eq_nil_iff.mp hacc.symm).1
  subst hl
  revert hp
  decide

end TcpConnection
end Pedronet
