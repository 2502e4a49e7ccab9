import Pedronet.TcpClient.Connection

namespace Pedronet
namespace TcpClient
open TcpConnection (World Thread Instr Pending Calls Executes)

variable {s t : TcpClient} {w u : World}

def CallPc.carries (op : Closer) (pc : CallPc) : Bool := pc == .test op || pc == .apply op

-- The test of conn_ and the use of it after the test.
def CallPc.reads : CallPc → Bool
  | .test _ | .apply _ => true
  | .start | .schedule | .closer _ | .crashed _ => false

theorem reads_carries {pc : CallPc} (h : pc.reads = true) : ∃ op, pc.carries op = true := by
  cases pc with
  | test op | apply op => exact ⟨op, by simp [CallPc.carries]⟩
  | _ => cases h

theorem carries_reads {op : Closer} {pc : CallPc} (h : pc.carries op = true) :
    pc.reads = true := by
  cases pc with
  | test | apply => rfl
  | _ => simp [CallPc.carries] at h

-- Each call whose compare-exchange succeeded has applied its operation or is about to.
structure Kept (s : TcpClient) : Prop where
  applied : ∀ op, s.won.count op = s.applied.count op + s.calls.countP fun call => call.2.carries op
  closed : s.won ≠ [] → Idle s → s.world.conn.state ≠ .kConnected

def Found (s : TcpClient) : Action → Prop
  | .advance index _ => ∀ call ∈ s.calls[index]?, call.2.reads = true → s.conn = true
  | _ => True

instance (s : TcpClient) : DecidablePred (Found s)
  | .advance _ _ => inferInstanceAs (Decidable (∀ _ ∈ _, _))
  | .call _ _ | .task | .timer | .attempt _ _ | .conn _ | .onCloseStore => isTrue trivial

def quitsCall : TcpConnection.CallPc → Bool
  | .close | .forceClose | .forceCloseStore | .shutdown | .forceShutdown | .forceShutdownStore => true
  | .start | .run _ => false

def quits : Instr → Bool
  | .call pc => quitsCall pc
  | _ => false

-- A closing operation has not come to the end of its tests and stores of state_.
def Quitting (w : World) : Prop :=
  Pending (quits · = true) (quitsCall · = true) (fun _ => False) w

theorem calls_quit {c d : TcpConnection} {pc : TcpConnection.CallPc}
    {pcs : List TcpConnection.CallPc} (h : TcpConnection.Calls c pc d pcs)
    (hp : quitsCall pc = true) : (∃ p ∈ pcs, quitsCall p = true) ∨ d.state ≠ .kConnected := by
  cases h with
  | close | shutdown | forceCloseStore | forceShutdownStore => exact .inr (by simp)
  | forceClose | forceShutdown => exact .inl ⟨_, List.mem_cons_self, rfl⟩
  | forceClosed h | forceShutdownLost h => exact .inr (by simp [h])
  | closeLost h | shutdownLost h => exact .inr h
  | _ => cases hp

theorem executes_quit {c d : TcpConnection} {i : Instr} {push : List Instr}
    (h : Executes c i d push) (hi : quits i = true) :
    (∃ j ∈ push, quits j = true) ∨ d.state ≠ .kConnected := by
  cases h with
  | call h =>
    refine (calls_quit h hi).imp_left ?_
    rintro ⟨p, hp, hq⟩
    exact ⟨_, List.mem_map_of_mem hp, hq⟩
  | _ => cases hi

theorem quitting_step {b : TcpConnection.Action} (k : Quitting w)
    (h : TcpConnection.step w b = some u) : Quitting u ∨ u.conn.state ≠ .kConnected := by
  refine TcpConnection.pending_step k ?_ ?_ ?_ ?_ ?_ h
  · intro handler hi
    cases hi
  · intro job hi
    cases hi
  · exact fun _ _ _ _ _ _ hc hp => calls_quit hc hp
  · exact fun _ _ _ _ _ _ he hi => executes_quit he hi
  · exact fun _ _ hf => hf.elim

theorem call_quits {thread : Thread} {op : Closer}
    (h : TcpConnection.step w (.call thread op.op) = some u) : Quitting u := by
  cases thread with
  | loop =>
    obtain ⟨handler, rest, -, rfl⟩ := TcpConnection.step_call_loop h
    refine .inl ⟨_, List.mem_cons_self, ?_⟩
    cases op <;> rfl
  | user id =>
    obtain ⟨pc, -, ho, rfl⟩ := TcpConnection.step_call_user h
    refine .inr (.inl ⟨id, pc, by simp [World.setUser], ?_⟩)
    cases op <;> cases ho <;> rfl

structure Closing (s : TcpClient) : Prop where
  sound : Sound s
  connected : s.conn = true → s.world.conn.state ≠ .kConnecting
  applied : s.applied ≠ [] → 0 < s.created ∧ s.world.conn.state ≠ .kConnecting ∧
    (s.world.conn.state = .kConnected → Quitting s.world)

theorem launched (k : Served w) (hl : w.loop = [.handler .other]) : w.conn.state ≠ .kConnecting := by
  intro hs
  rcases k.launching hs with ⟨i, hm, hi⟩ | ⟨_, _, _, hf⟩ | ⟨_, _, hf⟩
  · rw [hl] at hm
    obtain rfl := List.mem_singleton.mp hm
    cases hi
  · exact hf
  · exact hf

theorem applied_step {a : Action} (h : step s a = some t) :
    t.applied = s.applied ∨ (s.conn = true ∧ ∃ thread, ∃ op : Closer,
      TcpConnection.step s.world (.call thread op.op) = some t.world) := by
  cases step_moves h with
  | @advance _ _ thread _ _ _ _ hv =>
    cases hv with
    | apply op w hc hw => exact .inr ⟨hc, thread, op, hw⟩
    | _ => exact .inl rfl
  | attempt _ hv => cases hv <;> exact .inl rfl
  | _ => exact .inl rfl

theorem connected_world {a : Action} (k : Single s) (hpos : 0 < s.created)
    (h : step s a = some t) (hs : s.world.conn.state ≠ .kConnecting) :
    t.world.conn.state ≠ .kConnecting := by
  rcases step_world k h with ⟨hw, -⟩ | ⟨-, -, b, -, -, hb⟩ | ⟨h0, -⟩
  · rwa [hw]
  · exact (TcpConnection.step_connected hb hs).1
  · omega

theorem quitting_world {a : Action} (k : Single s) (hpos : 0 < s.created)
    (h : step s a = some t) (hs : s.world.conn.state ≠ .kConnecting)
    (hq : s.world.conn.state = .kConnected → Quitting s.world) :
    t.world.conn.state = .kConnected → Quitting t.world := by
  rcases step_world k h with ⟨hw, -⟩ | ⟨-, -, b, -, -, hb⟩ | ⟨h0, -⟩
  · rwa [hw]
  · intro ht
    have hback := (TcpConnection.step_connected hb hs).2 ht
    exact (quitting_step (hq hback) hb).resolve_right fun hn => hn ht
  · omega

theorem closing_step {a : Action} (k : Closing s) (h : step s a = some t) : Closing t where
  sound := sound_step k.sound h
  connected hc := by
    rcases connected_step h hc with hs | ⟨hm, hl, hr⟩
    · exact connected_world k.sound.single (created_of_conn k.sound.single hs) h (k.connected hs)
    · exact (TcpConnection.step_connected hr (launched (k.sound.served (k.sound.single.starting hm)) hl)).1
  applied ha := by
    rcases applied_step h with he | ⟨hc, thread, op, hw⟩
    · obtain ⟨hpos, hs, hq⟩ := k.applied (he ▸ ha)
      exact ⟨created_step k.sound.single h hpos, connected_world k.sound.single hpos h hs,
        quitting_world k.sound.single hpos h hs hq⟩
    · have hpos := created_of_conn k.sound.single hc
      exact ⟨created_step k.sound.single h hpos,
        connected_world k.sound.single hpos h (k.connected hc), fun _ => call_quits hw⟩

theorem closing_init : Closing init where
  sound := sound_init
  connected h := by cases h
  applied h := absurd rfl h

theorem calls_carry {thread : Thread} {pc : CallPc} {next : Option CallPc}
    (h : Calls s thread pc t next) (op : Closer) :
    t.won.count op + s.applied.count op + (if pc.carries op then 1 else 0) =
      s.won.count op + t.applied.count op + next.toList.countP (CallPc.carries op) +
        (if pc.carries op ∧ s.conn = false then 1 else 0) := by
  cases h with
  | closer o h =>
    by_cases ho : o = op
    · simp [CallPc.carries, ho]
      omega
    · simp [CallPc.carries, ho]
  | found o h =>
    by_cases ho : o = op
    · simp [CallPc.carries, ho, h]
    · simp [CallPc.carries, ho]
  | lost o h =>
    by_cases ho : o = op
    · simp [CallPc.carries, ho, h]
    · simp [CallPc.carries, ho]
  | apply o w h =>
    by_cases ho : o = op
    · simp [CallPc.carries, ho, h]
      omega
    · simp [CallPc.carries, ho]
  | null o h =>
    by_cases ho : o = op
    · simp [CallPc.carries, ho, h]
    · simp [CallPc.carries, ho]
  | _ => simp [CallPc.carries]; try omega

theorem closed_of_applied (k : Closing s)
    (h : ∀ op, s.won.count op = s.applied.count op + s.calls.countP fun call => call.2.carries op) :
    Kept s := by
  refine ⟨h, fun hw hi hs => ?_⟩
  obtain ⟨op, hm⟩ := List.exists_mem_of_ne_nil _ hw
  have hcount := h op
  rw [hi.2.2.2.1, List.countP_nil, Nat.add_zero] at hcount
  have happlied : op ∈ s.applied := by
    rw [← List.count_pos_iff, ← hcount]
    exact List.count_pos_iff.mpr hm
  obtain ⟨-, -, hq⟩ := k.applied (List.ne_nil_of_mem happlied)
  exact TcpConnection.not_pending hi.2.2.2.2 (hq hs)

theorem kept_init : Kept init :=
  closed_of_applied closing_init fun _ => rfl

theorem kept_advance {index : Nat} {inline : Bool} (k : Kept s) (hc : Closing t)
    (h : step s (.advance index inline) = some t) : Kept t ↔ Found s (.advance index inline) := by
  obtain ⟨thread, pc, v, next, hpc, hv, rfl⟩ := step_advance h
  have hcarry := calls_carry hv
  have hcount : ∀ op, (Pool.replace v.calls index (next.map fun pc => (thread, pc))).countP
      (fun call => call.2.carries op) + (if pc.carries op then 1 else 0) =
        s.calls.countP (fun call => call.2.carries op) + next.toList.countP (CallPc.carries op) := by
    intro op
    rw [(calls_keep hv).1]
    have hr := Pool.count_replace (fun call => call.2.carries op)
      (next.map fun pc => (thread, pc)) hpc
    cases next <;> simpa [List.countP_cons] using hr
  constructor
  · intro kt call hm ht
    rw [hpc] at hm
    cases hm
    obtain ⟨op, hop⟩ := reads_carries ht
    have := k.applied op
    have := kt.applied op
    have := hcarry op
    have := hcount op
    simp only at *
    by_cases hconn : s.conn = true
    · exact hconn
    · simp only [hop, Bool.eq_false_iff.mpr hconn, and_self, if_true] at *
      omega
  · intro hf
    refine closed_of_applied hc fun op => ?_
    have hfound : ¬ (pc.carries op = true ∧ s.conn = false) := by
      rintro ⟨hop, hn⟩
      rw [hf _ hpc (carries_reads hop)] at hn
      cases hn
    have := k.applied op
    have := hcarry op
    have := hcount op
    simp only [hfound, if_false] at *
    omega

theorem kept_step {a : Action} (k : Closing s) (hk : Kept s) (h : step s a = some t) :
    Kept t ↔ Found s a := by
  have hc := closing_step k h
  cases step_moves h with
  | advance => exact kept_advance hk hc h
  | call thread op =>
    refine iff_of_true (closed_of_applied hc fun o => ?_) trivial
    have hentry : op.entry.carries o = false := by cases op <;> rfl
    simpa [hentry] using hk.applied o
  | attempt _ hv =>
    refine iff_of_true (closed_of_applied hc fun o => ?_) trivial
    cases hv <;> exact hk.applied o
  | _ => exact iff_of_true (closed_of_applied hc hk.applied) trivial

theorem closes_kept_iff (as : List Action) :
    system.Always Kept init as ↔ system.Along Found init as :=
  Transition.System.always_iff_along (M := system) (I := Closing) (F := fun _ _ => True)
    (fun _ _ _ k _ h => closing_step k h) (fun _ _ _ k hk _ h => kept_step k hk h) closing_init
    kept_init Transition.System.along_true

-- The call falls between handleConnection's compare-exchange and its store of conn_.
def closedEarly : List Action :=
  ([.call (.user 0) .start, .advance 0 false, .advance 0 false, .task, .attempt 0 0, .attempt 0 0,
    .attempt 0 0, .call (.user 1) (.closer .close), .advance 0 false, .advance 0 false,
    .attempt 0 0] : List Action) ++
  List.replicate 4 (.conn (.exec .none)) ++
  ([.conn .ret, .conn (.exec .none), .attempt 0 0] : List Action)

theorem close_lost : ¬ ∀ as, system.Always Kept init as := by
  intro h
  have hk := Transition.System.always_last (h closedEarly) rfl
  refine hk.closed (List.cons_ne_nil _ _) ?_ rfl
  exact ⟨rfl, rfl, rfl, rfl, rfl, rfl, fun _ => rfl⟩

end TcpClient
end Pedronet
