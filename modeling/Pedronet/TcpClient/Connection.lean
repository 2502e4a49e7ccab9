import Pedronet.TcpClient.Attempts
import Pedronet.TcpConnection.Lifetime
import Pedronet.TcpConnection.BackPressure
import Pedronet.TcpConnection.Close

namespace Pedronet
namespace TcpClient
open TcpConnection (World Thread Instr StartedOnce Layered Pending Executes)

variable {s t : TcpClient} {w u : World}

def boots : Instr → Bool
  | .call .start | .call (.run .add) | .task _ .add | .startCallback => true
  | _ => false

def Launching (w : World) : Prop := Pending (boots · = true) (fun _ => False) (fun _ => False) w

structure Served (w : World) : Prop where
  serving : StartedOnce w
  layered : Layered w
  launching : w.conn.state = .kConnecting → Launching w

theorem unregistered_adds (k : StartedOnce w) {thread : Thread} {rest : List Instr}
    (hl : w.loop = .task thread .add :: rest) : w.conn.channel.registered = false := by
  have he := k.started.once.held thread
  have hs := k.started.single
  have hadd : 1 ≤ TcpConnection.adding thread w := by
    simp [TcpConnection.adding, hl, Instr.adds]
    omega
  rw [← Bool.not_eq_true]
  intro hr
  simp only [TcpConnection.held, hr, Bool.toNat_true] at he
  omega

theorem executes_boots (k : StartedOnce w) {i : Instr} {rest push : List Instr}
    (hl : w.loop = i :: rest) (h : Executes w.conn i u.conn push) (hi : boots i = true)
    (hw : w.conn.state = .kConnecting) :
    (∃ j ∈ push, boots j = true) ∨ u.conn.state ≠ .kConnecting := by
  generalize hc : w.conn = c at h
  generalize hd : u.conn = d at h
  cases h with
  | run task =>
    refine .inl ⟨_, List.mem_cons_self, ?_⟩
    cases task <;> first | rfl | cases hi
  | call h =>
    cases h with
    | start => exact .inl ⟨_, List.mem_cons_self, rfl⟩
    | _ => cases hi
  | add sender h => exact .inl ⟨_, List.mem_cons_self, rfl⟩
  | added sender h =>
    rw [← hc, unregistered_adds k hl] at h
    cases h
  | connect h => exact .inr (by simp [TcpConnection.invoke])
  | notConnecting h => exact absurd (hc ▸ hw) h
  | _ => cases hi

theorem served_step {b : TcpConnection.Action} (k : Served w) (hb : b.starts = false)
    (h : TcpConnection.step w b = some u) : Served u where
  serving := by
    refine TcpConnection.started_once_step k.serving ?_ h
    rw [TcpConnection.all_starts_step h, hb]
    exact k.serving.started.single
  layered := TcpConnection.layered_step k.layered h
  launching hu := by
    have hw : w.conn.state = .kConnecting := by
      refine Decidable.byContradiction fun hn => ?_
      exact (TcpConnection.step_connected h hn).1 hu
    refine (TcpConnection.pending_step (Q := u.conn.state ≠ .kConnecting) (k.launching hw) ?_ ?_ ?_
      ?_ ?_ h).resolve_right fun hn => hn hu
    · intro handler hi
      cases hi
    · exact fun _ hf => hf
    · exact fun _ _ _ _ _ _ _ hf => hf.elim
    · exact fun _ _ _ _ _ hl he hi => executes_boots k.serving hl he hi hw
    · exact fun _ _ hf => hf.elim

theorem served_start (h : TcpConnection.system.run .init startCall = some w) : Served w where
  serving := TcpConnection.started_once_run TcpConnection.started_once_init (by decide) h
  layered := Transition.System.run_invariant (M := TcpConnection.system)
    (fun _ _ _ l _ h => TcpConnection.layered_step l h) TcpConnection.layered_init
    Transition.System.along_true h
  launching _ := by
    cases h
    exact .inl ⟨_, List.mem_cons_self, rfl⟩

theorem allowed_starts {b : TcpConnection.Action} (h : s.allowed b = true) : b.starts = false := by
  cases b with
  | call thread op => cases op <;> first | rfl | cases h
  | _ => rfl

theorem step_world {a : Action} (k : Single s) (h : step s a = some t) :
    (t.world = s.world ∧ t.created = s.created) ∨
      (0 < s.created ∧ t.created = s.created ∧ ∃ b, b.starts = false ∧
        (a = .conn b ∨ b = .ret ∨ ∃ thread op, b = .call thread op) ∧
          TcpConnection.step s.world b = some t.world) ∨
      (s.created = 0 ∧ TcpConnection.system.run .init startCall = some t.world) := by
  cases step_moves h with
  | advance _ hv =>
    cases hv with
    | apply op w hc hw =>
      refine .inr (.inl ⟨?_, rfl, _, ?_, .inr (.inr ⟨_, _, rfl⟩), hw⟩)
      · refine Nat.pos_of_ne_zero fun h0 => ?_
        rw [(k.unconnected h0).2] at hc
        cases hc
      · cases op <;> rfl
    | _ => exact .inl ⟨rfl, rfl⟩
  | attempt ha hv =>
    cases hv with
    | create w hw =>
      refine .inr (.inr ⟨?_, hw⟩)
      have hpos : 0 < s.attempts.countP AttemptPc.creates :=
        List.countP_pos_iff.mpr ⟨_, List.mem_of_getElem? ha, rfl⟩
      have hc := k.connections
      have hle : s.state.established ≤ 1 := by cases s.state <;> decide
      simp only [connections] at hc
      omega
    | starting w hl hw =>
      exact .inr (.inl ⟨k.starting (List.mem_of_getElem? ha), rfl, _, rfl, .inr (.inl rfl), hw⟩)
    | _ => exact .inl ⟨rfl, rfl⟩
  | reset hpos hb hw | conn hpos hb hw =>
    exact .inr (.inl ⟨hpos, rfl, _, allowed_starts hb, .inl rfl, hw⟩)
  | _ => exact .inl ⟨rfl, rfl⟩

theorem created_of_conn (k : Single s) (hc : s.conn = true) : 0 < s.created := by
  refine Nat.pos_of_ne_zero fun h0 => ?_
  rw [(k.unconnected h0).2] at hc
  cases hc

theorem created_step {a : Action} (k : Single s) (h : step s a = some t) (hpos : 0 < s.created) :
    0 < t.created := by
  rcases step_world k h with ⟨-, hc⟩ | ⟨-, hc, -⟩ | ⟨h0, -⟩
  · omega
  · omega
  · omega

theorem connected_step {a : Action} (h : step s a = some t) (hc : t.conn = true) :
    s.conn = true ∨ (.starting ∈ s.attempts ∧ s.world.loop = [.handler .other] ∧
      TcpConnection.step s.world .ret = some t.world) := by
  cases step_moves h with
  | advance _ hv => exact .inl ((calls_keep hv).2.2.1 ▸ hc)
  | attempt ha hv =>
    cases hv with
    | starting w hl hw => exact .inr ⟨List.mem_of_getElem? ha, hl, hw⟩
    | _ => exact .inl hc
  | reset => cases hc
  | _ => exact .inl hc

theorem created_of_world (k : Single s) (h : s.world ≠ .init) : 0 < s.created := by
  refine Nat.pos_of_ne_zero fun h0 => ?_
  exact h (k.unconnected h0).1

theorem start_invoked {w : World} (h : TcpConnection.system.run .init startCall = some w) :
    w.conn.invoked = [] := by
  cases h
  rfl

theorem closed_stays {a : Action} (k : Single s) (h : step s a = some t)
    (hx : .onClose ∈ s.world.conn.invoked) : .onClose ∈ t.world.conn.invoked := by
  rcases step_world k h with ⟨hw, -⟩ | ⟨-, -, b, -, -, hb⟩ | ⟨h0, -⟩
  · rwa [hw]
  · exact TcpConnection.invoked_mem hb hx
  · rw [(k.unconnected h0).1] at hx
    cases hx

theorem exec_action {a : Action} {env : TcpConnection.Env}
    (h : a = .conn (.exec env) ∨ (.exec env : TcpConnection.Action) = .ret ∨
      ∃ thread op, (.exec env : TcpConnection.Action) = .call thread op) : a = .conn (.exec env) := by
  rcases h with h | h | ⟨_, _, h⟩
  · exact h
  · cases h
  · cases h

theorem closed_begins {a : Action} (k : Single s) (h : step s a = some t)
    (hx : .onClose ∈ t.world.conn.invoked) (hn : .onClose ∉ s.world.conn.invoked) :
    ∃ env rest, a = .conn (.exec env) ∧ s.world.loop = .handleRemove :: rest ∧
      s.world.conn.state = .kDisconnected := by
  rcases step_world k h with ⟨hw, -⟩ | ⟨-, -, b, -, ha, hb⟩ | ⟨-, hw⟩
  · exact absurd (hw ▸ hx) hn
  · obtain ⟨env, rest, he, hl, hd⟩ := TcpConnection.close_begins hb hx hn
    subst he
    exact ⟨env, rest, exec_action ha, hl, hd⟩
  · rw [start_invoked hw] at hx
    cases hx

structure Sound (s : TcpClient) : Prop where
  single : Single s
  served : 0 < s.created → Served s.world

theorem sound_step {a : Action} (k : Sound s) (h : step s a = some t) : Sound t := by
  refine ⟨single_step k.single h, fun hpos => ?_⟩
  rcases step_world k.single h with ⟨hw, hc⟩ | ⟨hc, -, b, hb, -, hw⟩ | ⟨-, hw⟩
  · rw [hw]
    exact k.served (hc ▸ hpos)
  · exact served_step (k.served hc) hb hw
  · exact served_start hw

theorem sound_init : Sound init :=
  ⟨single_init, fun h => absurd h (Nat.lt_irrefl _)⟩

def Idle (s : TcpClient) : Prop :=
  s.tasks = 0 ∧ s.timers = 0 ∧ s.attempts = [] ∧ s.calls = [] ∧ TcpConnection.Idle s.world

end TcpClient
end Pedronet
