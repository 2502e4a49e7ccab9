import Pedronet.TcpClient.Connection

namespace Pedronet
namespace TcpClient
open TcpConnection (World Instr)

variable {s t : TcpClient}

def AttemptPc.handles : AttemptPc → Bool
  | .handleConnection | .create | .starting => true
  | .raiseConnection | .connect | .retry | .offline => false

def handles : Instr → Bool
  | .handler .other => false
  | .handler _ | .afterClose => true
  | _ => false

def Quiet (s : TcpClient) : Prop :=
  (∀ pc ∈ s.attempts, pc.handles = false) ∧ ∀ i ∈ s.world.loop, handles i = false

def Agrees (s : TcpClient) : Prop :=
  Quiet s → (s.conn = true ↔ s.state = .kConnected ∨ s.state = .kDisconnecting) ∧
    (s.state = .kDisconnected ↔ .onClose ∈ s.world.conn.invoked)

-- OnClose does not begin before handleConnection has stored the connection.
def ClosesLater (s : TcpClient) : Action → Prop
  | .conn (.exec _) => s.world.loop.head? = some .handleRemove →
    s.world.conn.state = .kDisconnected → s.starting = false
  | _ => True

instance (s : TcpClient) : DecidablePred (ClosesLater s)
  | .conn (.exec _) => inferInstanceAs (Decidable (_ → _ → _))
  | .conn (.call _ _) | .conn (.user _) | .conn .ret | .conn .enter => isTrue trivial
  | .conn (.task _) | .conn (.events _) => isTrue trivial
  | .call _ _ | .advance _ _ | .task | .timer | .attempt _ _ | .onCloseStore => isTrue trivial

structure Tracked (s : TcpClient) : Prop where
  sound : Sound s
  disconnected : s.state = .kDisconnected → .onClose ∈ s.world.conn.invoked
  starting : .starting ∈ s.attempts → .onClose ∉ s.world.conn.invoked
  opened : 0 < s.created → .onClose ∉ s.world.conn.invoked →
    s.conn = true ∨ .starting ∈ s.attempts
  closed : .onClose ∈ s.world.conn.invoked →
    .afterClose ∈ s.world.loop ∨ (s.state = .kDisconnected ∧ s.conn = false)
  stored : s.stored = true → s.state = .kDisconnected

theorem closed_of_after (k : Sound s) (h : .afterClose ∈ s.world.loop) :
    .onClose ∈ s.world.conn.invoked := by
  have hpos : 0 < s.created := by
    refine created_of_world k.single fun hw => ?_
    rw [hw] at h
    cases h
  exact ((k.served hpos).serving.serving.reported.loop _ h).2 rfl

theorem disconnected_from {a : Action} (h : step s a = some t) (ht : t.state = .kDisconnected) :
    s.state = .kDisconnected ∨ .afterClose ∈ s.world.loop := by
  cases step_moves h with
  | advance _ hv =>
    cases hv with
    | start | closer => cases ht
    | _ => exact .inl ht
  | attempt _ hv =>
    cases hv with
    | offline | handle => cases ht
    | _ => exact .inl ht
  | store hl => exact .inr (List.mem_of_head? hl)
  | _ => exact .inl ht

theorem disconnected_stays {a : Action} (k : Single s) (h : step s a = some t)
    (hs : s.state = .kDisconnected) : t.state = .kDisconnected := by
  cases step_moves h with
  | advance _ hv =>
    cases hv with
    | start hc | closer op hc =>
      rw [hs] at hc
      cases hc
    | _ => exact hs
  | attempt ha hv =>
    cases hv with
    | offline =>
      have hpos := List.countP_pos_iff.mpr
        ⟨_, List.mem_of_getElem? ha, (rfl : AttemptPc.pending .offline = true)⟩
      have hp := k.pending
      simp only [pending, hs, State.connecting] at hp
      omega
    | handle hc =>
      rw [hs] at hc
      cases hc
    | _ => exact hs
  | store => rfl
  | _ => exact hs

theorem starting_stays {a : Action} (h : step s a = some t) (hm : .starting ∈ s.attempts) :
    .starting ∈ t.attempts ∨ t.conn = true := by
  cases step_moves h with
  | advance _ hv =>
    cases hv with
    | inlined => exact .inl (List.mem_append_left _ hm)
    | _ => exact .inl hm
  | task | timer => exact .inl (List.mem_append_left _ hm)
  | @attempt index _ pc v next ha hv =>
    by_cases hp : pc = .starting
    · subst hp
      cases hv
      exact .inr rfl
    · left
      change .starting ∈ Pool.replace v.attempts index next
      rw [(attempts_keep hv).1]
      exact Pool.mem_replace_of_ne ha hm (Ne.symm hp)
  | _ => exact .inl hm

theorem starting_from {a : Action} (h : step s a = some t)
    (hm : .starting ∈ t.attempts) : .starting ∈ s.attempts ∨ t.world.conn.invoked = [] := by
  cases step_moves h with
  | advance _ hv => exact .inl ((calls_keep hv).2.2.2.2 hm)
  | task | timer => exact .inl (by simpa using hm)
  | @attempt index _ _ v next ha hv =>
    change .starting ∈ Pool.replace v.attempts index next at hm
    rw [(attempts_keep hv).1] at hm
    rcases Pool.mem_replace ha hm with rfl | hm
    · cases hv with
      | create w hw => exact .inr (start_invoked hw)
    · exact .inl hm
  | _ => exact .inl hm

theorem starting_begins {a : Action} (h : step s a = some t) (h0 : ¬ 0 < s.created)
    (hpos : 0 < t.created) : .starting ∈ t.attempts := by
  cases step_moves h with
  | advance _ hv => exact absurd ((calls_keep hv).2.1 ▸ hpos) h0
  | attempt ha hv =>
    cases hv with
    | create w hw => exact Pool.mem_replace_self ha
    | _ => exact absurd hpos h0
  | _ => exact absurd hpos h0

theorem stored_from {a : Action} (h : step s a = some t) (ht : t.stored = true) :
    s.stored = true ∨ t.state = .kDisconnected := by
  cases step_moves h with
  | advance _ hv => cases hv <;> exact .inl ht
  | attempt _ hv => cases hv <;> exact .inl ht
  | reset => cases ht
  | store => exact .inr rfl
  | _ => exact .inl ht

theorem conn_kept {a : Action} (h : step s a = some t) (hc : s.conn = true) :
    t.conn = true ∨ .afterClose ∈ s.world.loop := by
  cases step_moves h with
  | advance _ hv => exact .inl ((calls_keep hv).2.2.1.trans hc)
  | attempt _ hv =>
    cases hv with
    | starting w hl hw => exact .inl rfl
    | _ => exact .inl hc
  | reset _ _ _ hl =>
    right
    rw [hl]
    exact List.mem_cons_self
  | _ => exact .inl hc

theorem closed_step {a : Action} (k : Tracked s) (h : step s a = some t)
    (hx : .onClose ∈ s.world.conn.invoked) :
    .afterClose ∈ t.world.loop ∨ (t.state = .kDisconnected ∧ t.conn = false) := by
  rcases k.closed hx with hm | ⟨hs, hc⟩
  · rcases step_world k.sound.single h with ⟨hw, -⟩ | ⟨-, -, b, -, ha, hb⟩ | ⟨h0, -⟩
    · exact .inl (hw ▸ hm)
    · rcases TcpConnection.stage_persists rfl hm hb with hm | ⟨env, rest, hbe, hl⟩
      · exact .inl hm
      · subst hbe
        obtain rfl := exec_action ha
        obtain ⟨-, -, w, -, hcase⟩ := step_conn h
        rcases hcase with ⟨-, -, -, -, hst, rfl⟩ | ⟨hn, -⟩
        · exact .inr ⟨k.stored hst, rfl⟩
        · exact absurd hl (hn env rest rfl)
    · rw [(k.sound.single.unconnected h0).1] at hx
      cases hx
  · refine .inr ⟨disconnected_stays k.sound.single h hs, ?_⟩
    rw [← Bool.not_eq_true]
    intro ht
    rcases connected_step h ht with hc' | ⟨hm, -⟩
    · rw [hc] at hc'
      cases hc'
    · exact k.starting hm hx

theorem tracked_step {a : Action} (k : Tracked s) (ha : ClosesLater s a) (h : step s a = some t) :
    Tracked t where
  sound := sound_step k.sound h
  disconnected ht := by
    refine closed_stays k.sound.single h ?_
    rcases disconnected_from h ht with hs | hm
    · exact k.disconnected hs
    · exact closed_of_after k.sound hm
  starting hm hx := by
    rcases starting_from h hm with hm | hi
    · obtain ⟨env, rest, rfl, hl, hd⟩ := closed_begins k.sound.single h hx (k.starting hm)
      have hs := ha (by rw [hl]; rfl) hd
      simp [TcpClient.starting, hm] at hs
    · rw [hi] at hx
      cases hx
  opened hpos hn := by
    by_cases h0 : 0 < s.created
    · have hn' : .onClose ∉ s.world.conn.invoked := fun hx => hn (closed_stays k.sound.single h hx)
      rcases k.opened h0 hn' with hc | hm
      · refine (conn_kept h hc).imp_right fun hm => ?_
        exact absurd (closed_of_after k.sound hm) hn'
      · exact (starting_stays h hm).symm
    · exact .inr (starting_begins h h0 hpos)
  closed hx := by
    by_cases hs : .onClose ∈ s.world.conn.invoked
    · exact closed_step k h hs
    · left
      rcases step_world k.sound.single h with ⟨hw, -⟩ | ⟨-, -, b, -, -, hb⟩ | ⟨-, hw⟩
      · exact absurd (hw ▸ hx) hs
      · exact (TcpConnection.close_step hb hx).resolve_left hs
      · rw [start_invoked hw] at hx
        cases hx
  stored ht := by
    rcases stored_from h ht with hs | hs
    · exact disconnected_stays k.sound.single h (k.stored hs)
    · exact hs

theorem tracked_init : Tracked init where
  sound := sound_init
  disconnected h := by cases h
  starting h := by cases h
  opened h := absurd h (Nat.lt_irrefl _)
  closed h := by cases h
  stored h := by cases h

theorem tracked_agrees (k : Tracked s) : Agrees s := by
  rintro ⟨hattempts, hloop⟩
  have hafter : .afterClose ∉ s.world.loop := fun hm => by cases hloop _ hm
  have hstart : .starting ∉ s.attempts := fun hm => by cases hattempts _ hm
  have hcreate : s.attempts.countP AttemptPc.creates = 0 := by
    rw [List.countP_eq_zero]
    intro pc hm hc
    have hp := hattempts pc hm
    cases pc with
    | handleConnection | create | starting => cases hp
    | _ => cases hc
  have hconn := k.sound.single.connections
  simp only [connections, hcreate, Nat.add_zero] at hconn
  by_cases hx : .onClose ∈ s.world.conn.invoked
  · obtain ⟨hs, hc⟩ := (k.closed hx).resolve_left hafter
    simp [hs, hc, hx]
  · have hs : s.state ≠ .kDisconnected := fun hs => hx (k.disconnected hs)
    refine ⟨?_, iff_of_false hs hx⟩
    by_cases hpos : 0 < s.created
    · refine iff_of_true ((k.opened hpos hx).resolve_right hstart) ?_
      cases hstate : s.state <;> simp_all [State.established]
    · refine iff_of_false ?_ ?_
      · rw [(k.sound.single.unconnected (Nat.eq_zero_of_not_pos hpos)).2]
        exact Bool.false_ne_true
      · rintro (hs | hs) <;> simp [hs, State.established] at hconn <;> omega

theorem state_agrees (as : List Action) (h : system.Along ClosesLater init as) :
    system.Always Agrees init as :=
  Transition.System.always_of_along (M := system) (fun _ _ _ k ha h => tracked_step k ha h)
    (fun _ => tracked_agrees) tracked_init h

-- The user's OnConnect has returned; later the peer closes.
def peerCloses : List Action :=
  connected ++ ([.conn (.events .kReadable), .conn (.exec (.read .eof)), .conn (.exec .none),
    .conn (.exec .none), .conn (.exec .none), .conn (.exec .none), .conn .ret, .onCloseStore,
    .conn (.exec .none)] : List Action)

theorem state_agrees_closed :
    (system.run init peerCloses).isSome = true ∧ system.Always Agrees init peerCloses :=
  ⟨rfl, state_agrees peerCloses (by decide)⟩

def closedInOnConnect : List Action :=
  connecting ++ ([.conn (.call .loop .forceClose)] : List Action) ++
  List.replicate 6 (.conn (.exec .none)) ++
  ([.conn .ret, .onCloseStore, .conn (.exec .none), .conn .ret, .conn (.exec .none),
    .attempt 0 0] : List Action)

theorem close_resurrects : ¬ ∀ as, system.Always Agrees init as := by
  intro h
  have ha := Transition.System.always_last (h closedInOnConnect) rfl
  obtain ⟨hc, -⟩ := ha ⟨by decide, by decide⟩
  rcases hc.mp rfl with hs | hs <;> cases hs

end TcpClient
end Pedronet
