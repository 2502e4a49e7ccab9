import Pedronet.TcpClient.Connection

namespace Pedronet
namespace TcpClient
open TcpConnection (World Thread Instr Pending Executes adding)

variable {s t : TcpClient} {w u : World}

def removesCall : TcpConnection.CallPc → Bool
  | .forceClose | .forceCloseStore => true
  | pc => pc.removes

def removes : Instr → Bool
  | .call pc => removesCall pc
  | .task _ job => job.removes
  | .remove | .handleCloseStore => true
  | _ => false

def Removal (w : World) : Prop :=
  Pending (removes · = true) (removesCall · = true) (·.removes = true) w

def CallPc.forces : CallPc → Bool
  | .closer op | .test op | .apply op | .crashed op => op == .forceClose
  | .start | .schedule => false

def UnderWay (s : TcpClient) : Prop :=
  (∃ call ∈ s.calls, call.2.forces = true) ∨ Removal s.world

-- What a call of ForceClose that finds kDisconnected and a task of Close that finds unsent output
-- leave behind.
def abandon (w : World) : TcpConnection.Action → Option World
  | .user id =>
    match w.users id with
    | .forceClose :: rest =>
      if w.conn.state = .kDisconnected then some (w.setUser id rest) else none
    | _ => none
  | .exec _ =>
    match w.loop with
    | .call .forceClose :: rest =>
      if w.conn.state = .kDisconnected then some { w with loop := rest } else none
    | .task _ .close :: rest =>
      if w.conn.output = [] then none else some { w with loop := rest }
    | _ => none
  | _ => none

def giveUp (s : TcpClient) : Action → Option TcpClient
  | .advance index _ =>
    match s.calls[index]? with
    | some (_, .closer .forceClose) =>
      if s.state = .kConnected then none else some { s with calls := s.calls.eraseIdx index }
    | some (_, .test .forceClose) =>
      if s.conn = true then none else some { s with calls := s.calls.eraseIdx index }
    | _ => none
  | .conn a => (abandon s.world a).map fun w => { s with world := w }
  | _ => none

def Reported (s : TcpClient) : Action → Prop
  | .conn (.exec _) => s.world.loop.head? = some .handleRemove → s.world.conn.state = .kDisconnected
  | _ => True

instance (s : TcpClient) : DecidablePred (Reported s)
  | .conn (.exec _) => inferInstanceAs (Decidable (_ → _))
  | .conn (.call _ _) | .conn (.user _) | .conn .ret | .conn .enter => isTrue trivial
  | .conn (.task _) | .conn (.events _) => isTrue trivial
  | .call _ _ | .advance _ _ | .task | .timer | .attempt _ _ | .onCloseStore => isTrue trivial

-- A removal of a registered channel is given up only while another one is under way.
def Effective (s : TcpClient) (a : Action) : Prop :=
  (∀ r, s.giveUp a = some r → r.world.conn.channel.registered = true → UnderWay r) ∧ Reported s a

def ForceClosed (s : TcpClient) : Prop :=
  s.world.conn.channel.registered = false ∧ .onClose ∈ s.world.conn.invoked

theorem call_removal {thread : Thread}
    (h : TcpConnection.step w (.call thread .forceClose) = some u) : Removal u := by
  cases thread with
  | loop =>
    obtain ⟨handler, rest, -, rfl⟩ := TcpConnection.step_call_loop h
    exact .inl ⟨_, List.mem_cons_self, rfl⟩
  | user id =>
    obtain ⟨pc, -, ho, rfl⟩ := TcpConnection.step_call_user h
    cases ho
    exact .inr (.inl ⟨id, .forceClose, by simp [World.setUser], rfl⟩)

theorem calls_removal {c d : TcpConnection} {pc : TcpConnection.CallPc}
    {pcs : List TcpConnection.CallPc} (h : TcpConnection.Calls c pc d pcs) (hp : removesCall pc = true) :
    (∃ p ∈ pcs, removesCall p = true) ∨ (pc = .forceClose ∧ c.state = .kDisconnected) := by
  cases h with
  | forceClose | forceCloseStore => exact .inl ⟨_, List.mem_cons_self, rfl⟩
  | forceClosed h => exact .inr ⟨rfl, h⟩
  | _ => cases hp

theorem executes_removal {c d : TcpConnection} {i : Instr} {push : List Instr}
    (h : Executes c i d push) (hd : d.channel.registered = true)
    (hi : removes i = true) : (∃ j ∈ push, removes j = true) ∨
      (i = .call .forceClose ∧ c.state = .kDisconnected) ∨
        ∃ sender, i = .task sender .close ∧ c.output ≠ [] := by
  cases h with
  | run job => exact .inl ⟨_, List.mem_cons_self, hi⟩
  | call h =>
    rcases calls_removal h hi with ⟨p, hp, hr⟩ | ⟨rfl, hs⟩
    · exact .inl ⟨_, List.mem_map_of_mem hp, hr⟩
    · exact .inr (.inl ⟨rfl, hs⟩)
  | closeTask | forceCloseTask | handleCloseStore => exact .inl ⟨_, List.mem_cons_self, rfl⟩
  | closeLater sender h => exact .inr (.inr ⟨sender, rfl, h⟩)
  | remove h => cases hd
  | removed h =>
    rw [h] at hd
    cases hd
  | _ => cases hi

theorem removal_step {b : TcpConnection.Action} (k : Removal w)
    (h : TcpConnection.step w b = some u) (hr : u.conn.channel.registered = true)
    (hn : abandon w b = none) : Removal u := by
  refine (TcpConnection.pending_step (Q := False) k ?_ (fun _ h => h) ?_ ?_ (fun _ _ h => h)
    h).resolve_right id
  · intro handler hi
    cases hi
  · rintro id pc rest pcs rfl hu hc hp
    refine .inl ((calls_removal hc hp).resolve_right ?_)
    rintro ⟨rfl, hs⟩
    simp [abandon, hu, hs] at hn
  · rintro env i rest push rfl hl he hi
    refine .inl ((executes_removal he hr hi).resolve_right ?_)
    rintro (⟨rfl, hs⟩ | ⟨sender, rfl, ho⟩)
    · simp [abandon, hl, hs] at hn
    · simp [abandon, hl, ho] at hn

theorem abandon_step {b : TcpConnection.Action} (h : TcpConnection.step w b = some u) {r : World}
    (hr : abandon w b = some r) :
    r.loop = u.loop ∧ r.users = u.users ∧ r.tasks = u.tasks ∧ r.conn.channel = u.conn.channel := by
  unfold abandon at hr
  split at hr
  · rename_i id
    split at hr
    · rename_i rest hu
      obtain ⟨pc, rest', hu', rfl⟩ := TcpConnection.step_user h
      rw [hu] at hu'
      cases hu'
      split at hr
      · rename_i hs
        cases hr
        simp [TcpConnection.userStep, TcpConnection.callStep, World.setUser, hs]
      · cases hr
    · cases hr
  · rename_i env
    obtain ⟨i, rest, c, push, hl, he, rfl⟩ := TcpConnection.step_executes h
    rw [hl] at hr
    split at hr
    · rename_i rest' hi
      cases hi
      split at hr
      · rename_i hs
        cases hr
        cases he with
        | call he =>
          cases he with
          | forceClose hn => exact absurd hs hn
          | forceClosed => exact ⟨rfl, rfl, rfl, rfl⟩
      · cases hr
    · rename_i sender rest' hi
      cases hi
      split at hr
      · cases hr
      · rename_i ho
        cases hr
        cases he with
        | closeTask _ hn => exact absurd hn ho
        | closeLater => exact ⟨rfl, rfl, rfl, rfl⟩
    · cases hr
  · cases hr

theorem abandon_removal {r : World} (hl : r.loop = u.loop) (hu : r.users = u.users)
    (ht : r.tasks = u.tasks) (k : Removal r) : Removal u := by
  unfold Removal Pending at k ⊢
  rwa [hl, hu, ht] at k

structure Due (s : TcpClient) : Prop where
  sound : Sound s
  created : 0 < s.created
  added : ∀ τ, adding τ s.world = 0
  due : s.world.conn.channel.registered = true → UnderWay s
  removed : s.world.conn.channel.registered = false →
    .handleRemove ∈ s.world.loop ∨ .onClose ∈ s.world.conn.invoked

theorem added_step {b : TcpConnection.Action} (k : ∀ τ, adding τ w = 0) (hb : b.starts = false)
    (h : TcpConnection.step w b = some u) (τ : Thread) : adding τ u = 0 := by
  have hadd := TcpConnection.adding_step τ h
  have hon : b.startsOn τ = false := by
    rw [← Bool.not_eq_true]
    intro hs
    rw [TcpConnection.starts_on hs] at hb
    cases hb
  simp only [k τ, hon, Bool.false_eq_true, if_false] at hadd
  omega

theorem added_nothing {b : TcpConnection.Action} (k : ∀ τ, adding τ w = 0) :
    TcpConnection.AddsNothing w b := by
  rintro env sender rfl hl
  have hadd := k sender
  have hpos : 0 < w.loop.countP (TcpConnection.Instr.adds sender) :=
    List.countP_pos_iff.mpr ⟨_, List.mem_of_mem_head? hl, by simp [TcpConnection.Instr.adds]⟩
  simp only [adding] at hadd
  omega

theorem due_world {a : Action} (k : Due s) (h : step s a = some t) :
    (∀ τ, adding τ t.world = 0) ∧
      (t.world.conn.channel.registered = true → s.world.conn.channel.registered = true) := by
  rcases step_world k.sound.single h with ⟨hw, -⟩ | ⟨-, -, b, hb, -, hstep⟩ | ⟨h0, -⟩
  · rw [hw]
    exact ⟨k.added, id⟩
  · exact ⟨added_step k.added hb hstep,
      TcpConnection.registered_before (added_nothing k.added) hstep⟩
  · exact absurd k.created (by omega)

theorem calls_persist {a : Action} (h : step s a = some t)
    (ha : ∀ index inline, a ≠ .advance index inline) : ∀ call ∈ s.calls, call ∈ t.calls := by
  cases step_moves h with
  | call => exact fun _ hm => List.mem_append_left _ hm
  | advance => exact absurd rfl (ha _ _)
  | attempt _ hv =>
    have hc := (attempts_keep hv).2.1
    exact fun _ hm => hc ▸ hm
  | _ => exact fun _ hm => hm

theorem removal_under_way {a : Action} (k : Due s) (ha : Effective s a) (h : step s a = some t)
    (hr : t.world.conn.channel.registered = true) (hk : Removal s.world) : UnderWay t := by
  rcases step_world k.sound.single h with ⟨hw, -⟩ | ⟨-, -, b, -, hb, hstep⟩ | ⟨h0, -⟩
  · exact .inr (hw ▸ hk)
  · cases hn : abandon s.world b with
    | none => exact .inr (removal_step hk hstep hr hn)
    | some r =>
      have hconn : a = .conn b := by
        rcases hb with hb | rfl | ⟨_, _, rfl⟩
        · exact hb
        · cases hn
        · cases hn
      subst hconn
      obtain ⟨hl, hu, ht, hc⟩ := abandon_step hstep hn
      have hr' := ha.1 { s with world := r } (by simp [giveUp, hn]) (by rw [hc]; exact hr)
      rcases hr' with ⟨call, hm, hf⟩ | hr'
      · exact .inl ⟨call, calls_persist h (by simp) call hm, hf⟩
      · exact .inr (abandon_removal hl hu ht hr')
  · exact absurd k.created (by omega)

theorem call_under_way {index : Nat} {inline : Bool} (ha : Effective s (.advance index inline))
    (h : step s (.advance index inline) = some t)
    (hr : t.world.conn.channel.registered = true) (hk : ∃ call ∈ s.calls, call.2.forces = true) :
    UnderWay t := by
  obtain ⟨thread, pc, v, next, hpc, hv, rfl⟩ := step_advance h
  obtain ⟨call, hm, hf⟩ := hk
  by_cases hne : call = (thread, pc)
  · subst hne
    cases hv with
    | closer op hs => exact .inl ⟨(thread, .test op), Pool.mem_replace_self hpc, hf⟩
    | closerLost op hs =>
      obtain rfl := eq_of_beq hf
      exact ha.1 _ (by simp [giveUp, hpc, hs, Pool.replace]) hr
    | found op hc => exact .inl ⟨(thread, .apply op), Pool.mem_replace_self hpc, hf⟩
    | lost op hc =>
      obtain rfl := eq_of_beq hf
      exact ha.1 _ (by simp [giveUp, hpc, hc, Pool.replace]) hr
    | apply op w hc hw =>
      obtain rfl := eq_of_beq hf
      exact .inr (call_removal hw)
    | null op hc => exact .inl ⟨(thread, .crashed op), Pool.mem_replace_self hpc, hf⟩
    | _ => cases hf
  · refine .inl ⟨call, ?_, hf⟩
    change call ∈ Pool.replace v.calls index _
    rw [(calls_keep hv).1]
    exact Pool.mem_replace_of_ne hpc hm hne

theorem under_way {a : Action} (k : Due s) (ha : Effective s a) (h : step s a = some t)
    (hr : t.world.conn.channel.registered = true) : UnderWay t := by
  rcases k.due ((due_world k h).2 hr) with hk | hk
  · by_cases hadvance : ∃ index inline, a = .advance index inline
    · obtain ⟨index, inline, rfl⟩ := hadvance
      exact call_under_way ha h hr hk
    · obtain ⟨call, hm, hf⟩ := hk
      refine .inl ⟨call, calls_persist h (fun index inline he => ?_) call hm, hf⟩
      exact hadvance ⟨index, inline, he⟩
  · exact removal_under_way k ha h hr hk

theorem removed_step {a : Action} (k : Due s) (ha : Effective s a) (h : step s a = some t)
    (hr : t.world.conn.channel.registered = false) :
    .handleRemove ∈ t.world.loop ∨ .onClose ∈ t.world.conn.invoked := by
  rcases step_world k.sound.single h with ⟨hw, -⟩ | ⟨-, -, b, -, hb, hstep⟩ | ⟨h0, -⟩
  · rw [hw] at hr ⊢
    exact k.removed hr
  · by_cases hs : s.world.conn.channel.registered = true
    · exact .inl (List.mem_of_head? (TcpConnection.step_removes hstep hs hr))
    · rcases k.removed (Bool.eq_false_iff.mpr hs) with hm | hx
      · rcases TcpConnection.stage_persists rfl hm hstep with hm | ⟨env, rest, rfl, hl⟩
        · exact .inl hm
        · obtain rfl := exec_action hb
          have hd := ha.2 (by rw [hl]; rfl)
          exact .inr (TcpConnection.handle_remove_reports hstep hl hd).1
      · exact .inr (TcpConnection.invoked_mem hstep hx)
  · exact absurd k.created (by omega)

theorem due_step {a : Action} (k : Due s) (ha : Effective s a) (h : step s a = some t) : Due t where
  sound := sound_step k.sound h
  created := created_step k.sound.single h k.created
  added := (due_world k h).1
  due := under_way k ha h
  removed := removed_step k ha h

theorem due_idle (k : Due s) (hi : Idle s) : ForceClosed s := by
  have hr : s.world.conn.channel.registered = false := by
    rw [← Bool.not_eq_true]
    intro hr
    rcases k.due hr with ⟨call, hm, -⟩ | hp
    · rw [hi.2.2.2.1] at hm
      cases hm
    · exact TcpConnection.not_pending hi.2.2.2.2 hp
  refine ⟨hr, (k.removed hr).resolve_left fun hm => ?_⟩
  rw [hi.2.2.2.2.2.1] at hm
  cases hm

theorem registered_added (k : Sound s) (hr : s.world.conn.channel.registered = true) :
    0 < s.created ∧ ∀ τ, adding τ s.world = 0 := by
  have hpos : 0 < s.created := by
    refine created_of_world k.single fun hw => ?_
    rw [hw] at hr
    cases hr
  refine ⟨hpos, fun τ => ?_⟩
  have he := (k.served hpos).serving.started.once.held τ
  have hs := (k.served hpos).serving.started.single
  simp only [TcpConnection.held, hr, Bool.toNat_true] at he
  omega

theorem due_called {thread : Thread} (k : Sound s) (hr : s.world.conn.channel.registered = true)
    (h : step s (.call thread (.closer .forceClose)) = some t) : Due t := by
  obtain ⟨hpos, hadd⟩ := registered_added k hr
  have hsound := sound_step k h
  obtain ⟨-, rfl⟩ := step_call h
  refine ⟨hsound, hpos, hadd, fun _ => ?_, fun hf => ?_⟩
  · exact .inl ⟨_, List.mem_append_right _ List.mem_cons_self, rfl⟩
  · exact absurd hr (Bool.eq_false_iff.mp hf)

theorem force_close_closes (as bs : List Action) (thread : Thread) (h : system.run init as = some s)
    (hr : s.world.conn.channel.registered = true)
    (hc : step s (.call thread (.closer .forceClose)) = some t)
    (hg : system.Along Effective t bs) : system.Always (fun u => Idle u → ForceClosed u) t bs := by
  have hsound : Sound s := Transition.System.run_invariant (M := system)
    (fun _ _ _ k _ h => sound_step k h) sound_init Transition.System.along_true h
  exact Transition.System.always_of_along (M := system) (fun _ _ _ k ha h => due_step k ha h)
    (fun _ k hi => due_idle k hi) (due_called hsound hr hc) hg

theorem effective_of_none {a : Action} (h : (s.giveUp a).isNone = true ∧ Reported s a) :
    Effective s a := by
  refine ⟨fun r hr => ?_, h.2⟩
  rw [hr] at h
  cases h.1

def forced : List Action :=
  [.advance 0 false, .advance 0 false, .advance 0 false, .conn (.user 1), .conn (.user 1),
    .conn (.user 1), .conn (.task 0), .conn (.exec .none), .conn (.exec .none), .conn (.exec .none),
    .conn .ret, .onCloseStore, .conn (.exec .none)]

theorem force_close_closes_connected : ∃ s t, system.run init connected = some s ∧
    step s (.call (.user 1) (.closer .forceClose)) = some t ∧ (system.run t forced).isSome = true ∧
      system.Always (fun u => Idle u → ForceClosed u) t forced :=
  ⟨_, _, rfl, rfl, rfl, force_close_closes connected forced (.user 1) rfl rfl rfl
    (Transition.System.along_mono (fun _ _ => effective_of_none) (by decide))⟩

def shutDown : List Action :=
  connected ++ ([.conn .enter, .call .loop (.closer .shutdown), .advance 0 false, .advance 0 false,
    .advance 0 false, .conn (.exec .none), .conn (.exec .none), .conn (.exec .none),
    .conn (.exec .none), .conn .ret] : List Action)

theorem force_close_ignored : ¬ ∀ (as bs : List Action) (thread : Thread) (s t : TcpClient),
    system.run init as = some s → s.world.conn.channel.registered = true →
      step s (.call thread (.closer .forceClose)) = some t →
        system.Always (fun u => Idle u → ForceClosed u) t bs := by
  intro h
  have hf := Transition.System.always_last
    (h shutDown [.advance 0 false] (.user 1) _ _ rfl rfl rfl) rfl
  cases (hf ⟨rfl, rfl, rfl, rfl, rfl, rfl, fun _ => rfl⟩).1

end TcpClient
end Pedronet
