import Pedronet.TcpConnection.Outcomes

namespace Pedronet
namespace TcpConnection
variable {w t u : World} {c d : TcpConnection} {rest : List Instr}

def Action.byUser : Action → Bool
  | .call (.user _) _ | .user _ => true
  | _ => false

-- The steps of a call up to its write(2), which fails and leaves SO_ERROR at 0, and the unwritten bytes.
inductive Blocked : Instr → List Action → Bytes → Prop where
  | handleSend (sender : Thread) (buffer : Bytes) (users : List Action) (errno : Nat)
      (hu : ∀ a ∈ users, a.byUser = true) (he : errno = EAGAIN ∨ errno = EWOULDBLOCK) :
    Blocked (.task sender (.handleSend buffer))
      (.exec .none :: (users ++ [.exec (.write (.failed errno 0))])) buffer
  | handleWrite (errno : Nat) (he : errno = EAGAIN ∨ errno = EWOULDBLOCK) :
    Blocked .handleWrite [.exec (.write (.failed errno 0))] []

structure BackPressure (message : Bytes) (c d : TcpConnection) : Prop where
  state : d.state = .kConnected
  invoked : ∀ handler ∈ d.invoked.drop c.invoked.length,
    handler ≠ .onClose ∧ ∀ code, handler ≠ .onError code
  registered : c.channel.registered = true → d.channel.registered = true
  output : d.output = c.output ++ message
  writable : d.output ≠ [] → d.channel.writable = true

theorem calls_connected {pc : CallPc} {pcs : List CallPc} (h : Calls c pc d pcs)
    (hc : c.state ≠ .kConnecting) :
    d.state ≠ .kConnecting ∧ (d.state = .kConnected → c.state = .kConnected) := by
  cases h with
  | close | forceCloseStore | shutdown | forceShutdownStore =>
    exact ⟨fun hs => (by cases hs), fun hs => (by cases hs)⟩
  | _ => exact ⟨hc, id⟩

theorem executes_connected {i : Instr} {push : List Instr} (h : Executes c i d push)
    (hc : c.state ≠ .kConnecting) :
    d.state ≠ .kConnecting ∧ (d.state = .kConnected → c.state = .kConnected) := by
  cases h with
  | call h => exact calls_connected h hc
  | connect h => exact absurd h hc
  | handleCloseStore => exact ⟨fun hs => (by cases hs), fun hs => (by cases hs)⟩
  | _ => exact ⟨hc, id⟩

theorem step_connected {a : Action} (h : step w a = some t) (hw : w.conn.state ≠ .kConnecting) :
    t.conn.state ≠ .kConnecting ∧ (t.conn.state = .kConnected → w.conn.state = .kConnected) := by
  rcases step_conn h with he | ⟨_, _, _, _, _, _, hc⟩ | ⟨_, _, _, _, _, _, he⟩
  · exact ⟨he ▸ hw, fun hs => he ▸ hs⟩
  · exact calls_connected hc hw
  · exact executes_connected he hw

def Instr.forces : Instr → Bool
  | .handleError code => code = kOk
  | .call .forceClose | .call .forceCloseStore => true
  | _ => false

structure Forcing (rest : List Instr) (w : World) : Prop where
  started : w.conn.state ≠ .kConnecting
  loop : w.conn.state = .kConnected →
    ∃ i more, w.loop = i :: more ∧ i.forces = true ∧ rest.length ≤ more.length

theorem executes_forces {i : Instr} {push : List Instr} (h : Executes c i d push)
    (hi : i.forces = true) (hd : d.state = .kConnected) (hc : c.state = .kConnected) :
    ∃ j, push = [j] ∧ j.forces = true := by
  cases h with
  | noError => exact ⟨_, rfl, rfl⟩
  | error code h => exact absurd (by simpa [Instr.forces] using hi) h
  | call h =>
    cases h with
    | forceClose => exact ⟨_, rfl, rfl⟩
    | forceClosed h => exact absurd (hc.symm.trans h) (by simp)
    | forceCloseStore => cases hd
    | _ => cases hi
  | _ => cases hi

theorem user_connected {a : Action} (ha : a.byUser = true) (h : step w a = some t)
    (hs : w.conn.state ≠ .kConnecting) :
    t.loop = w.loop ∧ t.conn.state ≠ .kConnecting ∧
      (t.conn.state = .kConnected → w.conn.state = .kConnected) := by
  cases a with
  | call thread op =>
    cases thread with
    | loop => cases ha
    | user id =>
      obtain ⟨pc, -, -, rfl⟩ := step_call_user h
      exact ⟨rfl, hs, fun hd => hd⟩
  | user id =>
    rcases step_calls h with ⟨job, pcs, -, rfl⟩ | ⟨pc, pcs, c, push, -, hc, rfl⟩
    · exact ⟨rfl, hs, fun hd => hd⟩
    · exact ⟨rfl, calls_connected hc hs⟩
  | _ => cases ha

theorem forcing_user {a : Action} (f : Forcing rest w) (ha : a.byUser = true)
    (h : step w a = some t) : Forcing rest t := by
  obtain ⟨hl, hs, hb⟩ := user_connected ha h f.started
  refine ⟨hs, fun hd => ?_⟩
  rw [hl]
  exact f.loop (hb hd)

theorem forcing_step {a : Action} (f : Forcing rest w) (h : step w a = some t) :
    Forcing rest t := by
  cases a with
  | call thread op =>
    cases thread with
    | loop =>
      obtain ⟨handler, more, hl, rfl⟩ := step_call_loop h
      refine ⟨f.started, fun hs => ?_⟩
      obtain ⟨i, more', hm, hi, -⟩ := f.loop hs
      rw [hl] at hm
      cases hm
      cases hi
    | user id => exact forcing_user f rfl h
  | user id => exact forcing_user f rfl h
  | exec env =>
    obtain ⟨i, more, c, push, hl, he, rfl⟩ := step_executes h
    obtain ⟨hs, hb⟩ := executes_connected he f.started
    refine ⟨hs, fun hd => ?_⟩
    obtain ⟨j, more', hm, hj, hr⟩ := f.loop (hb hd)
    rw [hl] at hm
    cases hm
    obtain ⟨k, rfl, hk⟩ := executes_forces he hj hd (hb hd)
    exact ⟨k, more, rfl, hk, hr⟩
  | ret =>
    obtain ⟨handler, more, hl, rfl⟩ := step_ret h
    refine ⟨f.started, fun hs => ?_⟩
    obtain ⟨i, more', hm, hi, -⟩ := f.loop hs
    rw [hl] at hm
    cases hm
    cases hi
  | enter =>
    obtain ⟨hl, rfl⟩ := step_enter h
    refine ⟨f.started, fun hs => ?_⟩
    obtain ⟨i, more, hm, -⟩ := f.loop hs
    rw [hl] at hm
    cases hm
  | task index =>
    obtain ⟨id, job, hl, -, -, rfl⟩ := step_task h
    refine ⟨f.started, fun hs => ?_⟩
    obtain ⟨i, more, hm, -⟩ := f.loop hs
    rw [hl] at hm
    cases hm
  | events events =>
    obtain ⟨hl, -, rfl⟩ := step_events h
    refine ⟨f.started, fun hs => ?_⟩
    obtain ⟨i, more, hm, -⟩ := f.loop hs
    rw [hl] at hm
    cases hm

theorem not_back_pressure {message : Bytes} (f : Forcing rest t) (hl : t.loop = rest) :
    ¬ BackPressure message c t.conn := by
  intro hb
  obtain ⟨i, more, hm, -, hr⟩ := f.loop hb.state
  rw [← hl, hm] at hr
  exact absurd hr (by simp)

theorem send_accepts {sender : Thread} {buffer : Bytes} (hs : w.conn.state = .kConnected)
    (hl : w.loop = .task sender (.handleSend buffer) :: rest)
    (h : step w (.exec .none) = some t) :
    t.conn.state = w.conn.state ∧ t.loop = .directWrite buffer :: rest := by
  obtain ⟨i, more, c, push, hm, he, rfl⟩ := step_executes h
  rw [hl] at hm
  cases hm
  cases he with
  | accept => exact ⟨rfl, rfl⟩
  | giveUp _ _ hn => exact absurd hs hn

theorem write_fails {buffer : Bytes} {errno : Nat} (hl : w.loop = .directWrite buffer :: rest)
    (h : step w (.exec (.write (.failed errno 0))) = some t) :
    t.conn.state = w.conn.state ∧ t.loop = .handleError kOk :: .appendOutput buffer :: rest := by
  obtain ⟨i, more, c, push, hm, he, rfl⟩ := step_exec h
  rw [hl] at hm
  cases hm
  simp only [exec, directWrite] at he
  split at he <;> cases he
  exact ⟨rfl, rfl⟩

theorem handle_write_fails {errno : Nat} (hl : w.loop = .handleWrite :: rest)
    (h : step w (.exec (.write (.failed errno 0))) = some t) :
    t.conn.state = w.conn.state ∧ t.loop = .handleError kOk :: rest := by
  obtain ⟨i, more, c, push, hm, he, rfl⟩ := step_exec h
  rw [hl] at hm
  cases hm
  simp only [exec, handleWrite] at he
  split at he <;> cases he
  exact ⟨rfl, rfl⟩

theorem blocked_forces {i : Instr} {as : List Action} {message : Bytes} (hb : Blocked i as message)
    (hs : w.conn.state = .kConnected) (hl : w.loop = i :: rest) (h : system.run w as = some u) :
    u.conn.state ≠ .kConnecting ∧
      (u.loop = .handleError kOk :: rest ∨
        u.loop = .handleError kOk :: .appendOutput message :: rest) := by
  have hw : w.conn.state ≠ .kConnecting := by simp [hs]
  cases hb with
  | handleSend sender buffer users errno hu he =>
    obtain ⟨v, hv, h⟩ := Transition.System.run_cons h
    obtain ⟨v', hv', h⟩ := Transition.System.run_append.mp h
    obtain ⟨u', hu', h⟩ := Transition.System.run_cons h
    cases h
    obtain ⟨hstate, hloop⟩ := send_accepts hs hl hv
    let I (v : World) := v.loop = .directWrite message :: rest ∧ v.conn.state ≠ .kConnecting
    have hI : ∀ s a t, I s → a.byUser = true → step s a = some t → I t := by
      rintro s a t ⟨hloop, hstate⟩ ha ht
      obtain ⟨hsame, hne, -⟩ := user_connected ha ht hstate
      exact ⟨hsame.trans hloop, hne⟩
    have hv' : I v' := Transition.System.run_invariant (M := system) hI
      ⟨hloop, hstate ▸ hw⟩ (Transition.System.along_of_forall hu) hv'
    obtain ⟨hsame, hloop⟩ := write_fails hv'.1 hu'
    exact ⟨hsame ▸ hv'.2, .inr hloop⟩
  | handleWrite errno he =>
    obtain ⟨v, hv, h⟩ := Transition.System.run_cons h
    cases h
    obtain ⟨hsame, hloop⟩ := handle_write_fails hl hv
    exact ⟨hsame ▸ hw, .inl hloop⟩

def Returns (rest : List Instr) (w : World) : Prop :=
  ∃ as t, system.run w as = some t ∧ t.loop = rest

theorem returns_step {a : Action} (h : step w a = some t) (hr : Returns rest t) :
    Returns rest w := by
  obtain ⟨as, u, hu, hl⟩ := hr
  exact ⟨a :: as, u, by simpa [Transition.System.run, system, h] using hu, hl⟩

theorem returns_exec {i : Instr} {more push : List Instr} (env : Env) (hl : w.loop = i :: more)
    (he : exec w.conn env i = some (c, push))
    (hr : Returns rest { w with conn := c, loop := push ++ more }) : Returns rest w :=
  returns_step (a := .exec env) (by simp [step, hl, he]) hr

theorem returns_done (hl : w.loop = rest) : Returns rest w := ⟨[], w, rfl, hl⟩

theorem returns_trans {mid : List Instr} (h : Returns mid w)
    (hr : ∀ t : World, t.loop = mid → Returns rest t) : Returns rest w := by
  obtain ⟨as, t, ht, hl⟩ := h
  obtain ⟨bs, u, hu, hd⟩ := hr t hl
  exact ⟨as ++ bs, u, Transition.System.run_append.mpr ⟨t, ht, hu⟩, hd⟩

theorem append_returns {buffer : Bytes} (hl : w.loop = .appendOutput buffer :: rest) :
    Returns rest w := by
  by_cases hb : buffer = []
  · exact returns_exec .none hl (by rw [exec, if_pos hb]) (returns_done rfl)
  · exact returns_exec .none hl (by rw [exec, if_neg hb]) (returns_done rfl)

theorem remove_returns (hl : w.loop = .remove :: rest) : Returns rest w := by
  by_cases hr : w.conn.channel.registered = true
  · refine returns_exec .none hl (by rw [exec, if_pos hr]) ?_
    by_cases hs : w.conn.state = .kDisconnected
    · refine returns_exec .none rfl (by rw [exec, if_pos hs]) ?_
      refine returns_step (a := .ret) rfl ?_
      exact returns_exec .none rfl rfl (returns_done rfl)
    · exact returns_exec .none rfl (by rw [exec, if_neg hs]) (returns_done rfl)
  · exact returns_exec .none hl (by rw [exec, if_neg hr]) (returns_done rfl)

theorem force_close_returns (hl : w.loop = .handleError kOk :: rest) : Returns rest w := by
  refine returns_exec .none hl rfl ?_
  by_cases hs : w.conn.state = .kDisconnected
  · have hc : (callStep w.conn .forceClose).2 = [] := if_pos hs
    exact returns_exec .none rfl rfl (returns_done (by rw [hc]; rfl))
  · have hc : (callStep w.conn .forceClose).2 = [.forceCloseStore] := if_neg hs
    refine returns_exec .none rfl rfl ?_
    rw [hc]
    refine returns_exec .none rfl rfl ?_
    refine returns_exec .none rfl rfl ?_
    refine returns_exec .none rfl rfl ?_
    exact remove_returns rfl

theorem back_pressure_closes {i : Instr} {as : List Action} {message : Bytes}
    (hs : w.conn.state = .kConnected) (hl : w.loop = i :: rest) (hb : Blocked i as message)
    (h : system.run w as = some u) :
    Returns rest u ∧ ∀ bs t, system.run u bs = some t → t.loop = rest →
      ¬ BackPressure message w.conn t.conn := by
  obtain ⟨hstate, hloop⟩ := blocked_forces hb hs hl h
  have hr : Returns rest u := by
    rcases hloop with hloop | hloop
    · exact force_close_returns hloop
    · exact returns_trans (force_close_returns hloop) fun t ht => append_returns ht
  have hf : Forcing rest u := by
    refine ⟨hstate, fun _ => ?_⟩
    rcases hloop with hloop | hloop
    · exact ⟨_, _, hloop, rfl, Nat.le_refl _⟩
    · exact ⟨_, _, hloop, rfl, Nat.le_succ _⟩
  refine ⟨hr, fun bs t ht hlt => not_back_pressure ?_ hlt⟩
  exact Transition.System.run_invariant (M := system) (fun _ _ _ f _ h => forcing_step f h) hf
    Transition.System.along_true ht

def sending : List Action :=
  started ++ [.call .loop (.send .view [1]), .exec .none]

theorem back_pressure_closes_send :
    ∃ w u, system.run .init sending = some w ∧
      system.run w [.exec .none, .exec (.write (.failed EAGAIN 0))] = some u ∧
      Returns [.handler .onConnect, .setReadable] u ∧
        ∀ bs t, system.run u bs = some t → t.loop = [.handler .onConnect, .setReadable] →
          ¬ BackPressure [1] w.conn t.conn := by
  have h : (system.run .init sending).isSome = true := rfl
  have hw := (Option.some_get h).symm
  have hb : Blocked (.task .loop (.handleSend [1]))
      [.exec .none, .exec (.write (.failed EAGAIN 0))] [1] :=
    .handleSend .loop [1] [] EAGAIN (fun _ ha => by cases ha) (.inl rfl)
  have h' : (system.run ((system.run .init sending).get h)
      [.exec .none, .exec (.write (.failed EAGAIN 0))]).isSome = true := rfl
  have hu := (Option.some_get h').symm
  exact ⟨_, _, hw, hu, back_pressure_closes rfl rfl hb hu⟩

theorem back_pressure_fails :
    ¬ ∀ w i rest as message u bs t, system.Reachable w → w.conn.state = .kConnected →
      w.loop = i :: rest → Blocked i as message → system.run w as = some u →
      system.run u bs = some t → t.loop = rest → BackPressure message w.conn t.conn := by
  intro h
  have hs : (system.run .init sending).isSome = true := rfl
  have hw := (Option.some_get hs).symm
  have hr : system.Reachable ((system.run .init sending).get hs) :=
    Transition.System.reachable_run (.start rfl) hw
  have hb : Blocked (.task .loop (.handleSend [1]))
      [.exec .none, .exec (.write (.failed EAGAIN 0))] [1] :=
    .handleSend .loop [1] [] EAGAIN (fun _ ha => by cases ha) (.inl rfl)
  have hp := h _ _ [.handler .onConnect, .setReadable] _ _ _
    [.exec .none, .exec .none, .exec .none, .exec .none, .exec .none, .exec .none, .exec .none, .ret,
      .exec .none, .exec .none] _ hr rfl rfl hb rfl rfl rfl
  cases hp.state

end TcpConnection
end Pedronet
