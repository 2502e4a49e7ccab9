import Pedronet.TcpServer.Connections
import Pedronet.TcpConnection.Close

namespace Pedronet
namespace TcpServer
open TcpConnection (World Serving Entered Leaving Disconnects Drained Idle StartsInTime)

variable {s t : TcpServer}

def Closed (s : TcpServer) : Prop :=
  s.closer = .done → (∀ id < s.accepted, Idle (s.world id)) →
    s.conns = ∅ ∧ ∀ id < s.accepted, (s.world id).conn.channel.registered = false

-- When Close takes mu_ the OnConnect of every accepted connection has returned, or the connection
-- has been closed without one.
def Reached (s : TcpServer) : Prop := ∀ id < s.accepted, Entered (s.world id)

-- The compare-exchange of the walk's conn->Close() does not meet a Shutdown in progress.
def Found (s : TcpServer) : Prop :=
  match s.closer with
  | .visiting id _ =>
    (s.world id).users 1 = [.close] → (s.world id).conn.state ≠ .kDisconnecting
  | _ => True

instance (s : TcpServer) : Decidable (Found s) := by
  unfold Found
  split <;> infer_instance

def Covered (s : TcpServer) : Action → Prop
  | .conn id a => StartsInTime (s.world id) a ∧ Drained (s.world id) a
  | .lock => Reached s
  | .closeConn => Found s
  | _ => True

instance (w : World) : Decidable (Entered w) := inferInstanceAs (Decidable ((_ ∨ _) ∧ _))

instance (s : TcpServer) : DecidablePred (Covered s)
  | .conn _ _ => inferInstanceAs (Decidable (_ ∧ _))
  | .lock => inferInstanceAs (Decidable (∀ id < s.accepted, Entered (s.world id)))
  | .closeConn => inferInstanceAs (Decidable (Found s))
  | .listen | .accept _ | .acceptReturn | .close | .removeAcceptor => isTrue trivial
  | .visit _ | .next | .clear => isTrue trivial

def Closer.Past (w : World) (id : Nat) : Closer → Prop
  | .idle | .removing | .latched => True
  | .walking todo => Entered w ∧ (Leaving w ∨ (.onConnect ∈ w.conn.invoked ∧ id ∈ todo))
  | .visiting i todo =>
    Entered w ∧ (Leaving w ∨
      (.onConnect ∈ w.conn.invoked ∧ (id ∈ todo ∨ (id = i ∧ w.users 1 = [.close]))))
  | .done => Entered w ∧ Leaving w

def Closer.Stopped (s : TcpServer) : Closer → Prop
  | .idle | .removing => True
  | .latched | .walking _ | .visiting _ _ => s.listening = false
  | .done => s.listening = false ∧ s.conns = ∅

structure Walks (s : TcpServer) : Prop where
  tracks : Tracks s
  disconnects : ∀ id < s.accepted, Disconnects (s.world id)
  stopped : s.closer.Stopped s
  past : ∀ id < s.accepted, s.closer.Past (s.world id) id

theorem past_step {w u : World} {a : TcpConnection.Action} {id : Nat} {closer : Closer}
    (k : Serving w) (ha : StartsInTime w a) (hd : Drained w a) (hb : byCloser a = false)
    (hp : closer.Past w id) (h : TcpConnection.step w a = some u) : closer.Past u id := by
  have hleaving (he : Entered w) (hl : Leaving w) : Leaving u :=
    TcpConnection.leaving_step hl (TcpConnection.adds_nothing ha he.1) hd h
  have husers : u.users 1 = w.users 1 := by
    refine TcpConnection.step_users (fun op he => ?_) (fun he => ?_) h
    · subst he
      cases hb
    · subst he
      cases hb
  cases closer with
  | idle | removing | latched => trivial
  | walking todo =>
    obtain ⟨he, hw⟩ := hp
    exact ⟨TcpConnection.entered_step k he h,
      hw.imp (hleaving he) fun ⟨hx, hm⟩ => ⟨TcpConnection.invoked_mem h hx, hm⟩⟩
  | visiting i todo =>
    obtain ⟨he, hw⟩ := hp
    refine ⟨TcpConnection.entered_step k he h, hw.imp (hleaving he) fun ⟨hx, hm⟩ => ?_⟩
    rw [husers]
    exact ⟨TcpConnection.invoked_mem h hx, hm⟩
  | done =>
    obtain ⟨he, hw⟩ := hp
    exact ⟨TcpConnection.entered_step k he h, hleaving he hw⟩

theorem close_leaves {w u : World} (k : Serving w) (hx : .onConnect ∈ w.conn.invoked)
    (hdis : Disconnects w) (hs : w.conn.state ≠ .kDisconnecting) (hu : w.users 1 = [.close])
    (h : TcpConnection.step w (.user 1) = some u) : Leaving u := by
  rcases TcpConnection.step_calls h with ⟨job, rest, hpc, rfl⟩ | ⟨pc, rest, c, pcs, hpc, hc, rfl⟩
  · rw [hu] at hpc
    cases hpc
  · rw [hu] at hpc
    cases hpc
    cases hc with
    | close hk => exact fun _ => .inr (.inl ⟨1, .run .close, by simp [World.setUser], rfl⟩)
    | closeLost hk =>
      refine TcpConnection.leaving_step (a := .user 1) (hdis hx ?_) (by rintro _ _ ⟨⟩) trivial h
      cases hst : w.conn.state with
      | kConnected => exact absurd hst hk
      | kDisconnected => rfl
      | kConnecting => exact absurd hx (k.connecting.fresh hst).1
      | kDisconnecting => exact absurd hst hs

theorem past_visit {w : World} {id i : Nat} {todo : Finset Nat}
    (hp : (Closer.walking todo).Past w id) (he : id ≠ i) :
    (Closer.visiting i (todo.erase i)).Past w id := by
  obtain ⟨hent, hw⟩ := hp
  exact ⟨hent, hw.imp_right fun ⟨hx, hm⟩ => ⟨hx, .inl (Finset.mem_erase.mpr ⟨he, hm⟩)⟩⟩

theorem past_called {w u : World} {id : Nat} {todo rest : Finset Nat} (k : Serving w)
    (hp : (Closer.walking todo).Past w id)
    (h : TcpConnection.step w (.call (.user 1) .close) = some u) :
    (Closer.visiting id rest).Past u id := by
  obtain ⟨hent, hw⟩ := hp
  refine ⟨TcpConnection.entered_step k hent h, ?_⟩
  rcases hw with hl | ⟨hx, -⟩
  · exact .inl (TcpConnection.leaving_step (a := .call (.user 1) .close) hl (by rintro _ _ ⟨⟩)
      trivial h)
  · refine .inr ⟨TcpConnection.invoked_mem h hx, .inr ⟨rfl, ?_⟩⟩
    obtain ⟨pc, hu, ho, rfl⟩ := TcpConnection.step_call_user h
    cases ho
    simp [World.setUser]

theorem past_closed {w u : World} {id : Nat} {todo : Finset Nat} (k : Serving w)
    (hdis : Disconnects w) (hs : w.users 1 = [.close] → w.conn.state ≠ .kDisconnecting)
    (hp : (Closer.visiting id todo).Past w id)
    (h : TcpConnection.step w (.user 1) = some u) : (Closer.visiting id todo).Past u id := by
  obtain ⟨hent, hw⟩ := hp
  refine ⟨TcpConnection.entered_step k hent h, ?_⟩
  rcases hw with hl | ⟨hx, hm | ⟨-, hu⟩⟩
  · exact .inl (TcpConnection.leaving_step (a := .user 1) hl (by rintro _ _ ⟨⟩) trivial h)
  · exact .inr ⟨TcpConnection.invoked_mem h hx, .inl hm⟩
  · exact .inl (close_leaves k hx hdis (hs hu) hu h)

theorem past_next {w : World} {id i : Nat} {todo : Finset Nat} (hu : id = i → w.users 1 = [])
    (hp : (Closer.visiting i todo).Past w id) : (Closer.walking todo).Past w id := by
  obtain ⟨hent, hw⟩ := hp
  refine ⟨hent, ?_⟩
  rcases hw with hl | ⟨hx, hm | ⟨he, hcall⟩⟩
  · exact .inl hl
  · exact .inr ⟨hx, hm⟩
  · rw [hu he] at hcall
    cases hcall

theorem past_cleared {w : World} {id : Nat} (hp : (Closer.walking ∅).Past w id) :
    Closer.done.Past w id := by
  obtain ⟨hent, hw⟩ := hp
  rcases hw with hl | ⟨-, hm⟩
  · exact ⟨hent, hl⟩
  · exact absurd hm (Finset.notMem_empty id)

theorem past_locked {id : Nat} (k : Tracks s) (hr : Reached s) (hc : s.closer = .latched)
    (hid : id < s.accepted) : (Closer.walking s.conns).Past (s.world id) id := by
  have hent := hr id hid
  refine ⟨hent, ?_⟩
  by_cases hx : .onClose ∈ (s.world id).conn.invoked
  · left
    intro hreg
    rw [(TcpConnection.closed_apart (k.serving id hid) hx).2] at hreg
    cases hreg
  · have hm := hent.1.resolve_right hx
    exact .inr ⟨hm, (k.members (by simp [hc]) id hid).mpr ⟨⟨hm, hent.2⟩, fun h => absurd h hx⟩⟩

theorem conn_conns {id : Nat} {b : TcpConnection.Action} (h : step s (.conn id b) = some t)
    (hent : ∀ i < s.accepted, Entered (s.world i)) (hs : s.conns = ∅) : t.conns = ∅ := by
  obtain ⟨hid, -, w, conns, -, hc, rfl⟩ := step_conn h
  rcases channel_handler_cases hc with ⟨env, rest, -, hl, -⟩ | ⟨env, rest, -, -, -, rfl⟩ | ⟨rfl, -⟩
  · exact absurd (by rw [hl]; exact List.mem_cons_self) (hent id hid).2
  · simp [hs]
  · exact hs

theorem stopped_conn {id : Nat} {b : TcpConnection.Action} (h : step s (.conn id b) = some t)
    (hs : s.closer.Stopped s) (hp : ∀ i < s.accepted, s.closer.Past (s.world i) i) :
    t.closer.Stopped t := by
  have hsame : t.closer = s.closer ∧ t.listening = s.listening := by
    obtain ⟨-, -, w, conns, -, -, rfl⟩ := step_conn h
    exact ⟨rfl, rfl⟩
  rw [hsame.1]
  cases hc : s.closer with
  | idle | removing => trivial
  | latched | walking todo | visiting i todo =>
    rw [hc] at hs
    exact hsame.2.trans hs
  | done =>
    rw [hc] at hs hp
    exact ⟨hsame.2.trans hs.1, conn_conns h (fun i hi => (hp i hi).1) hs.2⟩

theorem covered_starts {a : Action} (ha : Covered s a) : InTime s a := by
  cases a with
  | conn i b => exact ha.1
  | _ => trivial

theorem disconnects_moves {a : Action} {id : Nat} {b : TcpConnection.Action} {w : World}
    (k : ClosesOnly (s.world id)) (hdis : Disconnects (s.world id)) (ha : Covered s a)
    (hm : Moves s a id b) (hw : TcpConnection.step (s.world id) b = some w) : Disconnects w := by
  refine TcpConnection.disconnecting_step (moves_in_time (covered_starts ha) k hm) hdis ?_ hw
  rcases hm with rfl | ⟨-, rfl⟩ | ⟨-, rfl⟩
  · exact ha.2
  · trivial
  · trivial

theorem disconnects_step {a : Action} (k : Walks s) (ha : Covered s a) (h : step s a = some t) :
    ∀ id < t.accepted, Disconnects (t.world id) := by
  refine worlds_step k.disconnects (fun id hid b w hm hw => ?_) (fun inline w hw => ?_) h
  · exact disconnects_moves (k.tracks.closesOnly id hid) (k.disconnects id hid) ha hm hw
  · intro hx
    rw [(boss_call_run hw).2.2.1] at hx
    cases hx

theorem walks_step {a : Action} (k : Walks s) (ha : Covered s a) (h : step s a = some t) :
    Walks t := by
  have htracks := tracks_step k.tracks (covered_starts ha) h
  have hdis := disconnects_step k ha h
  have hstopped := k.stopped
  have hpast := k.past
  cases a with
  | listen =>
    obtain ⟨hc, rfl⟩ := step_listen h
    refine ⟨htracks, hdis, ?_, hpast⟩
    rcases hc with hc | hc
    · simp [hc, Closer.Stopped]
    · simp [hc, Closer.Stopped]
  | accept inline =>
    obtain ⟨hl, w, hw, rfl⟩ := step_accept h
    have hc : s.closer = .idle ∨ s.closer = .removing := by
      cases hcl : s.closer <;> simp_all [Closer.Stopped]
    refine ⟨htracks, hdis, ?_, fun id _ => ?_⟩
    · rcases hc with hc | hc <;> simp [setWorld, hc, Closer.Stopped]
    · rcases hc with hc | hc <;> simp [setWorld, hc, Closer.Past]
  | acceptReturn =>
    cases step_accept_return h
    exact ⟨htracks, hdis, hstopped, hpast⟩
  | conn i b =>
    obtain ⟨hid, hb, w, conns, hw, -, rfl⟩ := step_conn h
    refine ⟨htracks, hdis, stopped_conn h hstopped hpast, fun id hid =>
      set_world_cases (P := fun v => s.closer.Past v id) ?_ fun _ => hpast id hid⟩
    rintro rfl
    exact past_step (k.tracks.serving id hid) ha.1 ha.2 hb (hpast id hid) hw
  | close =>
    obtain ⟨hc, rfl⟩ := step_close h
    exact ⟨htracks, hdis, trivial, fun _ _ => trivial⟩
  | removeAcceptor =>
    obtain ⟨hc, rfl⟩ := step_remove_acceptor h
    exact ⟨htracks, hdis, rfl, fun _ _ => trivial⟩
  | lock =>
    obtain ⟨hc, rfl⟩ := step_lock h
    rw [hc] at hstopped
    exact ⟨htracks, hdis, hstopped, fun id hid => past_locked (s := s) k.tracks ha hc hid⟩
  | visit i =>
    obtain ⟨todo, w, hc, hi, hw, rfl⟩ := step_visit h
    rw [hc] at hstopped hpast
    refine ⟨htracks, hdis, hstopped, fun id hid => set_world_cases
      (P := fun v => (Closer.visiting i (todo.erase i)).Past v id) ?_ (past_visit (hpast id hid))⟩
    rintro rfl
    exact past_called (k.tracks.serving id hid) (hpast id hid) hw
  | closeConn =>
    obtain ⟨i, todo, w, hc, hw, rfl⟩ := step_close_conn h
    refine ⟨htracks, hdis, ?_, fun id hid =>
      set_world_cases (P := fun v => s.closer.Past v id) ?_ fun _ => hpast id hid⟩
    · change s.closer.Stopped (s.setWorld i w)
      rw [hc] at hstopped ⊢
      exact hstopped
    · rintro rfl
      have hp := hpast id hid
      have hf : Found s := ha
      rw [Found, hc] at hf
      rw [hc] at hp ⊢
      exact past_closed (k.tracks.serving id hid) (k.disconnects id hid) hf hp hw
  | next =>
    obtain ⟨i, todo, hc, hu, rfl⟩ := step_next h
    rw [hc] at hstopped hpast
    exact ⟨htracks, hdis, hstopped, fun id hid => past_next (fun he => he ▸ hu) (hpast id hid)⟩
  | clear =>
    obtain ⟨hc, rfl⟩ := step_clear h
    rw [hc] at hstopped hpast
    exact ⟨htracks, hdis, ⟨hstopped, rfl⟩, fun id hid => past_cleared (hpast id hid)⟩

theorem walks_init : Walks init :=
  ⟨tracks_init, fun _ h => absurd h (Nat.not_lt_zero _), trivial, fun _ _ => trivial⟩

theorem closed_of_walks (k : Walks s) : Closed s := by
  intro hc hidle
  have hstopped := k.stopped
  have hpast := k.past
  rw [hc] at hstopped hpast
  refine ⟨hstopped.2, fun id hid => ?_⟩
  rw [← Bool.not_eq_true]
  exact fun hr => TcpConnection.not_pending (hidle id hid) ((hpast id hid).2 hr)

end TcpServer
end Pedronet
