import Pedronet.TcpServer.Connections

namespace Pedronet
namespace SharedServer

inductive Thread where
  | user (id : Nat)
  | loop (id : Nat)
deriving DecidableEq, Repr

inductive ClosePc where
  | removing
  | latched
  | walking (todo : Finset Nat)
  | visiting (conn frames : Nat) (todo : Finset Nat)
deriving DecidableEq

def ClosePc.locked : ClosePc → Bool
  | .walking _ | .visiting _ _ _ => true
  | .removing | .latched => false

-- The number of a thread in Close among the users of a connection; the boss's accept callback is 0.
def Thread.index : Thread → Nat
  | .user id => 2 * id + 1
  | .loop id => 2 * id + 2

end SharedServer

open SharedServer

-- The server with the owner of mu_ and the calls of Close in progress, at most one a thread: a thread
-- inside Close that is called again holds mu_. The closer of `server` itself stays idle. A connection
-- outlives its last shared_ptr here; that ends its steps in the source (TcpServer.Owners).
structure SharedServer where
  server : TcpServer
  mu : Option Thread
  closing : Thread → Option ClosePc

namespace SharedServer
open TcpConnection (World Instr Calls Executes)

inductive Action where
  | listen
  | accept
  | acceptReturn
  | conn (id : Nat) (action : TcpConnection.Action)
  | close (thread : Thread)
  | removeAcceptor (thread : Thread)
  | lock (thread : Thread)
  | visit (thread : Thread) (id : Nat)
  | next (thread : Thread)
  | clear (thread : Thread)
deriving DecidableEq, Repr

def init : SharedServer := ⟨.init, none, fun _ => none⟩

def setClosing (s : SharedServer) (thread : Thread) (pc : Option ClosePc) : SharedServer :=
  { s with closing := fun i => if i = thread then pc else s.closing i }

def resting (w : World) : Bool :=
  match w.loop with
  | [] | .handler _ :: _ => true
  | _ => false

section
variable (loopOf : Nat → Nat) (s : SharedServer)

-- The thread of a loop is in a handler or a task of the user, or in the selector.
def Calm (loop : Nat) : Prop :=
  ∀ id < s.server.accepted, loopOf id = loop → resting (s.server.world id) = true

def Vacant (loop : Nat) : Prop :=
  s.closing (.loop loop) = none ∧
    ∀ id < s.server.accepted, loopOf id = loop → (s.server.world id).loop = []

-- A loop whose thread is in Close goes on only with what Close has called on that loop.
def GoesOn (id : Nat) : Prop :=
  match s.closing (.loop (loopOf id)) with
  | none => True
  | some (.visiting conn frames _) =>
    conn = id ∧ max frames 1 < (s.server.world id).loop.length
  | some _ => False

def Allowed (id : Nat) : TcpConnection.Action → Prop
  | .call (.user _) _ | .user _ => True
  | .exec _ => GoesOn loopOf s id
  | .call .loop _ | .ret => GoesOn loopOf s id ∧ Calm loopOf s (loopOf id)
  | .enter => s.closing (.loop (loopOf id)) = none ∧ Calm loopOf s (loopOf id)
  | .task _ | .events _ => Vacant loopOf s (loopOf id)

instance (loop : Nat) : Decidable (Calm loopOf s loop) :=
  inferInstanceAs (Decidable (∀ _ < _, _ → _))

instance (loop : Nat) : Decidable (Vacant loopOf s loop) :=
  inferInstanceAs (Decidable (_ ∧ _))

instance (id : Nat) : Decidable (GoesOn loopOf s id) := by
  unfold GoesOn
  split <;> infer_instance

instance (id : Nat) : DecidablePred (Allowed loopOf s id)
  | .call (.user _) _ | .user _ => isTrue trivial
  | .exec _ => inferInstanceAs (Decidable (GoesOn _ _ _))
  | .call .loop _ | .ret | .enter => inferInstanceAs (Decidable (_ ∧ _))
  | .task _ | .events _ => inferInstanceAs (Decidable (Vacant _ _ _))

-- The call of Close is made in a handler or a task of the user.
def Free : Thread → Prop
  | .loop loop => s.closing (.loop loop) = none ∧ Calm loopOf s loop
  | .user id => s.closing (.user id) = none

instance : DecidablePred (Free loopOf s)
  | .loop _ => inferInstanceAs (Decidable (_ ∧ _))
  | .user _ => inferInstanceAs (Decidable (_ = _))

-- OnConnect and OnClose lock mu_ after the user's handler.
def locks (id : Nat) : TcpConnection.Action → Bool
  | .exec _ =>
    match (s.server.world id).loop with
    | .setReadable :: _ | .afterClose :: _ => true
    | _ => false
  | _ => false

-- EventLoop::Run runs conn->Close()'s task at once on the connection's own loop.
def callClose (thread : Thread) (id : Nat) : Option World :=
  if thread = .loop (loopOf id) then
    (if (s.server.world id).loop = [] then TcpConnection.step (s.server.world id) .enter
    else some (s.server.world id)).bind fun w => TcpConnection.step w (.call .loop .close)
  else TcpConnection.step (s.server.world id) (.call (.user thread.index) .close)

def closeReturn (thread : Thread) (id frames : Nat) : Option World :=
  if thread = .loop (loopOf id) then
    if (s.server.world id).loop.length = max frames 1 then
      if frames = 0 then TcpConnection.step (s.server.world id) .ret else some (s.server.world id)
    else none
  else if (s.server.world id).users thread.index = [] then some (s.server.world id) else none

def step : Action → Option SharedServer
  | .listen => (s.server.step .listen).map fun v => { s with server := v }
  | .accept =>
    if Vacant loopOf s 0 then
      (s.server.step (.accept (loopOf s.server.accepted == 0))).map fun v => { s with server := v }
    else none
  | .acceptReturn => (s.server.step .acceptReturn).map fun v => { s with server := v }
  | .conn id a =>
    if id < s.server.accepted ∧ Allowed loopOf s id a ∧ (locks s id a = true → s.mu = none) then
      (s.server.connStep id a).map fun v => { s with server := v }
    else none
  | .close thread =>
    if Free loopOf s thread then some (s.setClosing thread (some .removing)) else none
  | .removeAcceptor thread =>
    if s.closing thread = some .removing ∧ s.server.listening = true ∧
        (s.server.boss = none ∨ thread = .loop 0) then
      some ({ s with server := { s.server with listening := false } }.setClosing thread
        (some .latched))
    else none
  | .lock thread =>
    if s.closing thread = some .latched ∧ s.mu = none then
      some ({ s with mu := some thread }.setClosing thread (some (.walking s.server.conns)))
    else none
  | .visit thread id =>
    match s.closing thread with
    | some (.walking todo) =>
      if id ∈ todo then
        (callClose loopOf s thread id).map fun w =>
          { s with server := s.server.setWorld id w }.setClosing thread
            (some (.visiting id (s.server.world id).loop.length (todo.erase id)))
      else none
    | _ => none
  | .next thread =>
    match s.closing thread with
    | some (.visiting id frames todo) =>
      (closeReturn loopOf s thread id frames).map fun w =>
        { s with server := s.server.setWorld id w }.setClosing thread (some (.walking todo))
    | _ => none
  | .clear thread =>
    if s.closing thread = some (.walking ∅) then
      some ({ s with mu := none, server := { s.server with conns := ∅ } }.setClosing thread none)
    else none

def system : Transition.System SharedServer Action where
  start s := s = init
  step := step loopOf

def Attempts (thread : Thread) : Prop :=
  s.closing thread = some .latched ∨
    ∃ id < s.server.accepted, thread = .loop (loopOf id) ∧ TcpServer.Dereferences (s.server.world id)

def SelfLocked : Prop := ∃ thread, s.mu = some thread ∧ Attempts loopOf s thread

end

variable {loopOf : Nat → Nat} {s t : SharedServer} {thread : Thread}

theorem step_listen (h : step loopOf s .listen = some t) :
    ∃ v, s.server.step .listen = some v ∧ t = { s with server := v } := by
  obtain ⟨v, hv, rfl⟩ := Option.map_eq_some_iff.mp h
  exact ⟨v, hv, rfl⟩

theorem step_accept (h : step loopOf s .accept = some t) :
    Vacant loopOf s 0 ∧ ∃ v, s.server.step (.accept (loopOf s.server.accepted == 0)) = some v ∧
      t = { s with server := v } := by
  simp only [step] at h
  split at h
  · rename_i hv
    obtain ⟨v, hstep, rfl⟩ := Option.map_eq_some_iff.mp h
    exact ⟨hv, v, hstep, rfl⟩
  · cases h

theorem step_accept_return (h : step loopOf s .acceptReturn = some t) :
    ∃ v, s.server.step .acceptReturn = some v ∧ t = { s with server := v } := by
  obtain ⟨v, hv, rfl⟩ := Option.map_eq_some_iff.mp h
  exact ⟨v, hv, rfl⟩

theorem step_conn {id : Nat} {a : TcpConnection.Action}
    (h : step loopOf s (.conn id a) = some t) :
    Allowed loopOf s id a ∧ ∃ w conns, TcpConnection.step (s.server.world id) a = some w ∧
      t = { s with server := { s.server.setWorld id w with conns := conns } } := by
  simp only [step] at h
  split at h
  · rename_i hc
    obtain ⟨v, hv, rfl⟩ := Option.map_eq_some_iff.mp h
    obtain ⟨w, hw, hv⟩ := Option.bind_eq_some_iff.mp hv
    obtain ⟨conns, -, rfl⟩ := Option.map_eq_some_iff.mp hv
    exact ⟨hc.2.1, w, conns, hw, rfl⟩
  · cases h

theorem step_close (h : step loopOf s (.close thread) = some t) :
    Free loopOf s thread ∧ t = s.setClosing thread (some .removing) := by
  simp only [step] at h
  split at h
  · rename_i hc
    exact ⟨hc, by simpa using h.symm⟩
  · cases h

theorem step_remove_acceptor (h : step loopOf s (.removeAcceptor thread) = some t) :
    s.closing thread = some .removing ∧
      t = { s with server := { s.server with listening := false } }.setClosing thread
        (some .latched) := by
  simp only [step] at h
  split at h
  · rename_i hc
    exact ⟨hc.1, by simpa using h.symm⟩
  · cases h

theorem step_lock (h : step loopOf s (.lock thread) = some t) :
    s.closing thread = some .latched ∧ s.mu = none ∧
      t = { s with mu := some thread }.setClosing thread (some (.walking s.server.conns)) := by
  simp only [step] at h
  split at h
  · rename_i hc
    exact ⟨hc.1, hc.2, by simpa using h.symm⟩
  · cases h

theorem step_visit {id : Nat} (h : step loopOf s (.visit thread id) = some t) :
    ∃ todo w, s.closing thread = some (.walking todo) ∧ callClose loopOf s thread id = some w ∧
      t = { s with server := s.server.setWorld id w }.setClosing thread
        (some (.visiting id (s.server.world id).loop.length (todo.erase id))) := by
  simp only [step] at h
  split at h
  · rename_i todo hc
    split at h
    · obtain ⟨w, hw, rfl⟩ := Option.map_eq_some_iff.mp h
      exact ⟨todo, w, hc, hw, rfl⟩
    · cases h
  · cases h

theorem step_next (h : step loopOf s (.next thread) = some t) :
    ∃ id frames todo w, s.closing thread = some (.visiting id frames todo) ∧
      closeReturn loopOf s thread id frames = some w ∧
        t = { s with server := s.server.setWorld id w }.setClosing thread
          (some (.walking todo)) := by
  simp only [step] at h
  split at h
  · rename_i id frames todo hc
    obtain ⟨w, hw, rfl⟩ := Option.map_eq_some_iff.mp h
    exact ⟨id, frames, todo, w, hc, hw, rfl⟩
  · cases h

theorem step_clear (h : step loopOf s (.clear thread) = some t) :
    s.closing thread = some (.walking ∅) ∧
      t = { s with mu := none, server := { s.server with conns := ∅ } }.setClosing thread none := by
  simp only [step] at h
  split at h
  · rename_i hc
    exact ⟨hc, by simpa using h.symm⟩
  · cases h

theorem closer_step {a : Action} (h : step loopOf s a = some t) :
    t.server.closer = s.server.closer := by
  cases a with
  | listen =>
    obtain ⟨v, hv, rfl⟩ := step_listen h
    obtain ⟨-, rfl⟩ := TcpServer.step_listen hv
    rfl
  | accept =>
    obtain ⟨-, v, hv, rfl⟩ := step_accept h
    obtain ⟨-, w, -, rfl⟩ := TcpServer.step_accept hv
    rfl
  | acceptReturn =>
    obtain ⟨v, hv, rfl⟩ := step_accept_return h
    cases TcpServer.step_accept_return hv
    rfl
  | conn id b =>
    obtain ⟨-, w, conns, -, rfl⟩ := step_conn h
    rfl
  | close thread =>
    obtain ⟨-, rfl⟩ := step_close h
    rfl
  | removeAcceptor thread =>
    obtain ⟨-, rfl⟩ := step_remove_acceptor h
    rfl
  | lock thread =>
    obtain ⟨-, -, rfl⟩ := step_lock h
    rfl
  | visit thread id =>
    obtain ⟨todo, w, -, -, rfl⟩ := step_visit h
    rfl
  | next thread =>
    obtain ⟨id, frames, todo, w, -, -, rfl⟩ := step_next h
    rfl
  | clear thread =>
    obtain ⟨-, rfl⟩ := step_clear h
    rfl

theorem closer_idle (as : List Action) :
    (system loopOf).Always (fun s => s.server.closer = .idle) init as :=
  Transition.System.always_of_along (M := system loopOf) (G := fun _ _ => True)
    (fun _ _ _ k _ h => (closer_step h).trans k) (fun _ k => k) rfl Transition.System.along_true

inductive Sparing (c : TcpConnection) : Instr → Prop where
  | test : Sparing c (.call .close)
  | run (h : c.output ≠ [] ∨ c.channel.registered = false) : Sparing c (.call (.run .close))
  | task (h : c.output ≠ [] ∨ c.channel.registered = false) : Sparing c (.task .loop .close)
  | remove (h : c.channel.registered = false) : Sparing c .remove

def Within (frames : Nat) (w : World) : Prop :=
  (resting w = true ∧ w.loop.length ≤ frames) ∨ ∃ i handler rest,
    w.loop = i :: .handler handler :: rest ∧ rest.length + 1 = frames ∧ Sparing w.conn i

def ClosePc.Keeps (pc : ClosePc) (id : Nat) (w : World) : Prop :=
  match pc with
  | .visiting conn frames _ => if id = conn then Within (max frames 1) w else resting w = true
  | _ => resting w = true

structure Orderly (loopOf : Nat → Nat) (s : SharedServer) : Prop where
  holds : ∀ thread pc, s.closing thread = some pc → pc.locked = true → s.mu = some thread
  held : ∀ thread, s.mu = some thread → ∃ pc, s.closing thread = some pc ∧ pc.locked = true
  keeps : ∀ loop pc, s.closing (.loop loop) = some pc → ∀ id < s.server.accepted,
    loopOf id = loop → pc.Keeps id (s.server.world id)

-- No thread in the walk of Close calls it on a connection of its own loop that can be removed at once.
def Spares (loopOf : Nat → Nat) (s : SharedServer) : Action → Prop
  | .conn id (.exec _) => (s.server.world id).loop.head? = some (.call .close) →
    s.mu = some (.loop (loopOf id)) →
      ¬ ((s.server.world id).conn.state = .kConnected ∧ (s.server.world id).conn.output = [] ∧
        (s.server.world id).conn.channel.registered = true)
  | _ => True

instance (loopOf : Nat → Nat) (s : SharedServer) : DecidablePred (Spares loopOf s)
  | .conn _ (.exec _) => inferInstanceAs (Decidable (_ → _ → _))
  | .conn _ (.call _ _) | .conn _ (.user _) | .conn _ .ret | .conn _ .enter => isTrue trivial
  | .conn _ (.task _) | .conn _ (.events _) => isTrue trivial
  | .listen | .accept | .acceptReturn | .close _ | .removeAcceptor _ | .lock _ => isTrue trivial
  | .visit _ _ | .next _ | .clear _ => isTrue trivial

variable {w u : World} {frames : Nat}

theorem sparing_executes {c d : TcpConnection} {i : Instr} {push : List Instr}
    (hi : Sparing c i) (h : Executes c i d push) (hspare : i = .call .close →
      ¬ (c.state = .kConnected ∧ c.output = [] ∧ c.channel.registered = true)) :
    push = [] ∨ ∃ j, push = [j] ∧ Sparing d j := by
  cases hi with
  | test =>
    cases h with
    | call h =>
      cases h with
      | close hs =>
        refine .inr ⟨_, rfl, .run ?_⟩
        by_cases ho : c.output = []
        · exact .inr (Bool.eq_false_iff.mpr fun hr => hspare rfl ⟨hs, ho, hr⟩)
        · exact .inl ho
      | closeLost => exact .inl rfl
  | run ho =>
    cases h with
    | run => exact .inr ⟨_, rfl, .task ho⟩
    | call h => cases h
  | task ho =>
    cases h with
    | closeTask _ he => exact .inr ⟨_, rfl, .remove (ho.resolve_left fun hn => hn he)⟩
    | closeLater => exact .inl rfl
  | remove hr =>
    cases h with
    | remove h =>
      rw [hr] at h
      cases h
    | removed => exact .inl rfl

theorem within_exec {env : TcpConnection.Env} (k : Within frames w) (hlen : frames < w.loop.length)
    (hspare : w.loop.head? = some (.call .close) →
      ¬ (w.conn.state = .kConnected ∧ w.conn.output = [] ∧ w.conn.channel.registered = true))
    (h : TcpConnection.step w (.exec env) = some u) : Within frames u := by
  rcases k with ⟨-, hle⟩ | ⟨i, handler, rest, hl, hf, hi⟩
  · omega
  · obtain ⟨i', rest', c, push, hl', he, rfl⟩ := TcpConnection.step_executes h
    rw [hl] at hl'
    cases hl'
    rcases sparing_executes hi he fun hc => hspare (by rw [hl, hc]; rfl) with rfl | ⟨j, rfl, hj⟩
    · exact .inl ⟨rfl, Nat.le_of_eq hf⟩
    · exact .inr ⟨j, handler, rest, rfl, hf, hj⟩

theorem within_no_handler (k : Within frames w) (hlen : frames < w.loop.length)
    {handler : TcpConnection.Handler} {rest : List Instr} : w.loop ≠ .handler handler :: rest := by
  intro hl
  rcases k with ⟨-, hle⟩ | ⟨i, _, _, hl', -, hi⟩
  · omega
  · rw [hl] at hl'
    cases hl'
    cases hi

theorem keeps_same {pc : ClosePc} {id : Nat} (k : pc.Keeps id w) (hl : u.loop = w.loop)
    (ho : u.conn.output = w.conn.output) (hc : u.conn.channel = w.conn.channel) :
    pc.Keeps id u := by
  have hrest : resting u = resting w := by simp only [resting, hl]
  have hspare (i : Instr) (hi : Sparing w.conn i) : Sparing u.conn i := by
    cases hi with
    | test => exact .test
    | run h => exact .run (by rwa [ho, hc])
    | task h => exact .task (by rwa [ho, hc])
    | remove h => exact .remove (by rwa [hc])
  cases pc with
  | visiting conn frames todo =>
    simp only [ClosePc.Keeps, Within, hrest, hl] at k ⊢
    split
    · rename_i he
      rw [if_pos he] at k
      refine k.imp_right ?_
      rintro ⟨i, handler, rest, hw, hf, hi⟩
      exact ⟨i, handler, rest, hw, hf, hspare i hi⟩
    · rename_i he
      rwa [if_neg he] at k
  | removing | latched | walking => exact hrest.trans k

theorem keeps_empty (pc : ClosePc) (id : Nat) (hl : w.loop = []) : pc.Keeps id w := by
  have hrest : resting w = true := by simp [resting, hl]
  cases pc with
  | visiting conn frames todo =>
    simp only [ClosePc.Keeps]
    split
    · exact .inl ⟨hrest, by simp [hl]⟩
    · exact hrest
  | removing | latched | walking => exact hrest

theorem calls_same {c d : TcpConnection} {pc : TcpConnection.CallPc}
    {pcs : List TcpConnection.CallPc} (h : Calls c pc d pcs) :
    d.output = c.output ∧ d.channel = c.channel := by
  cases h <;> exact ⟨rfl, rfl⟩

theorem user_same {id : Nat} (h : TcpConnection.step w (.user id) = some u) :
    u.loop = w.loop ∧ u.conn.output = w.conn.output ∧ u.conn.channel = w.conn.channel := by
  rcases TcpConnection.step_calls h with ⟨job, rest, -, rfl⟩ | ⟨pc, rest, c, pcs, -, hc, rfl⟩
  · exact ⟨rfl, rfl, rfl⟩
  · exact ⟨rfl, calls_same hc⟩

theorem user_call_same {id : Nat} {op : TcpConnection.Op}
    (h : TcpConnection.step w (.call (.user id) op) = some u) :
    u.loop = w.loop ∧ u.conn.output = w.conn.output ∧ u.conn.channel = w.conn.channel := by
  obtain ⟨pc, -, -, rfl⟩ := TcpConnection.step_call_user h
  exact ⟨rfl, rfl, rfl⟩

theorem keeps_step {id : Nat} {b : TcpConnection.Action} {pc : ClosePc} (k : Orderly loopOf s)
    (hid : id < s.server.accepted) (hpc : s.closing (.loop (loopOf id)) = some pc)
    (ha : Spares loopOf s (.conn id b)) (hb : Allowed loopOf s id b)
    (h : TcpConnection.step (s.server.world id) b = some u) : pc.Keeps id u := by
  have hk := k.keeps _ pc hpc id hid rfl
  have hgoes (hg : GoesOn loopOf s id) : ∃ frames todo, pc = .visiting id frames todo ∧
      max frames 1 < (s.server.world id).loop.length ∧ Within (max frames 1) (s.server.world id) := by
    simp only [GoesOn, hpc] at hg
    cases pc with
    | visiting conn frames todo =>
      obtain ⟨rfl, hlen⟩ := hg
      exact ⟨frames, todo, rfl, hlen, by simpa [ClosePc.Keeps] using hk⟩
    | removing | latched | walking => exact hg.elim
  cases b with
  | call thread op =>
    cases thread with
    | user n =>
      obtain ⟨hl, ho, hc⟩ := user_call_same h
      exact keeps_same hk hl ho hc
    | loop =>
      obtain ⟨frames, todo, rfl, hlen, hw⟩ := hgoes hb.1
      obtain ⟨handler, rest, hl, -⟩ := TcpConnection.step_call_loop h
      exact absurd hl (within_no_handler hw hlen)
  | user n =>
    obtain ⟨hl, ho, hc⟩ := user_same h
    exact keeps_same hk hl ho hc
  | exec env =>
    obtain ⟨frames, todo, rfl, hlen, hw⟩ := hgoes hb
    have hmu := k.holds _ _ hpc rfl
    simpa [ClosePc.Keeps] using within_exec hw hlen (fun hc => ha hc hmu) h
  | ret =>
    obtain ⟨frames, todo, rfl, hlen, hw⟩ := hgoes hb.1
    obtain ⟨handler, rest, hl, -⟩ := TcpConnection.step_ret h
    exact absurd hl (within_no_handler hw hlen)
  | enter =>
    rw [hb.1] at hpc
    cases hpc
  | task index =>
    rw [hb.1] at hpc
    cases hpc
  | events events =>
    rw [hb.1] at hpc
    cases hpc

theorem orderly_same (k : Orderly loopOf s) (hmu : t.mu = s.mu) (hc : t.closing = s.closing)
    (hkeeps : ∀ loop pc, s.closing (.loop loop) = some pc → ∀ id < t.server.accepted,
      loopOf id = loop → pc.Keeps id (t.server.world id)) : Orderly loopOf t where
  holds thread pc h := by
    rw [hmu]
    exact k.holds thread pc (hc ▸ h)
  held thread h := by
    rw [hc]
    exact k.held thread (hmu ▸ h)
  keeps loop pc h := hkeeps loop pc (hc ▸ h)

theorem orderly_accept (k : Orderly loopOf s) (h : step loopOf s .accept = some t) :
    Orderly loopOf t := by
  obtain ⟨hv, v, hstep, rfl⟩ := step_accept h
  obtain ⟨-, w, hw, rfl⟩ := TcpServer.step_accept hstep
  refine orderly_same k rfl rfl fun loop pc hpc id hid hloop =>
    TcpServer.set_world_cases (P := pc.Keeps id) ?_ fun he => ?_
  · rintro rfl
    have hne : ¬ loopOf s.server.accepted = 0 := by
      intro h0
      rw [← hloop, h0, hv.1] at hpc
      cases hpc
    simp only [hne, beq_eq_false_iff_ne.mpr, ne_eq, not_false_eq_true] at hw
    refine keeps_empty pc _ ?_
    cases hw
    rfl
  · have hlt : id < s.server.accepted := Nat.lt_of_le_of_ne (Nat.le_of_lt_succ hid) he
    exact k.keeps loop pc hpc id hlt hloop

theorem orderly_conn {id : Nat} {b : TcpConnection.Action} (k : Orderly loopOf s)
    (ha : Spares loopOf s (.conn id b)) (h : step loopOf s (.conn id b) = some t) :
    Orderly loopOf t := by
  obtain ⟨hb, w, conns, hw, rfl⟩ := step_conn h
  refine orderly_same k rfl rfl fun loop pc hpc i hi hloop =>
    TcpServer.set_world_cases (P := pc.Keeps i) ?_ fun _ => k.keeps loop pc hpc i hi hloop
  rintro rfl
  subst hloop
  exact keeps_step k hi hpc ha hb hw

theorem orderly_set (mu : Option Thread) (server : TcpServer) {pc : Option ClosePc}
    (k : Orderly loopOf s) (hlocked : ∀ p ∈ pc, p.locked = true → mu = some thread)
    (hmu : mu = some thread → ∃ p ∈ pc, p.locked = true)
    (hother : ∀ i, i ≠ thread → (mu = some i ↔ s.mu = some i))
    (hown : ∀ loop p, thread = .loop loop → p ∈ pc → ∀ id < server.accepted,
      loopOf id = loop → p.Keeps id (server.world id))
    (hrest : ∀ loop p, thread ≠ .loop loop → s.closing (.loop loop) = some p →
      ∀ id < server.accepted, loopOf id = loop → p.Keeps id (server.world id)) :
    Orderly loopOf ({ s with mu := mu, server := server }.setClosing thread pc) where
  holds i p h hp := by
    simp only [setClosing] at h
    split at h
    · rename_i he
      subst he
      exact hlocked p h hp
    · rename_i he
      exact (hother i he).mpr (k.holds i p h hp)
  held i h := by
    by_cases he : i = thread
    · subst he
      obtain ⟨p, hp, hl⟩ := hmu h
      exact ⟨p, by simpa [setClosing] using hp, hl⟩
    · obtain ⟨p, hp, hl⟩ := k.held i ((hother i he).mp h)
      exact ⟨p, by simpa [setClosing, he] using hp, hl⟩
  keeps loop p h id hid hloop := by
    simp only [setClosing] at h
    split at h
    · rename_i he
      exact hown loop p he.symm h id hid hloop
    · rename_i he
      exact hrest loop p (Ne.symm he) h id hid hloop

theorem not_holding (k : Orderly loopOf s) {pc : Option ClosePc} (hc : s.closing thread = pc)
    (hl : ∀ p ∈ pc, p.locked = false) : s.mu ≠ some thread := by
  intro h
  obtain ⟨p, hp, hlocked⟩ := k.held thread h
  rw [hl p (hc ▸ hp)] at hlocked
  cases hlocked

theorem orderly_close (k : Orderly loopOf s) (h : step loopOf s (.close thread) = some t) :
    Orderly loopOf t := by
  obtain ⟨hf, rfl⟩ := step_close h
  have hnone : s.closing thread = none := by
    cases thread with
    | user id => exact hf
    | loop loop => exact hf.1
  have hmu := not_holding k hnone (by simp)
  refine orderly_set s.mu s.server k ?_ (fun h => absurd h hmu)
    (fun _ _ => Iff.rfl) ?_ fun loop p _ => k.keeps loop p
  · rintro p hp hl
    cases hp
    cases hl
  · rintro loop p rfl hp id hid hloop
    cases hp
    exact hf.2 id hid hloop

theorem orderly_remove_acceptor (k : Orderly loopOf s)
    (h : step loopOf s (.removeAcceptor thread) = some t) : Orderly loopOf t := by
  obtain ⟨hc, rfl⟩ := step_remove_acceptor h
  have hmu := not_holding k hc (by simp [ClosePc.locked])
  refine orderly_set s.mu { s.server with listening := false } k ?_
    (fun h => absurd h hmu) (fun _ _ => Iff.rfl) ?_ fun loop p _ => k.keeps loop p
  · rintro p hp hl
    cases hp
    cases hl
  · rintro loop p rfl hp
    cases hp
    have hk := k.keeps loop _ hc
    exact hk

theorem orderly_lock (k : Orderly loopOf s) (h : step loopOf s (.lock thread) = some t) :
    Orderly loopOf t := by
  obtain ⟨hc, hmu, rfl⟩ := step_lock h
  refine orderly_set (some thread) s.server k (fun _ _ _ => rfl)
    (fun _ => ⟨_, rfl, rfl⟩) (fun i hi => ?_) ?_ fun loop p _ => k.keeps loop p
  · simp [hmu, hi.symm]
  · rintro loop p rfl hp
    cases hp
    have hk := k.keeps loop _ hc
    exact hk

theorem orderly_clear (k : Orderly loopOf s) (h : step loopOf s (.clear thread) = some t) :
    Orderly loopOf t := by
  obtain ⟨hc, rfl⟩ := step_clear h
  have hmu := k.holds thread _ hc rfl
  refine orderly_set none { s.server with conns := ∅ } k (fun _ hp => by cases hp)
    (fun h => by cases h) (fun i hi => ?_) (fun _ _ _ hp => by cases hp) fun loop p _ => k.keeps loop p
  simp [hmu, hi.symm]

theorem call_close_within {id : Nat}
    (h : callClose loopOf s (.loop (loopOf id)) id = some u) :
    Within (max (s.server.world id).loop.length 1) u := by
  rw [callClose, if_pos rfl] at h
  obtain ⟨w, hw, h⟩ := Option.bind_eq_some_iff.mp h
  obtain ⟨handler, rest, hl, rfl⟩ := TcpConnection.step_call_loop h
  refine .inr ⟨_, handler, rest, rfl, ?_, .test⟩
  split at hw
  · rename_i he
    obtain ⟨-, rfl⟩ := TcpConnection.step_enter hw
    cases hl
    simp [he]
  · cases hw
    simp [hl]

theorem call_close_same {id : Nat} (hne : thread ≠ .loop (loopOf id))
    (h : callClose loopOf s thread id = some u) :
    u.loop = (s.server.world id).loop ∧ u.conn.output = (s.server.world id).conn.output ∧
      u.conn.channel = (s.server.world id).conn.channel := by
  rw [callClose, if_neg hne] at h
  exact user_call_same h

theorem close_return_resting {id frames : Nat} (k : Within (max frames 1) (s.server.world id))
    (h : closeReturn loopOf s (.loop (loopOf id)) id frames = some u) : resting u = true := by
  rw [closeReturn, if_pos rfl] at h
  split at h
  · rename_i hlen
    split at h
    · rename_i hf
      obtain ⟨handler, rest, hl, rfl⟩ := TcpConnection.step_ret h
      have hnil : rest = [] := by simpa [hl, hf] using hlen
      simp [resting, hnil]
    · cases h
      rcases k with ⟨hr, -⟩ | ⟨i, handler, rest, hl, hf, -⟩
      · exact hr
      · rw [hl, List.length_cons, List.length_cons, hf] at hlen
        omega
  · cases h

theorem close_return_same {id frames : Nat} (hne : thread ≠ .loop (loopOf id))
    (h : closeReturn loopOf s thread id frames = some u) : u = s.server.world id := by
  rw [closeReturn, if_neg hne] at h
  split at h
  · cases h
    rfl
  · cases h

theorem orderly_walk {id : Nat} {pc next : ClosePc} (k : Orderly loopOf s)
    (hc : s.closing thread = some pc) (hl : pc.locked = true) (hnext : next.locked = true)
    (hpc : ∀ i, i ≠ id → pc.Keeps i (s.server.world i) → next.Keeps i (s.server.world i))
    (hown : thread = .loop (loopOf id) → pc.Keeps id (s.server.world id) → next.Keeps id w)
    (hother : thread ≠ .loop (loopOf id) → ∀ p : ClosePc, p.Keeps id (s.server.world id) →
      p.Keeps id w) :
    Orderly loopOf
      ({ s with server := s.server.setWorld id w }.setClosing thread (some next)) := by
  have hmu := k.holds thread pc hc hl
  refine orderly_set s.mu (s.server.setWorld id w) k (fun _ _ _ => hmu)
    (fun _ => ⟨next, rfl, hnext⟩) (fun _ _ => Iff.rfl) ?_ ?_
  · rintro loop p rfl hp i hi hloop
    cases hp
    have hk := k.keeps loop pc hc i hi hloop
    refine TcpServer.set_world_cases (P := next.Keeps i) ?_ fun he => hpc i he hk
    rintro rfl
    subst hloop
    exact hown rfl hk
  · intro loop p hne hp i hi hloop
    have hk := k.keeps loop p hp i hi hloop
    refine TcpServer.set_world_cases (P := p.Keeps i) ?_ fun _ => hk
    rintro rfl
    exact hother (by rwa [hloop]) p hk

theorem orderly_visit {id : Nat} (k : Orderly loopOf s)
    (h : step loopOf s (.visit thread id) = some t) : Orderly loopOf t := by
  obtain ⟨todo, w, hc, hw, rfl⟩ := step_visit h
  refine orderly_walk k hc rfl rfl (fun i he hk => ?_) ?_ (fun hne p hk => ?_)
  · simpa [ClosePc.Keeps, he] using hk
  · rintro rfl -
    simpa [ClosePc.Keeps] using call_close_within hw
  · obtain ⟨hl, ho, hch⟩ := call_close_same hne hw
    exact keeps_same hk hl ho hch

theorem orderly_next (k : Orderly loopOf s) (h : step loopOf s (.next thread) = some t) :
    Orderly loopOf t := by
  obtain ⟨id, frames, todo, w, hc, hw, rfl⟩ := step_next h
  refine orderly_walk k hc rfl rfl (fun i he hk => ?_) ?_ (fun hne p hk => ?_)
  · simpa [ClosePc.Keeps, he] using hk
  · rintro rfl hk
    simp only [ClosePc.Keeps, if_true] at hk
    exact close_return_resting hk hw
  · obtain rfl := close_return_same hne hw
    exact hk

theorem orderly_step {a : Action} (k : Orderly loopOf s) (ha : Spares loopOf s a)
    (h : step loopOf s a = some t) : Orderly loopOf t := by
  cases a with
  | listen =>
    obtain ⟨v, hv, rfl⟩ := step_listen h
    obtain ⟨-, rfl⟩ := TcpServer.step_listen hv
    exact orderly_same k rfl rfl k.keeps
  | accept => exact orderly_accept k h
  | acceptReturn =>
    obtain ⟨v, hv, rfl⟩ := step_accept_return h
    cases TcpServer.step_accept_return hv
    exact orderly_same k rfl rfl k.keeps
  | conn id b => exact orderly_conn k ha h
  | close thread => exact orderly_close k h
  | removeAcceptor thread => exact orderly_remove_acceptor k h
  | lock thread => exact orderly_lock k h
  | visit thread id => exact orderly_visit k h
  | next thread => exact orderly_next k h
  | clear thread => exact orderly_clear k h

theorem orderly_init : Orderly loopOf init where
  holds _ _ h := by cases h
  held _ h := by cases h
  keeps _ _ h := by cases h

theorem keeps_calm {pc : ClosePc} {id : Nat} (k : pc.Keeps id w) : ¬ TcpServer.Dereferences w := by
  have hrest (hr : resting w = true) : ¬ TcpServer.Dereferences w := by
    rintro (hl | hl) <;> obtain ⟨rest, hl⟩ := List.head?_eq_some_iff.mp hl <;>
      simp [resting, hl] at hr
  have hwithin (frames : Nat) (hk : Within frames w) : ¬ TcpServer.Dereferences w := by
    rcases hk with ⟨hr, -⟩ | ⟨i, handler, rest, hl, -, hi⟩
    · exact hrest hr
    · rintro (hd | hd) <;> rw [hl] at hd <;> cases hd <;> cases hi
  cases pc with
  | visiting conn frames todo =>
    simp only [ClosePc.Keeps] at k
    split at k
    · exact hwithin _ k
    · exact hrest k
  | removing | latched | walking => exact hrest k

theorem orderly_free (k : Orderly loopOf s) : ¬ SelfLocked loopOf s := by
  rintro ⟨thread, hmu, ha⟩
  obtain ⟨pc, hpc, hl⟩ := k.held thread hmu
  rcases ha with hc | ⟨id, hid, rfl, hd⟩
  · rw [hc] at hpc
    cases hpc
    cases hl
  · exact keeps_calm (k.keeps _ pc hpc id hid rfl) hd

theorem close_never_self_locks (loopOf : Nat → Nat) (as : List Action)
    (h : (system loopOf).Along (Spares loopOf) init as) :
    (system loopOf).Always (fun s => ¬ SelfLocked loopOf s) init as :=
  Transition.System.always_of_along (M := system loopOf) (fun _ _ _ k ha h => orderly_step k ha h)
    (fun _ => orderly_free) orderly_init h

-- Connection `id` is accepted for a worker loop and started; its first bytes are read.
def opened (id : Nat) : List Action :=
  [.accept, .conn id (.user 0), .conn id (.user 0), .acceptReturn, .conn id (.task 0),
    .conn id (.exec .none), .conn id (.exec .none), .conn id .ret, .conn id (.exec .none)]

def received (id : Nat) : List Action :=
  [.conn id (.events .kReadable), .conn id (.exec (.read .got))]

def closeIn (thread : Thread) : List Action :=
  [.close thread, .removeAcceptor thread, .lock thread]

-- In OnRead of connection 0 a write leaves a byte unsent; connection 1 is on another loop.
def closedUnsent : List Action :=
  ([.listen] : List Action) ++ opened 0 ++ opened 1 ++ received 0 ++
  ([.conn 0 (.call .loop (.send .view [1, 2])), .conn 0 (.exec .none), .conn 0 (.exec .none),
    .conn 0 (.exec (.write (.wrote 1))), .conn 0 (.exec .none)] : List Action) ++ closeIn (.loop 1) ++
  ([.visit (.loop 1) 0, .conn 0 (.exec .none), .conn 0 (.exec .none), .conn 0 (.exec .none),
    .next (.loop 1), .visit (.loop 1) 1, .conn 1 (.user 4), .conn 1 (.user 4), .next (.loop 1),
    .clear (.loop 1), .conn 0 .ret] : List Action)

theorem close_never_self_locks_unsent :
    ((system fun id => id + 1).run init closedUnsent).isSome = true ∧
      (system fun id => id + 1).Always (fun s => ¬ SelfLocked (fun id => id + 1) s) init
        closedUnsent :=
  ⟨rfl, close_never_self_locks (fun id => id + 1) closedUnsent (by decide)⟩

def closedInOnRead : List Action :=
  ([.listen] : List Action) ++ opened 0 ++ received 0 ++ closeIn (.loop 1) ++ ([.visit (.loop 1) 0] : List Action) ++
  List.replicate 5 (.conn 0 (.exec .none)) ++ ([.conn 0 .ret] : List Action)

theorem close_self_locks : ¬ ∀ loopOf as,
    (system loopOf).Always (fun s => ¬ SelfLocked loopOf s) init as := by
  intro h
  have hn := Transition.System.always_last (h (fun _ => 1) closedInOnRead) rfl
  exact hn ⟨.loop 1, rfl, .inr ⟨0, by decide, rfl, .inr rfl⟩⟩

end SharedServer
end Pedronet
