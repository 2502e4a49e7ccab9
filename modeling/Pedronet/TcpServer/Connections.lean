import Pedronet.TcpServer
import Pedronet.TcpConnection.Lifetime

namespace Pedronet
namespace TcpServer
open TcpConnection (Serving Present Layered World StartsInTime)

variable {s t : TcpServer}

def Dereferences (w : World) : Prop :=
  w.loop.head? = some .setReadable ∨ w.loop.head? = some .afterClose

def Handling (w : World) : Prop := .setReadable ∈ w.loop ∨ .afterClose ∈ w.loop

structure Exact (s : TcpServer) : Prop where
  dereferences : ∀ id < s.accepted, Dereferences (s.world id) → (s.world id).conn.context = true
  bounded : ∀ id ∈ s.conns, id < s.accepted
  members : ∀ id < s.accepted, ¬ Handling (s.world id) →
    (id ∈ s.conns ↔
      .onConnect ∈ (s.world id).conn.invoked ∧ .onClose ∉ (s.world id).conn.invoked)

def KeepsChannel (w : World) : TcpConnection.Action → Prop
  | .exec _ => w.loop.head? = some .remove → w.conn.channel.registered = true →
    .setReadable ∉ w.loop
  | _ => True

instance (w : World) : DecidablePred (KeepsChannel w)
  | .exec _ => inferInstanceAs (Decidable (_ → _ → _))
  | .call _ _ | .user _ | .ret | .enter | .task _ | .events _ => isTrue trivial

-- No Start but the accept callback's takes effect, and no connection is removed while its OnConnect
-- runs.
def Apart (s : TcpServer) : Action → Prop
  | .conn id a => StartsInTime (s.world id) a ∧ KeepsChannel (s.world id) a
  | _ => True

instance (s : TcpServer) : DecidablePred (Apart s)
  | .conn _ _ => inferInstanceAs (Decidable (_ ∧ _))
  | .listen | .accept _ | .acceptReturn | .close | .removeAcceptor | .lock => isTrue trivial
  | .visit _ | .closeConn | .next | .clear => isTrue trivial

def Moves (s : TcpServer) (a : Action) (id : Nat) (b : TcpConnection.Action) : Prop :=
  a = .conn id b ∨ (a = .visit id ∧ b = .call (.user 1) .close) ∨
    (a = .closeConn ∧ ∃ todo, s.closer = .visiting id todo) ∧ b = .user 1

theorem worlds_step {I : World → Prop} {a : Action} (hI : ∀ id < s.accepted, I (s.world id))
    (hmoves : ∀ id < s.accepted, ∀ b w, Moves s a id b →
      TcpConnection.step (s.world id) b = some w → I w)
    (hnew : ∀ inline w, TcpConnection.system.run .init (bossCall inline) = some w → I w)
    (h : step s a = some t) : ∀ id < t.accepted, I (t.world id) := by
  have hset {i : Nat} {b : TcpConnection.Action} {w : World} (hm : Moves s a i b)
      (hw : TcpConnection.step (s.world i) b = some w) (id : Nat) (hid : id < s.accepted) :
      I ((s.setWorld i w).world id) := by
    refine set_world_cases ?_ fun _ => hI id hid
    rintro rfl
    exact hmoves id hid b w hm hw
  cases a with
  | listen =>
    obtain ⟨-, rfl⟩ := step_listen h
    exact hI
  | accept inline =>
    obtain ⟨-, w, hw, rfl⟩ := step_accept h
    intro id hid
    refine set_world_cases (P := I) (fun _ => hnew inline w hw) fun hi => ?_
    exact hI id (Nat.lt_of_le_of_ne (Nat.le_of_lt_succ hid) hi)
  | acceptReturn =>
    rw [step_accept_return h]
    exact hI
  | conn i b =>
    obtain ⟨-, -, w, conns, hw, -, rfl⟩ := step_conn h
    exact hset (.inl rfl) hw
  | close =>
    obtain ⟨-, rfl⟩ := step_close h
    exact hI
  | removeAcceptor =>
    obtain ⟨-, rfl⟩ := step_remove_acceptor h
    exact hI
  | lock =>
    obtain ⟨-, rfl⟩ := step_lock h
    exact hI
  | visit i =>
    obtain ⟨todo, w, -, -, hw, rfl⟩ := step_visit h
    exact hset (.inr (.inl ⟨rfl, rfl⟩)) hw
  | closeConn =>
    obtain ⟨i, todo, w, hc, hw, rfl⟩ := step_close_conn h
    exact hset (.inr (.inr ⟨⟨rfl, todo, hc⟩, rfl⟩)) hw
  | next =>
    obtain ⟨i, todo, -, -, rfl⟩ := step_next h
    exact hI
  | clear =>
    obtain ⟨-, rfl⟩ := step_clear h
    exact hI

theorem channel_handler_cases {id : Nat} {b : TcpConnection.Action} {conns : Finset Nat}
    (h : s.channelHandler id b = some conns) :
    (∃ env rest, b = .exec env ∧ (s.world id).loop = .setReadable :: rest ∧
      s.closer.locked = false ∧ (s.world id).conn.context = true ∧ conns = insert id s.conns) ∨
    (∃ env rest, b = .exec env ∧ (s.world id).loop = .afterClose :: rest ∧
      s.closer.locked = false ∧ conns = s.conns.erase id) ∨
    (conns = s.conns ∧
      (∀ env rest, b = .exec env → (s.world id).loop ≠ .setReadable :: rest) ∧
      ∀ env rest, b = .exec env → (s.world id).loop ≠ .afterClose :: rest) := by
  unfold channelHandler at h
  split at h
  · rename_i env
    split at h
    · rename_i rest hl
      unfold onConnect at h
      split at h
      · rename_i hc
        cases h
        exact .inl ⟨env, rest, rfl, hl, hc.1, hc.2, rfl⟩
      · cases h
    · rename_i rest hl
      unfold onClose at h
      split at h
      · rename_i hc
        cases h
        exact .inr (.inl ⟨env, rest, rfl, hl, hc.1, rfl⟩)
      · cases h
    · rename_i hr hc
      cases h
      exact .inr (.inr ⟨rfl, fun _ rest _ => hr rest, fun _ rest _ => hc rest⟩)
  · rename_i hb
    cases h
    exact .inr (.inr ⟨rfl, fun env _ he => absurd he (hb env), fun env _ he => absurd he (hb env)⟩)

def ClosesOnly (w : World) : Prop := .start ∉ w.users 1

structure Tracks (s : TcpServer) : Prop where
  serving : ∀ id < s.accepted, Serving (s.world id)
  closesOnly : ∀ id < s.accepted, ClosesOnly (s.world id)
  bounded : ∀ id ∈ s.conns, id < s.accepted
  members : s.closer ≠ .done → ∀ id < s.accepted, (id ∈ s.conns ↔ Present (s.world id))

def InTime (s : TcpServer) : Action → Prop
  | .conn id a => StartsInTime (s.world id) a
  | _ => True

theorem boss_call_run {inline : Bool} {w : World}
    (h : TcpConnection.system.run .init (bossCall inline) = some w) :
    Serving w ∧ ClosesOnly w ∧ w.conn = TcpConnection.create ∧ .setReadable ∉ w.loop := by
  refine ⟨TcpConnection.serving_run ?_ h, ?_⟩
  · cases inline <;> decide
  · cases inline <;> cases h
    · exact ⟨by simp [ClosesOnly, World.setUser, World.record, World.init], rfl, by decide⟩
    · exact ⟨by simp [ClosesOnly, World.record, World.init], rfl, by decide⟩

theorem closes_only_moves {a : Action} {id : Nat} {b : TcpConnection.Action} {w : World}
    (k : ClosesOnly (s.world id)) (h : step s a = some t) (hm : Moves s a id b)
    (hw : TcpConnection.step (s.world id) b = some w) : ClosesOnly w := by
  intro hs
  rcases hm with rfl | ⟨-, rfl⟩ | ⟨-, rfl⟩
  · obtain ⟨-, hb, -⟩ := step_conn h
    rw [TcpConnection.step_users (fun op he => by rw [he] at hb; cases hb)
      (fun he => by rw [he] at hb; cases hb) hw] at hs
    exact k hs
  · obtain ⟨pc, -, ho, rfl⟩ := TcpConnection.step_call_user hw
    cases ho
    simp [World.setUser] at hs
  · rcases TcpConnection.step_calls hw with ⟨job, rest, hu, rfl⟩ | ⟨pc, rest, c, pcs, hu, hc, rfl⟩
    · simp only [World.setUser, if_true] at hs
      exact k (by rw [hu]; exact List.mem_cons_of_mem _ hs)
    · simp only [World.setUser, if_true] at hs
      rcases List.mem_append.mp hs with hs | hs
      · cases hc <;> simp at hs
      · exact k (by rw [hu]; exact List.mem_cons_of_mem _ hs)

theorem moves_in_time {a : Action} {id : Nat} {b : TcpConnection.Action} (ha : InTime s a)
    (k : ClosesOnly (s.world id)) (hm : Moves s a id b) : StartsInTime (s.world id) b := by
  rcases hm with rfl | ⟨-, rfl⟩ | ⟨-, rfl⟩
  · exact ha
  · trivial
  · intro pc hpc
    cases pc with
    | start => exact absurd (List.mem_of_mem_head? hpc) k
    | _ => trivial

theorem serving_moves {a : Action} {id : Nat} {b : TcpConnection.Action} {w : World}
    (k : Serving (s.world id)) (hc : ClosesOnly (s.world id)) (ha : InTime s a)
    (hm : Moves s a id b) (hw : TcpConnection.step (s.world id) b = some w) : Serving w :=
  TcpConnection.serving_step k (moves_in_time ha hc hm) hw

theorem tracks_conn {id : Nat} {b : TcpConnection.Action} (k : Tracks s)
    (h : step s (.conn id b) = some t) :
    (∀ i ∈ t.conns, i < t.accepted) ∧
      (t.closer ≠ .done → ∀ i < t.accepted, (i ∈ t.conns ↔ Present (t.world i))) := by
  obtain ⟨hid, -, w, conns, hw, hc, rfl⟩ := step_conn h
  have hserving := k.serving id hid
  rcases channel_handler_cases hc with ⟨env, rest, rfl, hl, -, hctx, rfl⟩ |
    ⟨env, rest, rfl, hl, -, rfl⟩ | ⟨rfl, hr, hcl⟩
  · refine ⟨fun i hi => ?_, fun hd i hi =>
      set_world_cases (P := fun v => i ∈ insert id s.conns ↔ Present v) ?_ fun he => ?_⟩
    · rcases Finset.mem_insert.mp hi with rfl | hi
      · exact hid
      · exact k.bounded i hi
    · rintro rfl
      exact iff_of_true (Finset.mem_insert_self _ _)
        (TcpConnection.present_entered hserving hctx hl hw)
    · rw [Finset.mem_insert, or_iff_right he]
      exact k.members hd i hi
  · refine ⟨fun i hi => k.bounded i (Finset.mem_of_mem_erase hi), fun hd i hi =>
      set_world_cases (P := fun v => i ∈ s.conns.erase id ↔ Present v) ?_ fun he => ?_⟩
    · rintro rfl
      exact iff_of_false (Finset.notMem_erase _ _) (TcpConnection.present_left hserving hl hw)
    · rw [Finset.mem_erase, and_iff_right he]
      exact k.members hd i hi
  · refine ⟨k.bounded, fun hd i hi =>
      set_world_cases (P := fun v => i ∈ s.conns ↔ Present v) ?_ fun _ => k.members hd i hi⟩
    rintro rfl
    rw [TcpConnection.present_step hserving hw hr hcl]
    exact k.members hd i hi

theorem tracks_call {id : Nat} {b : TcpConnection.Action} {w : World} (k : Tracks s)
    (hb : ∀ env, b ≠ .exec env) (hw : TcpConnection.step (s.world id) b = some w)
    (hd : s.closer ≠ .done) (i : Nat) (hi : i < s.accepted) :
    i ∈ s.conns ↔ Present ((s.setWorld id w).world i) := by
  refine set_world_cases (P := fun v => i ∈ s.conns ↔ Present v) ?_ fun _ => k.members hd i hi
  rintro rfl
  rw [TcpConnection.present_step (k.serving i hi) hw (fun env _ he => absurd he (hb env))
    fun env _ he => absurd he (hb env)]
  exact k.members hd i hi

theorem tracks_step {a : Action} (k : Tracks s) (ha : InTime s a) (h : step s a = some t) :
    Tracks t := by
  have hserving : ∀ id < t.accepted, Serving (t.world id) :=
    worlds_step k.serving
      (fun id hid _ _ hm hw => serving_moves (k.serving id hid) (k.closesOnly id hid) ha hm hw)
      (fun _ _ hw => (boss_call_run hw).1) h
  have hcloses : ∀ id < t.accepted, ClosesOnly (t.world id) :=
    worlds_step k.closesOnly (fun id hid _ _ hm hw => closes_only_moves (k.closesOnly id hid) h hm hw)
      (fun _ _ hw => (boss_call_run hw).2.1) h
  cases a with
  | listen =>
    obtain ⟨-, rfl⟩ := step_listen h
    exact ⟨hserving, hcloses, k.bounded, k.members⟩
  | accept inline =>
    obtain ⟨-, w, hw, rfl⟩ := step_accept h
    refine ⟨hserving, hcloses, fun i hi => Nat.lt_succ_of_lt (k.bounded i hi), fun hd i hi => ?_⟩
    refine set_world_cases (P := fun v => i ∈ s.conns ↔ Present v) ?_ fun he => ?_
    · rintro rfl
      refine iff_of_false (fun hm => Nat.lt_irrefl _ (k.bounded _ hm)) ?_
      rintro ⟨⟨hx, -⟩, -⟩
      rw [(boss_call_run hw).2.2.1] at hx
      cases hx
    · exact k.members hd i (Nat.lt_of_le_of_ne (Nat.le_of_lt_succ hi) he)
  | acceptReturn =>
    cases step_accept_return h
    exact ⟨hserving, hcloses, k.bounded, k.members⟩
  | conn id b =>
    obtain ⟨hbounded, hmembers⟩ := tracks_conn k h
    exact ⟨hserving, hcloses, hbounded, hmembers⟩
  | close =>
    obtain ⟨hc, rfl⟩ := step_close h
    exact ⟨hserving, hcloses, k.bounded, fun _ => k.members (by simp [hc])⟩
  | removeAcceptor =>
    obtain ⟨hc, rfl⟩ := step_remove_acceptor h
    exact ⟨hserving, hcloses, k.bounded, fun _ => k.members (by simp [hc])⟩
  | lock =>
    obtain ⟨hc, rfl⟩ := step_lock h
    exact ⟨hserving, hcloses, k.bounded, fun _ => k.members (by simp [hc])⟩
  | visit id =>
    obtain ⟨todo, w, hc, -, hw, rfl⟩ := step_visit h
    exact ⟨hserving, hcloses, k.bounded, fun _ => tracks_call k (by simp) hw (by simp [hc])⟩
  | closeConn =>
    obtain ⟨id, todo, w, hc, hw, rfl⟩ := step_close_conn h
    exact ⟨hserving, hcloses, k.bounded, fun _ => tracks_call k (by simp) hw (by simp [hc])⟩
  | next =>
    obtain ⟨id, todo, hc, -, rfl⟩ := step_next h
    exact ⟨hserving, hcloses, k.bounded, fun _ => k.members (by simp [hc])⟩
  | clear =>
    obtain ⟨-, rfl⟩ := step_clear h
    exact ⟨hserving, hcloses, fun i hi => absurd hi (Finset.notMem_empty i), fun hd => absurd rfl hd⟩

theorem tracks_init : Tracks init where
  serving _ h := absurd h (Nat.not_lt_zero _)
  closesOnly _ h := absurd h (Nat.not_lt_zero _)
  bounded i h := absurd h (Finset.notMem_empty i)
  members _ _ h := absurd h (Nat.not_lt_zero _)

structure Undisturbed (w : World) : Prop where
  serving : Serving w
  unremoved : .setReadable ∈ w.loop → .handleRemove ∉ w.loop ∧ .onClose ∉ w.conn.invoked

theorem closes_here {w u : World} {a : TcpConnection.Action} (h : TcpConnection.step w a = some u)
    (hx : .onClose ∈ u.conn.invoked) (hn : .onClose ∉ w.conn.invoked) : .handleRemove ∈ w.loop := by
  obtain ⟨env, rest, -, hl, -⟩ := TcpConnection.close_begins h hx hn
  rw [hl]
  exact List.mem_cons_self

theorem unremoved_step {w u : World} {a : TcpConnection.Action} (k : Undisturbed w)
    (ha : KeepsChannel w a) (h : TcpConnection.step w a = some u) (hm : .setReadable ∈ u.loop) :
    .handleRemove ∉ u.loop ∧ .onClose ∉ u.conn.invoked := by
  by_cases hw : .setReadable ∈ w.loop
  · obtain ⟨hn, hx⟩ := k.unremoved hw
    refine ⟨TcpConnection.stage_absent rfl hn ?_ h, fun hu => hn (closes_here h hu hx)⟩
    rintro env i rest push rfl hl he j hj rfl
    obtain ⟨rfl, hr⟩ := (TcpConnection.executes_stages he _ hj).2.2 rfl
    exact ha (by rw [hl]; rfl) hr hw
  · by_cases hc : ∃ env rest, a = .exec env ∧ w.loop = .startCallback :: rest
    · obtain ⟨env, rest, rfl, hl⟩ := hc
      obtain ⟨i, rest', c, push, hl', he, rfl⟩ := TcpConnection.step_executes h
      rw [hl] at hl'
      cases hl'
      have hrest : .setReadable ∉ rest := fun hr => hw (by rw [hl]; exact List.mem_cons_of_mem _ hr)
      cases he with
      | connect hk =>
        refine ⟨fun hn => ?_, fun hx => ?_⟩
        · have hb := k.serving.layered .handleRemove (by rw [hl]; simpa using hn)
          cases hb
        · have hfresh := (k.serving.connecting.fresh hk).2
          exact hfresh (by simpa [TcpConnection.invoke] using hx)
      | notConnecting hk => exact absurd hm hrest
    · refine absurd hm (TcpConnection.stage_absent rfl hw ?_ h)
      rintro env i rest push rfl hl he j hj rfl
      obtain ⟨rfl, -⟩ := (TcpConnection.executes_stages he _ hj).1 rfl
      exact hc ⟨env, rest, rfl, hl⟩

theorem apart_starts {a : Action} (ha : Apart s a) : InTime s a := by
  cases a with
  | conn i b => exact ha.1
  | _ => trivial

theorem undisturbed_moves {a : Action} {id : Nat} {b : TcpConnection.Action} {w : World}
    (k : Undisturbed (s.world id)) (hc : ClosesOnly (s.world id)) (ha : Apart s a)
    (hm : Moves s a id b) (hw : TcpConnection.step (s.world id) b = some w) : Undisturbed w := by
  have hkeeps : KeepsChannel (s.world id) b := by
    rcases hm with rfl | ⟨-, rfl⟩ | ⟨-, rfl⟩
    · exact ha.2
    · trivial
    · trivial
  exact ⟨serving_moves k.serving hc (apart_starts ha) hm hw, unremoved_step k hkeeps hw⟩

structure Sound (s : TcpServer) : Prop where
  tracks : Tracks s
  undisturbed : ∀ id < s.accepted, Undisturbed (s.world id)

theorem sound_step {a : Action} (k : Sound s) (ha : Apart s a) (h : step s a = some t) :
    Sound t := by
  refine ⟨tracks_step k.tracks (apart_starts ha) h, worlds_step k.undisturbed ?_ ?_ h⟩
  · exact fun id hid b w hm hw =>
      undisturbed_moves (k.undisturbed id hid) (k.tracks.closesOnly id hid) ha hm hw
  · intro inline w hw
    obtain ⟨hs, -, -, hn⟩ := boss_call_run hw
    exact ⟨hs, fun hm => absurd hm hn⟩

theorem sound_init : Sound init :=
  ⟨tracks_init, fun _ h => absurd h (Nat.not_lt_zero _)⟩

theorem sound_exact (k : Sound s) (hc : s.closer = .idle) : Exact s where
  dereferences id hid hd := by
    have u := k.undisturbed id hid
    rcases hd with hd | hd
    · have hm := List.mem_of_mem_head? (Option.mem_def.mpr hd)
      exact TcpConnection.context_of_set_readable u.serving hm (u.unremoved hm).2
    · exact TcpConnection.context_of_after_close u.serving
        (List.mem_of_mem_head? (Option.mem_def.mpr hd))
  bounded := k.tracks.bounded
  members id hid hn := by
    rw [k.tracks.members (by simp [hc]) id hid]
    obtain ⟨hr, ha⟩ := not_or.mp hn
    exact ⟨fun ⟨⟨hx, _⟩, hcl⟩ => ⟨hx, fun hm => ha (hcl hm)⟩,
      fun ⟨hx, hcl⟩ => ⟨⟨hx, hr⟩, fun hm => absurd hm hcl⟩⟩

theorem connections_exact (as : List Action) (ha : system.Along Apart init as) :
    system.Always (fun s => s.closer = .idle → Exact s) init as :=
  Transition.System.always_of_along (M := system) (fun _ _ _ k ha h => sound_step k ha h)
    (fun _ => sound_exact) sound_init ha

def accepting : List Action :=
  [.listen, .accept false, .conn 0 (.user 0), .conn 0 (.user 0), .acceptReturn, .conn 0 (.task 0),
    .conn 0 (.exec .none), .conn 0 (.exec .none)]

-- The connection is entered, then closed from inside OnRead.
def closedInRead : List Action :=
  accepting ++ [.conn 0 .ret, .conn 0 (.exec .none), .conn 0 (.events .kReadable),
    .conn 0 (.exec (.read .got)), .conn 0 (.call .loop .forceClose), .conn 0 (.exec .none),
    .conn 0 (.exec .none), .conn 0 (.exec .none), .conn 0 (.exec .none), .conn 0 (.exec .none),
    .conn 0 (.exec .none), .conn 0 .ret, .conn 0 (.exec .none), .conn 0 .ret]

theorem connections_exact_closed_in_read :
    (system.run init closedInRead).isSome = true ∧
      system.Always (fun s => s.closer = .idle → Exact s) init closedInRead :=
  ⟨by decide, connections_exact closedInRead (by decide)⟩

def closedInConnect : List Action :=
  accepting ++ [.conn 0 (.call .loop .forceClose), .conn 0 (.exec .none), .conn 0 (.exec .none),
    .conn 0 (.exec .none), .conn 0 (.exec .none), .conn 0 (.exec .none), .conn 0 (.exec .none),
    .conn 0 .ret, .conn 0 (.exec .none), .conn 0 .ret]

theorem connection_null :
    ¬ ∀ as, system.Always (fun s => s.closer = .idle → Exact s) init as := by
  intro h
  have he := Transition.System.always_last (h closedInConnect) rfl rfl
  cases he.dereferences 0 (by decide) (.inl rfl)

end TcpServer
end Pedronet
