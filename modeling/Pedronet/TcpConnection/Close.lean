import Pedronet.TcpConnection.Outcomes

namespace Pedronet
namespace TcpConnection
variable {w t : World} {c d : TcpConnection}

def Idle (w : World) : Prop := w.tasks = [] ∧ w.loop = [] ∧ ∀ id, w.users id = []

def Unclosed (c : TcpConnection) : Prop :=
  c.channel.registered = true ∧ Handler.onClose ∉ c.invoked

instance (c : TcpConnection) : Decidable (Unclosed c) := inferInstanceAs (Decidable (_ ∧ _))

def Stuck (w : World) : Prop :=
  w.conn.closeWon = true ∧ Idle w ∧
    (w.conn.output = [] ∨ w.conn.eofRead = true ∨ w.conn.forceClosed = true) ∧ Unclosed w.conn

def Instr.prompt (c : TcpConnection) : Instr → Prop
  | .task _ .close => Unclosed c → c.output = []
  | .task _ .add =>
    c.channel.registered = false → c.closeWon = true → Handler.onClose ∈ c.invoked
  | _ => True

instance (c : TcpConnection) (i : Instr) : Decidable (i.prompt c) := by
  unfold Instr.prompt
  split <;> infer_instance

def Prompt (w : World) : Action → Prop
  | .exec _ => ∀ i ∈ w.loop.head?, i.prompt w.conn
  | _ => True

instance (w : World) : DecidablePred (Prompt w)
  | .exec _ => inferInstanceAs (Decidable (∀ _ ∈ _, _))
  | .call _ _ | .user _ | .ret | .enter | .task _ | .events _ => isTrue trivial

def Instr.closes : Instr → Bool
  | .call (.run .close) | .task _ .close | .remove => true
  | _ => false

def Closing (w : World) : Prop :=
  (∃ i ∈ w.loop, i.closes = true) ∨ (∃ id, .run .close ∈ w.users id) ∨ ∃ id, (id, .close) ∈ w.tasks

def Closes (w : World) : Prop := w.conn.closeWon = true → Unclosed w.conn → Closing w

theorem unclosed_set_writable {on : Bool} (h : Unclosed (c.setWritable on)) : Unclosed c := by
  obtain ⟨hr, hi⟩ := h
  exact ⟨by rw [← hr]; exact (SocketChannel.set_writable_registered _ _).symm, hi⟩

theorem unclosed_invoke {handler : Handler} (h : Unclosed (c.invoke handler)) : Unclosed c :=
  ⟨h.1, fun hm => h.2 (List.mem_append_left _ hm)⟩

theorem calls_closes {pc : CallPc} {pcs : List CallPc} (h : Calls c pc d pcs)
    (hw : d.closeWon = true) (hu : Unclosed d) :
    .run .close ∈ pcs ∨ (c.closeWon = true ∧ Unclosed c ∧ pc ≠ .run .close) := by
  cases h with
  | close h => exact .inl List.mem_cons_self
  | _ => exact .inr ⟨hw, hu, by simp⟩

theorem executes_closes {i : Instr} {push : List Instr} (h : Executes c i d push)
    (hp : i.prompt c) (hw : d.closeWon = true) (hu : Unclosed d) :
    (∃ j ∈ push, j.closes = true) ∨ (c.closeWon = true ∧ Unclosed c ∧ i.closes = false) := by
  cases h with
  | run job =>
    cases job with
    | close => exact .inl ⟨_, List.mem_cons_self, rfl⟩
    | _ => exact .inr ⟨hw, hu, rfl⟩
  | call h =>
    rcases calls_closes h hw hu with hm | ⟨hw, hu, -⟩
    · exact .inl ⟨_, List.mem_map_of_mem hm, rfl⟩
    · refine .inr ⟨hw, hu, ?_⟩
      cases h <;> rfl
  | add sender h => exact absurd (hp h hw) hu.2
  | closeTask | forceCloseTask | handleCloseStore => exact .inl ⟨_, List.mem_cons_self, rfl⟩
  | closeLater sender h => exact absurd (hp hu) h
  | remove h => cases hu.1
  | removed h => exact absurd hu.1 (by rw [h]; simp)
  | shutdownTask | forceShutdownTask | append | sendOutput =>
    exact .inr ⟨hw, unclosed_set_writable hu, rfl⟩
  | connect | read | error | handleRemove => exact .inr ⟨hw, unclosed_invoke hu, rfl⟩
  | writeComplete h => exact .inr ⟨hw, unclosed_set_writable (unclosed_invoke hu), rfl⟩
  | setReadable =>
    obtain ⟨hr, hi⟩ := hu
    refine .inr ⟨hw, ⟨?_, hi⟩, rfl⟩
    rw [← hr]
    exact (SocketChannel.set_readable_registered _ _).symm
  | _ => exact .inr ⟨hw, hu, rfl⟩

theorem closing_iff : Closing w ↔
    Pending (fun i => i.closes = true) (· = .run .close) (· = .close) w := by
  simp [Closing, Pending]

theorem closes_step {a : Action} (s : Closes w) (ha : Prompt w a) (h : step w a = some t) :
    Closes t := by
  intro hw hu
  have hold : Closing t ∨ (w.conn.closeWon = true ∧ Unclosed w.conn) := by
    rcases step_conn h with he | ⟨id, pc, rest, pcs, rfl, -, -⟩ | ⟨env, i, rest, push, rfl, -, -⟩
    · rw [he] at hw hu
      exact .inr ⟨hw, hu⟩
    · rcases step_calls h with ⟨job, rest, -, rfl⟩ | ⟨pc, rest, c, pcs, -, hc, rfl⟩
      · exact .inr ⟨hw, hu⟩
      · rcases calls_closes hc hw hu with hm | ⟨hw, hu, -⟩
        · exact .inl (.inr (.inl ⟨id, by simp [World.setUser, hm]⟩))
        · exact .inr ⟨hw, hu⟩
    · obtain ⟨i, rest, c, push, hl, he, rfl⟩ := step_executes h
      rcases executes_closes he (ha i (by simp [hl])) hw hu with ⟨j, hm, hj⟩ | ⟨hw, hu, -⟩
      · exact .inl (.inl ⟨j, List.mem_append_left _ hm, hj⟩)
      · exact .inr ⟨hw, hu⟩
  rcases hold with hc | ⟨hw', hu'⟩
  · exact hc
  · refine closing_iff.mpr ((pending_step (Q := False) (closing_iff.mp (s hw' hu')) ?_ ?_ ?_ ?_ ?_
      h).resolve_right fun h => h)
    · intro handler hi
      cases hi
    · intro job hj
      cases hj
      rfl
    · rintro id pc rest pcs - - hc rfl
      rcases calls_closes hc hw hu with hm | ⟨-, -, hne⟩
      · exact .inl ⟨_, hm, rfl⟩
      · exact absurd rfl hne
    · rintro env i rest push rfl hl he hi
      rcases executes_closes he (ha i (by simp [hl])) hw hu with hm | ⟨-, -, hn⟩
      · exact .inl hm
      · rw [hi] at hn
        cases hn
    · rintro id job rfl
      rfl

theorem closes_init : Closes .init := by
  intro hw
  cases hw

theorem not_pending {I : Instr → Prop} {P : CallPc → Prop} {J : Task → Prop} (h : Idle w) :
    ¬ Pending I P J w := by
  obtain ⟨ht, hl, hu⟩ := h
  rintro (⟨i, hm, -⟩ | ⟨id, pc, hm, -⟩ | ⟨entry, hm, -⟩)
  · rw [hl] at hm
    cases hm
  · rw [hu id] at hm
    cases hm
  · rw [ht] at hm
    cases hm

theorem close_closes (as : List Action) (hg : system.Along Prompt .init as) :
    system.Always (fun w => ¬ Stuck w) .init as := by
  refine Transition.System.always_of_along (M := system) (fun _ _ _ s ha h => closes_step s ha h)
    (fun w s hs => ?_) closes_init hg
  obtain ⟨hw, hi, -, hu⟩ := hs
  exact not_pending hi (closing_iff.mp (s hw hu))

def closeDrained : List Action :=
  started ++ [.call .loop (.send .view [1]), .exec .none, .exec .none, .exec (.write (.wrote 1)),
    .exec .none, .ret, .exec .none, .call (.user 1) .close, .user 1, .user 1, .task 0, .exec .none,
    .exec .none, .exec .none, .ret, .exec .none]

theorem close_closes_drained :
    (system.run .init closeDrained).isSome = true ∧
      system.Always (fun w => ¬ Stuck w) .init closeDrained :=
  ⟨rfl, close_closes closeDrained (by decide)⟩

def closeUndrained : List Action :=
  started ++ [.call .loop (.send .view [1, 2]), .exec .none, .exec .none, .exec (.write (.wrote 1)),
    .exec .none, .call .loop .close, .exec .none, .exec .none, .exec .none, .ret, .exec .none,
    .events .kWritable, .exec (.write (.wrote 1)), .exec .none, .ret, .exec .none]

theorem close_never_closes : ¬ ∀ as, system.Always (fun w => ¬ Stuck w) .init as := by
  intro h
  have hn := Transition.System.always_last (h closeUndrained) rfl
  refine hn ⟨rfl, ⟨rfl, rfl, fun id => ?_⟩, .inl rfl, by decide⟩
  by_cases hi : id = 0
  · subst hi
    rfl
  · simp [World.setUser, userStep, World.record, hi, World.init]

end TcpConnection
end Pedronet
