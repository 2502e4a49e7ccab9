import Pedronet.EventLoop.Live

namespace Pedronet
namespace EventLoop
variable {Q : EventQueue Callback} {w t : World Q}
variable {d : Executor.Discipline Callback}
variable {Waits : Q.State → Option Q.Consumer → List Callback → Prop}

-- Nobody closes the loop, and a selector reports each channel once.
def Quiet : Action Q → Prop
  | .wait (some batch) => batch.count .event ≤ 1
  | .close _ => False
  | _ => True

theorem quiet_once {a : Action Q} (h : Quiet a) : Once a := by
  cases a with
  | wait ready =>
    cases ready with
    | none => trivial
    | some batch => exact h
  | _ => trivial

theorem onward_quiet {a : Action Q} (h : Onward a) : Quiet a := by
  cases a with
  | wait ready =>
    cases ready with
    | none => trivial
    | some batch => exact h.2
  | close own => exact h.1.elim
  | _ => trivial

structure Open (w : World Q) : Prop where
  live : Live w
  idle : w.closing = .idle
  registered : w.eventRegistered = true
  looping : w.pc.starting = false → looping w.state = true
  running : w.pc ≠ .returned

theorem open_init : Open (.init Q) where
  live := live_init
  idle := rfl
  registered := rfl
  looping h := by cases h
  running h := by cases h

theorem open_same (o : Open w) (hl : Live t) (hc : t.closing = w.closing)
    (he : t.eventRegistered = w.eventRegistered) (hr : t.pc ≠ .returned)
    (hs : t.pc.starting = false → looping t.state = true ∨
      w.pc.starting = false ∧ t.state = w.state) : Open t where
  live := hl
  idle := hc.trans o.idle
  registered := he.trans o.registered
  looping h := by
    rcases hs h with ht | ⟨hw, ht⟩
    · exact ht
    · exact ht ▸ o.looping hw
  running := hr

theorem close_waits (v : EventQueue.Serves d Waits) (s : Sound w) (hc : w.closing = .idle) :
    .close ∉ w.queue.executed := by
  intro hx
  have ha := EventQueue.executed_added v s.queue _ hx
  have := s.unclosed (List.mem_append_left _ ha)
  rw [hc] at this
  cases this

theorem open_follow (v : EventQueue.Serves d Waits) (o : Open w) {rest : List Source}
    (hpc : w.pc = .processing rest) {choice : Q.Choice} {queue : EventQueue.World Q}
    (hq : EventQueue.step w.queue (.process choice) = some queue) : Open (w.follow rest queue) := by
  have hl := live_follow o.live hpc hq
  have hrun : w.pc.starting = false := by rw [hpc]; rfl
  obtain ⟨consumer, state, next, -, -, he⟩ := EventQueue.step_process hq
  cases next with
  | again consumer =>
    obtain rfl : queue = { w.queue with state := state, status := .processing consumer } := he
    exact open_same o hl rfl rfl o.running (fun _ => .inr ⟨hrun, rfl⟩)
  | finish =>
    obtain rfl : queue = { w.queue with state := state, status := .outside } := he
    exact open_same o hl rfl rfl (by simp [World.follow]) (fun _ => .inr ⟨hrun, rfl⟩)
  | invoke callback consumer =>
    obtain rfl : queue = { w.queue with
      state := state
      status := .running callback consumer
      executed := w.queue.executed ++ [callback] } := he
    cases callback with
    | user id => exact open_same o hl rfl rfl o.running (fun _ => .inr ⟨hrun, rfl⟩)
    | close =>
      exact absurd (List.mem_append_right _ List.mem_cons_self) (close_waits v hl.sound o.idle)

theorem open_step (v : EventQueue.Serves d Waits) (o : Open w) {a : Action Q} (ha : Quiet a)
    (h : step w a = some t) : Open t := by
  have hl := live_step o.live (quiet_once ha) h
  cases a with
  | load =>
    obtain ⟨hpc, rfl⟩ := step_load h
    have hz : looping w.state = false := by
      rw [o.live.sound.starting (by rw [hpc]; rfl)]
      rfl
    simp only [hz, Bool.false_eq_true, if_false] at hl ⊢
    exact open_same o hl rfl rfl (by simp) (fun he => by cases he)
  | exchange =>
    obtain ⟨expected, hpc, rfl | rfl⟩ := step_exchange h
    · exact open_same o hl rfl rfl (by simp) (fun _ =>
        .inl (show looping (kLooping ||| kJoinable) = true by decide))
    · exact open_same o hl rfl rfl (by simp) (fun he => by cases he)
  | test =>
    obtain ⟨hpc, rfl⟩ := step_test h
    have hrun : w.pc.starting = false := by rw [hpc]; rfl
    refine open_same o hl rfl rfl ?_ (fun _ => .inr ⟨hrun, rfl⟩)
    simp [o.looping hrun]
  | wait ready =>
    obtain ⟨hpc, rfl | ⟨batch, rfl⟩⟩ := step_wait h
    · exact open_same o hl rfl rfl (by simp) (fun _ => .inr ⟨by rw [hpc]; rfl, rfl⟩)
    · exact open_same o hl rfl rfl (by simp) (fun _ => .inr ⟨by rw [hpc]; rfl, rfl⟩)
  | next =>
    obtain ⟨rest, hpc, ⟨more, queue, -, rfl⟩ | ⟨pc, hnext, rfl⟩⟩ := step_next h
    · exact open_same o hl rfl rfl (by simp) (fun _ => .inr ⟨by rw [hpc]; rfl, rfl⟩)
    · refine open_same o hl rfl rfl ?_ (fun _ => .inr ⟨by rw [hpc]; rfl, rfl⟩)
      obtain rfl | ⟨more, rfl | rfl⟩ := hnext <;> simp
  | leave =>
    obtain ⟨rest, hpc, rfl⟩ := step_leave h
    exact open_same o hl rfl rfl (by simp) (fun _ => .inr ⟨by rw [hpc]; rfl, rfl⟩)
  | process choice =>
    obtain ⟨rest, queue, hpc, hq, rfl⟩ := step_process h
    exact open_follow v o hpc hq
  | resume =>
    obtain ⟨rest, queue, -, -, rfl⟩ := step_resume h
    exact open_same o hl rfl rfl o.running (fun hs => .inr ⟨hs, rfl⟩)
  | schedule own =>
    obtain ⟨queue, -, rfl⟩ := step_schedule h
    exact open_same o hl rfl rfl o.running (fun hs => .inr ⟨hs, rfl⟩)
  | advance index =>
    obtain ⟨queue, -, rfl⟩ := step_advance h
    exact open_same o hl rfl rfl o.running (fun hs => .inr ⟨hs, rfl⟩)
  | close own => exact ha.elim
  | clear =>
    obtain ⟨own, hc, -⟩ := step_clear h
    rw [o.idle] at hc
    cases hc
  | scheduleClose =>
    obtain ⟨own, queue, hc, -⟩ := step_schedule_close h
    rw [o.idle] at hc
    cases hc

theorem open_leads (v : EventQueue.Serves d Waits) (o : Open w)
    (h : (system Q).Leads Woken w t) : Open t :=
  Transition.System.reaches_invariant (fun _ _ _ o ha hs => open_step v o (onward_quiet ha.1) hs) o h

theorem test_wait (o : Open w) (l : Alone w) (hpc : w.pc = .test) :
    ∃ u, (system Q).Leads Woken w u ∧ Alone u ∧ u.pc = .wait ∧ u.queue = w.queue := by
  have hl : looping w.state = true := o.looping (by rw [hpc]; rfl)
  have hs : step w .test = some { w with pc := .wait } := by simp only [step, hpc, hl, if_true]
  have ho : Woken (Q := Q) .test := ⟨⟨trivial, trivial⟩, trivial⟩
  exact ⟨_, Transition.System.reaches_step ho hs, alone_step l ho hs, rfl, rfl⟩

theorem load_test (l : Alone w) (hpc : w.pc = .load) :
    ∃ u, (system Q).Leads Woken w u ∧ Alone u ∧ u.pc = .test := by
  have hz : looping w.state = false := by
    rw [l.live.sound.starting (by rw [hpc]; rfl)]
    rfl
  have hload : step w .load = some { w with pc := .exchange w.state } := by
    simp only [step, hpc, hz, Bool.false_eq_true, if_false]
  have hx : step { w with pc := .exchange w.state } .exchange =
      some { w with state := kLooping ||| kJoinable, pc := .test } := by
    simp only [step, if_true]
  have hol : Woken (Q := Q) .load := ⟨⟨trivial, trivial⟩, trivial⟩
  have hox : Woken (Q := Q) .exchange := ⟨⟨trivial, trivial⟩, trivial⟩
  exact ⟨_, Transition.System.reaches_cons hol hload (Transition.System.reaches_step hox hx),
    alone_step (alone_step l hol hload) hox hx, rfl⟩

theorem start_test (l : Alone w) (hs : w.pc.starting = true) :
    ∃ u, (system Q).Leads Woken w u ∧ Alone u ∧ u.pc = .test := by
  cases hpc : w.pc with
  | load => exact load_test l hpc
  | exchange expected =>
    have ho : Woken (Q := Q) .exchange := ⟨⟨trivial, trivial⟩, trivial⟩
    by_cases he : w.state = expected
    · have hs : step w .exchange = some { w with state := kLooping ||| kJoinable, pc := .test } := by
        simp only [step, hpc, he, if_true]
      exact ⟨_, Transition.System.reaches_step ho hs, alone_step l ho hs, rfl⟩
    · have hs : step w .exchange = some { w with pc := .load } := by
        simp only [step, hpc, he, if_false]
      obtain ⟨u, hu, lu, ht⟩ := load_test (alone_step l ho hs) rfl
      exact ⟨u, Transition.System.reaches_cons ho hs hu, lu, ht⟩
  | _ =>
    rw [hpc] at hs
    cases hs

theorem reach_wait (v : EventQueue.Serves d Waits) (p : EventQueue.Progress Q) (o : Open w)
    (l : Alone w) : ∃ u, (system Q).Leads Woken w u ∧ Alone u ∧ u.pc = .wait := by
  have hvia : ∀ {x}, (system Q).Leads Woken w x → Alone x → x.pc = .test →
      ∃ u, (system Q).Leads Woken w u ∧ Alone u ∧ u.pc = .wait := by
    intro x hx lx hpc
    obtain ⟨u, hu, lu, hwait, -⟩ := test_wait (open_leads v o hx) lx hpc
    exact ⟨u, Transition.System.reaches_trans hx hu, lu, hwait⟩
  by_cases hs : w.pc.starting = true
  · obtain ⟨u, hu, lu, ht⟩ := start_test l hs
    exact hvia hu lu ht
  · obtain ⟨u, hu, lu, ht | hw⟩ := reach_test p l (by simpa using hs) o.running
    · exact hvia hu lu ht
    · exact ⟨u, hu, lu, hw⟩

theorem empty_queue (v : EventQueue.Serves d Waits) (p : EventQueue.Progress Q) (o : Open w)
    (l : Alone w) (hpc : w.pc = .wait) :
    ∃ u, (system Q).Leads Woken w u ∧ Alone u ∧ u.pc = .wait ∧ Q.held u.queue.state = [] := by
  have ho : w.queue.status = .outside := l.live.sound.outside (by rw [hpc]; rfl)
  by_cases he : Q.held w.queue.state = []
  · exact ⟨w, Transition.System.reaches_refl, l, hpc, he⟩
  · have hfd := p.wakes l.live.sound.queue l.calls ho he
    have hr : w.reported [.event] = true := by
      simp [World.reported, o.registered, hfd]
    have hs : step w (.wait (some [.event])) = some { w with pc := .batch [.event] } := by
      simp only [step, hpc, hr, if_true]
    have hw : Woken (Q := Q) (.wait (some [.event])) := ⟨⟨trivial, Nat.le_refl 1⟩, trivial⟩
    obtain ⟨x, hx, lx, htx, hheld⟩ := finish_batch p (alone_step l hw hs) rfl
    have hlead : (system Q).Leads Woken w x := Transition.System.reaches_cons hw hs hx
    obtain ⟨u, hu, lu, hwait, hq⟩ := test_wait (open_leads v o hlead) lx htx
    refine ⟨u, Transition.System.reaches_trans hlead hu, lu, hwait, ?_⟩
    rw [hq]
    exact hheld (.inl ⟨o.registered, List.mem_cons_self⟩)

theorem issued_leads (h : (system Q).Leads Woken w t) :
    (EventQueue.issued t.queue).Perm (EventQueue.issued w.queue) := by
  refine Transition.System.reaches_invariant
    (I := fun u => (EventQueue.issued u.queue).Perm (EventQueue.issued w.queue)) ?_ (.refl _) h
  intro u a x hp ha hs
  rcases queue_step hs with ⟨hq, -⟩ | ⟨b, hb, -, hi⟩
  · rw [hq]
    exact hp
  · have := EventQueue.issued_step hb
    rw [hi ha.1.1, List.append_nil] at this
    exact this.trans hp

theorem drains (type : EventQueueType) (as : List (Action (makeEventQueue Callback type)))
    {w : World (makeEventQueue Callback type)} (h : (system _).run (.init _) as = some w)
    (hq : ∀ a ∈ as, Quiet a) :
    ∃ u, (system _).Leads Woken w u ∧ u.pc = .wait ∧ u.queue.calls = [] ∧
      u.queue.executed.Perm (EventQueue.issued w.queue) := by
  obtain ⟨Waits, v⟩ := serves_make type
  obtain ⟨p⟩ := progress_make type
  have ho : Open w := Transition.System.run_invariant (M := system _) (G := fun _ a => Quiet a)
    (fun _ _ _ ho ha hs => open_step v ho ha hs) open_init
    (Transition.System.along_of_forall hq) h
  obtain ⟨x, hx, lx⟩ := finish_calls p ho.live (by rw [ho.idle]; rfl)
  have hox := open_leads v ho hx
  obtain ⟨y, hy, ly, hwait⟩ := reach_wait v p hox lx
  obtain ⟨u, hu, lu, hpc, hheld⟩ := empty_queue v p (open_leads v hox hy) ly hwait
  have hl := Transition.System.reaches_trans hx (Transition.System.reaches_trans hy hu)
  refine ⟨u, hl, hpc, lu.calls, ?_⟩
  obtain ⟨done, pending, ha, hd, hp⟩ := lawful_make Callback type _ lu.live.sound.queue
    (lu.live.sound.outside (by rw [hpc]; rfl))
  rw [hheld] at hp
  have hadded : u.queue.added.Perm u.queue.executed := by
    rw [ha, hp.eq_nil, List.append_nil]
    exact hd
  have hi : EventQueue.issued u.queue = u.queue.added := by
    simp [EventQueue.issued, lu.calls]
  exact hadded.symm.trans (hi ▸ issued_leads hl)

-- A callback is added behind the swap of the two buffers, another one by the callback that runs.
theorem drains_double_buffer :
    ∃ w u : World (makeEventQueue Callback .kDoubleBufferQueue),
      (system _).run (.init _) [.schedule false, .advance 0, .load, .exchange, .test,
        .wait (some [.event]), .next, .process (), .schedule false, .process (), .schedule true]
        = some w ∧
      (system _).Leads Woken w u ∧ u.pc = .wait ∧
      u.queue.executed.Perm [.user 0, .user 1, .user 2] := by
  obtain ⟨w, hw, hi⟩ : ∃ w : World (makeEventQueue Callback .kDoubleBufferQueue),
      (system _).run (.init _) [.schedule false, .advance 0, .load, .exchange, .test,
        .wait (some [.event]), .next, .process (), .schedule false, .process (), .schedule true]
        = some w ∧ EventQueue.issued w.queue = [.user 0, .user 1, .user 2] := ⟨_, rfl, rfl⟩
  obtain ⟨u, hl, hpc, -, hx⟩ := drains .kDoubleBufferQueue _ hw (by simp [Quiet])
  exact ⟨w, u, hw, hl, hpc, hi ▸ hx⟩

end EventLoop
end Pedronet
