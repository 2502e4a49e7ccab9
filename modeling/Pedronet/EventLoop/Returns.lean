import Pedronet.EventLoop.Live

namespace Pedronet
namespace EventLoop
variable {Q : EventQueue Callback} {w t : World Q}

-- Close clears the state after Loop has set it.
def Started (w : World Q) (a : Action Q) : Prop :=
  match a with
  | .clear => looping w.state = true
  | _ => True

instance (w : World Q) : DecidablePred (Started w)
  | .clear => inferInstanceAs (Decidable (_ = _))
  | .load | .exchange | .test | .wait _ | .next | .leave | .process _ | .resume => isTrue trivial
  | .schedule _ | .advance _ | .close _ | .scheduleClose => isTrue trivial

def ClosePc.past : ClosePc → Bool
  | .cleared _ | .scheduled => true
  | .idle | .called _ => false

def Missed (w : World Q) : Prop :=
  w.closing.past = true ∧ (w.pc.starting = true ∨ looping w.state = true)

instance : DecidablePred (Missed (Q := Q)) := fun _ => inferInstanceAs (Decidable (_ ∧ _))

structure Ran (w : World Q) : Prop where
  sound : Sound w
  running : w.closing.past = false → w.pc.starting = false → looping w.state = true
  halted : w.pc = .returned → looping w.state = false

theorem looping_cleared (state : BitVec 32) : looping (state &&& ~~~kLooping) = false := by
  have hz : state &&& ~~~kLooping &&& kLooping = 0 := by
    rw [BitVec.and_assoc, BitVec.and_comm (~~~kLooping)]
    simp [kLooping]
  simp [looping, hz]

theorem starting_not_looping (s : Sound w) (h : w.pc.starting = true) :
    looping w.state = false := by
  rw [s.starting h]
  rfl

theorem state_step {a : Action Q} (s : Sound w) (h : step w a = some t) :
    (a ≠ .clear ∧ t.closing.past = w.closing.past ∧
        ((t.pc.starting = w.pc.starting ∧ t.state = w.state) ∨
          (w.pc.starting = true ∧ t.pc.starting = false ∧ looping t.state = true))) ∨
      (a = .clear ∧ w.closing.past = false ∧ t.closing.past = true ∧ t.pc = w.pc ∧
        t.state = w.state &&& ~~~kLooping) := by
  cases a with
  | load =>
    obtain ⟨hpc, rfl⟩ := step_load h
    have hz := starting_not_looping s (by rw [hpc]; rfl)
    refine .inl ⟨by simp, rfl, .inl ⟨?_, rfl⟩⟩
    simp [hpc, hz, LoopPc.starting]
  | exchange =>
    obtain ⟨expected, hpc, rfl | rfl⟩ := step_exchange h
    · exact .inl ⟨by simp, rfl, .inr ⟨by rw [hpc]; rfl, rfl,
        show looping (kLooping ||| kJoinable) = true by decide⟩⟩
    · exact .inl ⟨by simp, rfl, .inl ⟨by rw [hpc]; rfl, rfl⟩⟩
  | test =>
    obtain ⟨hpc, rfl⟩ := step_test h
    refine .inl ⟨by simp, rfl, .inl ⟨?_, rfl⟩⟩
    rw [hpc]
    cases hl : looping w.state <;> rfl
  | wait ready =>
    obtain ⟨hpc, rfl | ⟨batch, rfl⟩⟩ := step_wait h
    · exact .inl ⟨by simp, rfl, .inl ⟨by rw [hpc]; rfl, rfl⟩⟩
    · exact .inl ⟨by simp, rfl, .inl ⟨by rw [hpc]; rfl, rfl⟩⟩
  | next =>
    obtain ⟨rest, hpc, ⟨more, queue, -, rfl⟩ | ⟨pc, hnext, rfl⟩⟩ := step_next h
    · exact .inl ⟨by simp, rfl, .inl ⟨by rw [hpc]; rfl, rfl⟩⟩
    · refine .inl ⟨by simp, rfl, .inl ⟨?_, rfl⟩⟩
      rw [hpc]
      obtain rfl | ⟨more, rfl | rfl⟩ := hnext <;> rfl
  | leave =>
    obtain ⟨rest, hpc, rfl⟩ := step_leave h
    exact .inl ⟨by simp, rfl, .inl ⟨by rw [hpc]; rfl, rfl⟩⟩
  | process choice =>
    obtain ⟨rest, queue, hpc, -, rfl⟩ := step_process h
    refine .inl ⟨by simp, ?_, .inl ?_⟩
    · unfold World.follow
      split <;> rfl
    · unfold World.follow
      split <;> exact ⟨by simp [hpc, LoopPc.starting], rfl⟩
  | resume =>
    obtain ⟨rest, queue, -, -, rfl⟩ := step_resume h
    exact .inl ⟨by simp, rfl, .inl ⟨rfl, rfl⟩⟩
  | schedule own =>
    obtain ⟨queue, -, rfl⟩ := step_schedule h
    exact .inl ⟨by simp, rfl, .inl ⟨rfl, rfl⟩⟩
  | advance index =>
    obtain ⟨queue, -, rfl⟩ := step_advance h
    exact .inl ⟨by simp, rfl, .inl ⟨rfl, rfl⟩⟩
  | close own =>
    obtain ⟨hc, rfl⟩ := step_close h
    exact .inl ⟨by simp, by rw [hc]; rfl, .inl ⟨rfl, rfl⟩⟩
  | clear =>
    obtain ⟨own, hc, rfl⟩ := step_clear h
    exact .inr ⟨rfl, by rw [hc]; rfl, rfl, rfl, rfl⟩
  | scheduleClose =>
    obtain ⟨own, queue, hc, -, rfl⟩ := step_schedule_close h
    exact .inl ⟨by simp, by rw [hc]; rfl, .inl ⟨rfl, rfl⟩⟩

theorem returned_step {a : Action Q} (s : Sound w) (h : step w a = some t)
    (hr : t.pc = .returned) : w.pc = .returned ∨ looping t.state = false := by
  by_cases ha : a = .test
  · subst ha
    obtain ⟨-, rfl⟩ := step_test h
    cases hl : looping w.state with
    | true => simp [hl] at hr
    | false => exact .inr rfl
  · rcases keeps_left s h ha with ⟨hw, -, -⟩ | ⟨-, ht⟩
    · exact .inl hw
    · exact absurd hr ht

theorem ran_init : Ran (.init Q) :=
  ⟨sound_init, (fun _ h => by cases h), fun h => by cases h⟩

theorem ran_step {a : Action Q} (r : Ran w) (h : step w a = some t) : Ran t := by
  refine ⟨sound_step r.sound h, fun hc hs => ?_, fun hr => ?_⟩
  · rcases state_step r.sound h with ⟨-, hp, ⟨hst, he⟩ | ⟨-, -, hl⟩⟩ | ⟨-, -, hp, -, -⟩
    · exact he ▸ r.running (hp ▸ hc) (hst ▸ hs)
    · exact hl
    · rw [hp] at hc
      cases hc
  · rcases returned_step r.sound h hr with hw | hl
    · rcases state_step r.sound h with ⟨-, -, ⟨-, he⟩ | ⟨hs, -, -⟩⟩ | ⟨-, -, -, -, he⟩
      · exact he ▸ r.halted hw
      · rw [hw] at hs
        cases hs
      · exact he ▸ looping_cleared _
    · exact hl

theorem missed_step {a : Action Q} (r : Ran w) (h : step w a = some t) :
    ¬ Missed t ↔ ¬ Missed w ∧ Started w a := by
  rcases state_step r.sound h with ⟨hne, hp, hsame⟩ | ⟨rfl, hw, ht, hpc, he⟩
  · have hst : Started w a := by
      cases a <;> trivial
    have hm : Missed t ↔ Missed w := by
      unfold Missed
      rw [hp]
      rcases hsame with ⟨hs, he⟩ | ⟨hs, -, hl⟩
      · rw [hs, he]
      · simp [hs, hl]
    simp [hm, hst]
  · have hs := r.running hw
    have hl : w.pc.starting = true → looping w.state = false := starting_not_looping r.sound
    have hc := looping_cleared w.state
    cases hstart : w.pc.starting with
    | true => simp [Missed, Started, hw, ht, hpc, hstart, hl hstart]
    | false => simp [Missed, Started, hw, ht, hpc, hstart, he, hc, hs hstart]

theorem missed_not_returned (r : Ran w) (m : Missed w) : w.pc ≠ .returned := by
  intro hr
  rcases m.2 with hs | hl
  · rw [hr] at hs
    cases hs
  · rw [r.halted hr] at hl
    cases hl

theorem missed_iff_along {as : List (Action Q)} (h : (system Q).run (.init Q) as = some w) :
    ¬ Missed w ↔ (system Q).Along Started (.init Q) as := by
  have hinit : ¬ Missed (.init Q) := fun m => by cases m.1
  have := Transition.System.last_iff_along (M := system Q) (I := Ran) (P := fun w => ¬ Missed w)
    (fun _ _ _ r hs => ran_step r hs) (fun _ _ _ r hs => missed_step r hs) ran_init h
  rw [this]
  exact and_iff_right hinit

theorem ran_run {as : List (Action Q)} (h : (system Q).run (.init Q) as = some w) : Ran w :=
  Transition.System.run_invariant (M := system Q) (G := fun _ _ => True)
    (fun _ _ _ r _ hs => ran_step r hs) ran_init Transition.System.along_true h

theorem live_run {as : List (Action Q)} (h : (system Q).run (.init Q) as = some w)
    (ho : ∀ a ∈ as, Once a) : Live w :=
  Transition.System.run_invariant (M := system Q) (G := fun _ a => Once a)
    (fun _ _ _ l ha hs => live_step l ha hs) live_init (Transition.System.along_of_forall ho) h

structure Ending (w : World Q) : Prop where
  ran : Ran w
  caught : ¬ Missed w
  scheduled : w.closing = .scheduled

theorem ending_step {a : Action Q} (e : Ending w) (ha : Onward a) (h : step w a = some t) :
    Ending t := by
  have hs : Started w a := by
    cases a with
    | clear => exact ha.1.elim
    | _ => trivial
  exact ⟨ran_step e.ran h, (missed_step e.ran h).mpr ⟨e.caught, hs⟩,
    (goes_on_closing ha.1 h).trans e.scheduled⟩

theorem ending_leads (e : Ending w) (h : (system Q).Leads Onward w t) : Ending t :=
  Transition.System.reaches_invariant (fun _ _ _ e ha hs => ending_step e ha hs) e h

theorem ending_state (e : Ending w) : w.pc.starting = false ∧ looping w.state = false := by
  have hp : w.closing.past = true := by rw [e.scheduled]; rfl
  constructor
  · cases hs : w.pc.starting with
    | true => exact absurd ⟨hp, .inl hs⟩ e.caught
    | false => rfl
  · cases hl : looping w.state with
    | true => exact absurd ⟨hp, .inr hl⟩ e.caught
    | false => rfl

theorem test_returns (e : Ending w) (hpc : w.pc = .test) :
    ∃ u, (system Q).Leads Onward w u ∧ u.pc = .returned := by
  have hs : step w .test = some { w with pc := .returned } := by
    simp only [step, hpc, (ending_state e).2, Bool.false_eq_true, if_false]
  exact ⟨_, Transition.System.reaches_step (a := .test) ⟨trivial, trivial⟩ hs, rfl⟩

theorem ending_returns (p : EventQueue.Progress Q) (l : Live w) (e : Ending w) :
    ∃ u, (system Q).Leads Onward w u ∧ u.pc = .returned := by
  obtain ⟨x, hwx, lx⟩ := finish_calls p l (by rw [e.scheduled]; rfl)
  have hx := leads_onward hwx
  have ex := ending_leads e hx
  by_cases hr : x.pc = .returned
  · exact ⟨x, hx, hr⟩
  · obtain ⟨y, hwy, -, hpc⟩ := reach_test p lx (ending_state ex).1 hr
    have hy := leads_onward hwy
    rcases hpc with ht | hw
    · obtain ⟨u, hu, hr⟩ := test_returns (ending_leads ex hy) ht
      exact ⟨u, Transition.System.reaches_trans hx (Transition.System.reaches_trans hy hu), hr⟩
    · have hs : step y (.wait none) = some { y with pc := .test } := by simp only [step, hw]
      have ho : Onward (Q := Q) (.wait none) := ⟨trivial, trivial⟩
      obtain ⟨u, hu, hr⟩ := test_returns (ending_step (ending_leads ex hy) ho hs) rfl
      exact ⟨u, Transition.System.reaches_trans hx (Transition.System.reaches_trans hy
        (Transition.System.reaches_cons ho hs hu)), hr⟩

theorem returns_or_never (type : EventQueueType)
    (as : List (Action (makeEventQueue Callback type)))
    {w : World (makeEventQueue Callback type)} (h : (system _).run (.init _) as = some w)
    (ho : ∀ a ∈ as, Once a) (hc : w.closing = .scheduled) :
    ((system _).Along Started (.init _) as → ∃ u, (system _).Leads Onward w u ∧ u.pc = .returned) ∧
      (¬ (system _).Along Started (.init _) as →
        ∀ bs u, (system _).run w bs = some u → u.pc ≠ .returned) := by
  obtain ⟨p⟩ := progress_make type
  have hiff := missed_iff_along h
  refine ⟨fun ha => ?_, fun hn bs u hu => ?_⟩
  · exact ending_returns p (live_run h ho) ⟨ran_run h, hiff.mpr ha, hc⟩
  · have hrun := Transition.System.run_append.mpr ⟨w, h, hu⟩
    refine missed_not_returned (ran_run hrun) (Decidable.byContradiction fun hm => hn ?_)
    exact Transition.System.along_initial ((missed_iff_along hrun).mp hm) (List.prefix_append as bs)

def closedFirst : List (Action (makeEventQueue Callback .kLockFreeQueue)) :=
  [.close false, .clear, .scheduleClose, .advance 0, .load, .exchange, .test]

theorem never_returns_closed_first : ∃ w, (system _).run (.init _) closedFirst = some w ∧
    w.closing = .scheduled ∧ ∀ bs u, (system _).run w bs = some u → u.pc ≠ .returned := by
  obtain ⟨w, hw, hc⟩ : ∃ w, (system _).run (.init _) closedFirst = some w ∧
      w.closing = .scheduled := ⟨_, rfl, rfl⟩
  have ho : ∀ a ∈ closedFirst, Once a := by simp [closedFirst, Once]
  exact ⟨w, hw, hc, (returns_or_never .kLockFreeQueue closedFirst hw ho hc).2 (by decide)⟩

end EventLoop
end Pedronet
