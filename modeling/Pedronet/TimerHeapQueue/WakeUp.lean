import Pedronet.TimerHeapQueue

namespace Pedronet
namespace TimerHeapQueue

structure Sound (w : World) : Prop where
  remembers : w.channel.Remembers w.clock
  fits : ∀ item ∈ w.heap.queue, item.expire ≤ int64Max
  started : kMinWakeUpDuration ≤ w.clock
  completed : w.completed ≤ w.clock

def InTime (w : World) : Prop :=
  w.pc = .idle → ∀ top, IsTop w.heap.queue top →
    ∃ deadline ∈ w.channel.timerfd,
      deadline ≤ w.clock ∨ deadline ≤ max top.expire w.completed + 200

instance : DecidablePred InTime := fun _ => inferInstanceAs (Decidable (_ → _))

def KeepsEarliest (w : World) : Action → Prop
  | .add delay _ => w.pc = .idle →
      ¬ TimerChannel.keeps w.channel.lastWakeupUs (max delay kMinWakeUpDuration) →
      ∀ top, IsTop w.heap.queue top →
        w.clock + delay ≤ max top.expire w.clock + 200
  | _ => True

instance (w : World) : DecidablePred (KeepsEarliest w)
  | .add _ _ => inferInstanceAs (Decidable (_ → _))
  | .elapse _ | .cancel _ | .handleEvents | .pop _ | .resume | .finish => isTrue trivial

theorem sound_init {clock : Int} (h : kMinWakeUpDuration ≤ clock) : Sound (World.init clock) :=
  ⟨TimerChannel.remembers_create clock, by simp [World.init, create], h, Int.le_refl _⟩

theorem fits_finish_callback {q : TimerHeapQueue} {now : Int} {timer : Entry}
    (h : ∀ item ∈ q.queue, item.expire ≤ int64Max) (hfit : now + timer.interval ≤ int64Max) :
    ∀ item ∈ (q.finishCallback now timer).queue, item.expire ≤ int64Max := by
  intro item hi
  unfold finishCallback at hi
  split at hi
  · rcases List.mem_cons.mp hi with rfl | hi
    · exact hfit
    · exact h item hi
  · exact h item hi

theorem sound_step {w t : World} {a : Action} (s : Sound w) (h : step w a = some t) : Sound t := by
  cases a with
  | elapse usecs =>
    cases h
    have hl : w.clock ≤ w.clock + usecs := by omega
    exact ⟨TimerChannel.remembers_later s.remembers hl, s.fits, Int.le_trans s.started hl,
      Int.le_trans s.completed hl⟩
  | add delay interval =>
    obtain ⟨rfl, -, -, -, hfit⟩ := step_add h
    refine ⟨TimerChannel.remembers_wake_up_after _ s.remembers, ?_, s.started, Int.le_refl _⟩
    intro item hi
    rcases List.mem_cons.mp hi with rfl | hi
    · exact hfit
    · exact s.fits item hi
  | cancel id =>
    obtain ⟨rfl, -⟩ := step_cancel h
    exact ⟨s.remembers, s.fits, s.started, Int.le_refl _⟩
  | handleEvents =>
    obtain ⟨rfl, -⟩ := step_handle_events h
    exact ⟨TimerChannel.remembers_handle_events _ _, s.fits, s.started, s.completed⟩
  | pop index =>
    obtain ⟨now, item, -, -, -, -, rfl⟩ := step_pop h
    exact ⟨s.remembers, fun other ho => s.fits other (List.mem_of_mem_eraseIdx ho), s.started,
      s.completed⟩
  | resume =>
    obtain ⟨now, timer, -, hfit, rfl⟩ := step_resume h
    exact ⟨s.remembers, fits_finish_callback s.fits hfit, s.started, s.completed⟩
  | finish =>
    obtain ⟨now, -, -, rfl⟩ := step_finish h
    exact ⟨wake_up_top_remembers s.remembers, s.fits, s.started, Int.le_refl _⟩

theorem top_cons {queue : List Timeout} {item top : Timeout} (h : IsTop (item :: queue) top) :
    top.expire ≤ item.expire ∧
      (top = item ∨ IsTop queue top ∧ ∀ old, IsTop queue old → old.expire = top.expire) := by
  refine ⟨h.2 item (by simp), ?_⟩
  rcases List.mem_cons.mp h.1 with rfl | hm
  · exact .inl rfl
  · have ht : IsTop queue top := ⟨hm, fun other ho => h.2 other (by simp [ho])⟩
    refine .inr ⟨ht, fun old ho => ?_⟩
    exact Int.le_antisymm (ho.2 top hm) (ht.2 old ho.1)

theorem in_time_keeps {w : World} {delay interval : Int} (s : Sound w) (p : InTime w)
    (hfit : w.clock + delay ≤ int64Max) (hidle : w.pc = .idle)
    (hk : TimerChannel.keeps w.channel.lastWakeupUs (max delay kMinWakeUpDuration)) :
    InTime (w.add delay interval) := by
  intro _ top htop
  have hst := s.started
  have hdur : w.clock + delay - w.clock = delay := by omega
  have hsame : (w.add delay interval).channel = w.channel := by
    simp only [World.add, TimerChannel.wakeUpAt, hdur]
    exact TimerChannel.wake_up_after_keeps hk
  obtain ⟨deadline, hd, hle⟩ := TimerChannel.keeps_deadline s.remembers
    (by simp only [kMinWakeUpDuration] at hst; omega) hk
  refine ⟨deadline, by rw [hsame]; exact hd, ?_⟩
  simp only [World.add]
  rcases (top_cons htop).2 with rfl | ⟨hold, -⟩
  · right; simp only; omega
  · obtain ⟨old, ho, hin⟩ := p hidle top hold
    have heq : old = deadline := Option.mem_unique ho hd
    have hc := s.completed
    rcases hin with hin | hin
    · left; omega
    · right; omega

theorem in_time_arms {w : World} {delay interval : Int} (hidle : w.pc = .idle)
    (hd0 : 0 ≤ delay)
    (hk : ¬ TimerChannel.keeps w.channel.lastWakeupUs (max delay kMinWakeUpDuration)) :
    InTime (w.add delay interval) ↔
      ∀ top, IsTop w.heap.queue top → w.clock + delay ≤ max top.expire w.clock + 200 := by
  have hdur : w.clock + delay - w.clock = delay := by omega
  have hfd : (w.add delay interval).channel.timerfd =
      some (w.clock + max delay kMinWakeUpDuration) := by
    simp only [World.add, TimerChannel.wakeUpAt, hdur, TimerChannel.wake_up_after_arms hk]
  simp only [InTime, hfd, Option.mem_def, Option.some.injEq, exists_eq_left']
  simp only [kMinWakeUpDuration]
  constructor
  · intro h top htop
    by_cases hle : w.clock + delay ≤ top.expire
    · omega
    · have hnew : IsTop (w.add delay interval).heap.queue top := by
        refine ⟨List.mem_cons_of_mem _ htop.1, fun item hi => ?_⟩
        rcases List.mem_cons.mp hi with rfl | hi
        · simp only; omega
        · exact htop.2 item hi
      have := h hidle top hnew
      simp only [World.add] at this
      omega
  · intro h _ top htop
    right
    simp only [World.add]
    rcases (top_cons htop).2 with rfl | ⟨hold, -⟩
    · simp only; omega
    · have := h top hold
      omega

theorem in_time_finish {w : World} (s : Sound w) {top : Timeout} (htop : IsTop w.heap.queue top) :
    ∃ deadline, (w.heap.wakeUpTop w.channel w.clock).timerfd = some deadline ∧
      deadline ≤ max top.expire w.clock + 200 := by
  have hfit := s.fits top htop.1
  have hst := s.started
  simp only [kMinWakeUpDuration] at hst
  obtain ⟨deadline, hd, hle⟩ := TimerChannel.wake_up_after_in_time (top.expire - w.clock)
    s.remembers (by omega)
  exact ⟨deadline, by rw [wake_up_top htop]; exact hd, by omega⟩

theorem in_time_step {w t : World} {a : Action} (s : Sound w) (p : InTime w)
    (h : step w a = some t) : InTime t ↔ KeepsEarliest w a := by
  cases a with
  | elapse usecs =>
    cases h
    refine ⟨fun _ => trivial, fun _ hidle top htop => ?_⟩
    obtain ⟨deadline, hd, hin⟩ := p hidle top htop
    exact ⟨deadline, hd, hin.imp (by intro hle; simp only; omega) fun hle => hle⟩
  | add delay interval =>
    obtain ⟨rfl, -, hd0, -, hfit⟩ := step_add h
    by_cases hidle : w.pc = .idle
    · by_cases hk : TimerChannel.keeps w.channel.lastWakeupUs (max delay kMinWakeUpDuration)
      · exact ⟨fun _ _ hn => absurd hk hn, fun _ => in_time_keeps s p hfit hidle hk⟩
      · rw [in_time_arms hidle hd0 hk]
        exact ⟨fun hall _ _ => hall, fun hall => hall hidle hk⟩
    · exact ⟨fun _ hi => absurd hi hidle, fun _ hi => absurd hi hidle⟩
  | cancel id =>
    obtain ⟨rfl, -⟩ := step_cancel h
    refine ⟨fun _ => trivial, fun _ hidle top htop => ?_⟩
    obtain ⟨deadline, hd, hin⟩ := p hidle top htop
    have hc := s.completed
    exact ⟨deadline, hd, hin.imp (fun hle => hle) (by intro hle; simp only; omega)⟩
  | handleEvents =>
    obtain ⟨rfl, -⟩ := step_handle_events h
    exact ⟨fun _ => trivial, fun _ hidle => by cases hidle⟩
  | pop index =>
    obtain ⟨now, item, -, -, -, -, rfl⟩ := step_pop h
    refine ⟨fun _ => trivial, fun _ hidle => ?_⟩
    simp only at hidle
    split at hidle <;> cases hidle
  | resume =>
    obtain ⟨now, timer, -, -, rfl⟩ := step_resume h
    exact ⟨fun _ => trivial, fun _ hidle => by cases hidle⟩
  | finish =>
    obtain ⟨now, -, -, rfl⟩ := step_finish h
    refine ⟨fun _ => trivial, fun _ _ top htop => ?_⟩
    obtain ⟨deadline, hd, hle⟩ := in_time_finish s htop
    exact ⟨deadline, hd, .inr hle⟩

theorem in_time_init (clock : Int) : InTime (World.init clock) := by
  intro _ top htop
  simp [World.init, create, IsTop] at htop

theorem wakes_in_time_iff (clock : Int) (as : List Action) (h : kMinWakeUpDuration ≤ clock) :
    system.Always InTime (World.init clock) as ↔ system.Along KeepsEarliest (World.init clock) as :=
  Transition.System.always_iff_along (M := system) (F := fun _ _ => True)
    (fun _ _ _ s _ ht => sound_step s ht) (fun _ _ _ s p _ ht => in_time_step s p ht)
    (sound_init h) (in_time_init clock) Transition.System.along_true

theorem wakes_in_time_shorter_delay :
    system.Always InTime (World.init 1000)
      [.add 1000000 0, .elapse 500000, .add 400000 0, .elapse 400000, .handleEvents, .pop 0,
        .add 0 0, .resume, .pop 0, .resume, .finish] :=
  (wakes_in_time_iff 1000 _ (by decide)).mpr (by decide)

theorem sleeps_past_top :
    ¬ ∀ clock as, kMinWakeUpDuration ≤ clock → system.Always InTime (World.init clock) as := by
  intro h
  have := h 1000 [.add 1000000 0, .elapse 500000, .add 900000 0] (by decide)
  revert this
  decide

end TimerHeapQueue
end Pedronet
