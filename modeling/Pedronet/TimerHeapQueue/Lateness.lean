import Pedronet.TimerChannel.Postponed
import Pedronet.TimerHeapQueue.Armed

namespace Pedronet
namespace TimerHeapQueue

def Pc.began : Pc → Option Int
  | .idle => none
  | .loop now | .callback now _ => some now

-- `returned` is history: when the constructor or the last Process has returned.
structure Ticking where
  world : World
  returned : Int

namespace Ticking

def init (clock : Int) : Ticking := ⟨World.init clock, clock⟩

def step (s : Ticking) (a : Action) : Option Ticking :=
  (TimerHeapQueue.step s.world a).map fun w =>
    ⟨w, if a = .finish then w.clock else s.returned⟩

def system : Transition.System Ticking Action where
  start s := ∃ clock, kMinWakeUpDuration ≤ clock ∧ s = init clock
  step := step

-- The idle loop reads an alarm at most `slack` late, a Process takes at most `busy`, and no delay
-- or interval is longer than `longest`.
def Prompt (longest slack busy : Nat) (s : Ticking) : Action → Prop
  | .elapse usecs =>
    (s.world.pc = .idle → ∀ deadline ∈ s.world.channel.timerfd,
      s.world.clock + usecs ≤ max deadline s.returned + slack) ∧
    ∀ now ∈ s.world.pc.began, s.world.clock + usecs ≤ now + busy
  | .add delay interval => delay ≤ longest ∧ interval ≤ longest
  | _ => True

instance (longest slack busy : Nat) (s : Ticking) : DecidablePred (Prompt longest slack busy s)
  | .elapse _ => inferInstanceAs (Decidable ((_ → ∀ _ ∈ _, _) ∧ ∀ _ ∈ _, _))
  | .add _ _ => inferInstanceAs (Decidable (_ ∧ _))
  | .cancel _ | .handleEvents | .pop _ | .resume | .finish => isTrue trivial

def period (longest : Nat) : Nat := max longest 100

-- How long after the first request since the last HandleEvents the alarm is read at the latest.
def pause (longest slack : Nat) : Nat :=
  TimerChannel.longest (period longest) + period longest / 100 * slack

def Timely (longest slack busy : Nat) (s : Ticking) : Prop :=
  s.world.pc = .idle → ∀ item ∈ s.world.heap.queue,
    s.world.clock ≤ item.expire + busy + pause longest slack

def Waits (longest slack busy : Nat) (s : Ticking) : Prop :=
  ∃ alarm base, s.world.channel.Reaches slack alarm (base + pause longest slack - slack) ∧
    s.returned ≤ alarm ∧ s.world.clock ≤ alarm + slack ∧ base ≤ s.world.clock ∧
    ∀ item ∈ s.world.heap.queue, base ≤ item.expire + busy

structure Beats (longest slack busy : Nat) (s : Ticking) : Prop where
  bounded : Bounded longest s.world
  returned : s.returned ≤ s.world.clock
  least : kMinWakeUpDuration ≤ s.world.channel.lastWakeupUs
  inTime : ∀ now ∈ s.world.pc.began, s.world.clock ≤ now + busy
  idle : s.world.pc = .idle → s.world.channel.lastWakeupUs = int64Max ∧ s.world.heap.queue = [] ∨
    Waits longest slack busy s

variable {longest slack busy : Nat} {s u : Ticking} {w t : World}

theorem beats_timely (b : Beats longest slack busy s) : Timely longest slack busy s := by
  intro hpc item hm
  rcases b.idle hpc with ⟨-, he⟩ | ⟨alarm, base, hr, -, hclock, -, hbase⟩
  · rw [he] at hm
    cases hm
  · have halarm := TimerChannel.reaches_alarm hr
    have := hbase item hm
    omega

variable (slack) in
theorem reaches_remembered (b : Bounded longest w) (hc : w.completed = w.clock)
    (hl : kMinWakeUpDuration ≤ w.channel.lastWakeupUs) (hne : w.channel.lastWakeupUs ≠ int64Max) :
    ∃ alarm, w.channel.Reaches slack alarm (w.clock + pause longest slack - slack) ∧
      w.clock ≤ alarm := by
  obtain ⟨deadline, hd, hle⟩ := b.remembers.resolve_left hne
  have hlong := b.wakeup.resolve_left hne
  simp only [kMinWakeUpDuration] at hl hlong
  obtain ⟨usec, hu⟩ := Int.eq_ofNat_of_zero_le (a := w.channel.lastWakeupUs) (by omega)
  rw [hc, hu] at hle
  have hper : usec ≤ period longest := by
    simp only [period]
    omega
  exact ⟨w.clock + usec, TimerChannel.reaches_period hd hle hu (by omega) hper, by omega⟩

theorem wake_up_top_least {q : TimerHeapQueue} {c : TimerChannel} (now : Int)
    (h : kMinWakeUpDuration ≤ c.lastWakeupUs) :
    kMinWakeUpDuration ≤ (q.wakeUpTop c now).lastWakeupUs := by
  unfold wakeUpTop
  split
  · exact TimerChannel.wake_up_after_least now _ h
  · exact h

theorem beats_init {clock : Int} (h : kMinWakeUpDuration ≤ clock) :
    Beats longest slack busy (init clock) where
  bounded := bounded_init h
  returned := Int.le_refl _
  least := (by decide : kMinWakeUpDuration ≤ int64Max)
  inTime _ hn := by cases hn
  idle _ := .inl ⟨rfl, rfl⟩

theorem within_prompt {a : Action} (h : Prompt longest slack busy s a) : Within longest a := by
  cases a with
  | add delay interval => exact h
  | _ => trivial

theorem beats_elapse {usecs : Nat} (b : Beats longest slack busy s)
    (hp : Prompt longest slack busy s (.elapse usecs)) :
    Beats longest slack busy
      { s with world := { s.world with clock := s.world.clock + usecs } } := by
  have hr := b.returned
  refine ⟨bounded_elapse b.bounded usecs, by simp only; omega, b.least, hp.2, fun hpc => ?_⟩
  rcases b.idle hpc with hn | ⟨alarm, base, ha, hret, -, hbase, hitems⟩
  · exact .inl hn
  · refine .inr ⟨alarm, base, ha, hret, ?_, by simp only; omega, hitems⟩
    obtain ⟨deadline, -, hd, hle, -⟩ := ha
    have := hp.1 hpc deadline hd
    simp only
    omega

theorem beats_add {delay interval : Int} (b : Beats longest slack busy s) (hd : 0 ≤ delay)
    (hb : Bounded longest (s.world.add delay interval)) :
    Beats longest slack busy { s with world := s.world.add delay interval } := by
  have hleast : kMinWakeUpDuration ≤ (s.world.add delay interval).channel.lastWakeupUs :=
    TimerChannel.wake_up_after_least _ _ b.least
  refine ⟨hb, b.returned, hleast, b.inTime, fun hpc => .inr ?_⟩
  rcases b.idle hpc with ⟨-, he⟩ | ⟨alarm, base, ha, hret, hclock, hbase, hitems⟩
  · have hne := hb.asked hpc (List.cons_ne_nil _ _)
    obtain ⟨alarm, ha, hle⟩ := reaches_remembered slack hb rfl hleast hne
    have hc : s.returned ≤ s.world.clock := b.returned
    refine ⟨alarm, _, ha, Int.le_trans hc hle, by simp only at hle ⊢; omega, Int.le_refl _, ?_⟩
    intro item hm
    rcases List.mem_cons.mp hm with rfl | hm
    · simp only [World.add]
      omega
    · simp only [he] at hm
      cases hm
  · have hnew : ∀ item ∈ (s.world.add delay interval).heap.queue, base ≤ item.expire + busy := by
      intro item hm
      rcases List.mem_cons.mp hm with rfl | hm
      · simp only
        omega
      · exact hitems item hm
    rcases TimerChannel.reaches_wake_up_after (s.world.clock + delay - s.world.clock) ha hclock with
      hr | ⟨later, hl, hr⟩
    · exact ⟨alarm, base, hr, hret, hclock, hbase, hnew⟩
    · have hc := b.returned
      exact ⟨later, base, hr, by simp only; omega, by simp only [World.add]; omega, hbase, hnew⟩

theorem beats_finish {now : Int} (b : Beats longest slack busy s) (hpc : s.world.pc = .loop now)
    (hlate : ∀ item ∈ s.world.heap.queue, now < item.expire) (hw : w = { s.world with
      channel := s.world.heap.wakeUpTop s.world.channel s.world.clock
      pc := .idle
      completed := s.world.clock }) (hb : Bounded longest w) :
    Beats longest slack busy ⟨w, w.clock⟩ := by
  have hleast : kMinWakeUpDuration ≤ w.channel.lastWakeupUs := by
    rw [hw]
    exact wake_up_top_least _ b.least
  have hin := b.inTime now (by rw [hpc]; rfl)
  refine ⟨hb, Int.le_refl _, hleast, fun n hn => ?_, fun _ => ?_⟩
  · rw [hw] at hn
    cases hn
  · by_cases hne : w.channel.lastWakeupUs = int64Max
    · refine .inl ⟨hne, Decidable.byContradiction fun hq => ?_⟩
      exact hb.asked (by rw [hw]) hq hne
    · obtain ⟨alarm, ha, hle⟩ :=
        reaches_remembered slack hb (by rw [hw]) hleast hne
      refine .inr ⟨alarm, _, ha, hle, by simp only at hle ⊢; omega, Int.le_refl _, ?_⟩
      intro item hm
      rw [hw] at hm ⊢
      have := hlate item hm
      simp only
      omega

theorem beats_step {a : Action} (b : Beats longest slack busy s)
    (hp : Prompt longest slack busy s a) (h : step s a = some u) : Beats longest slack busy u := by
  obtain ⟨w, hw, rfl⟩ := Option.map_eq_some_iff.mp h
  have hb := bounded_step b.bounded (within_prompt hp) hw
  cases a with
  | elapse usecs =>
    cases hw
    exact beats_elapse b hp
  | add delay interval =>
    obtain ⟨rfl, -, hd, -, -⟩ := step_add hw
    exact beats_add b hd hb
  | cancel id =>
    obtain ⟨rfl, -⟩ := step_cancel hw
    exact ⟨hb, b.returned, b.least, b.inTime, b.idle⟩
  | handleEvents =>
    obtain ⟨rfl, -⟩ := step_handle_events hw
    refine ⟨hb, b.returned, (by decide : kMinWakeUpDuration ≤ int64Max), ?_, fun he => by cases he⟩
    intro now hn
    cases hn
    simp only
    omega
  | pop index =>
    obtain ⟨now, item, hpc, -, -, -, rfl⟩ := step_pop hw
    have hin := b.inTime now (by rw [hpc]; rfl)
    refine ⟨hb, b.returned, b.least, fun n hn => ?_, fun he => ?_⟩
    · simp only at hn
      split at hn <;> cases hn <;> exact hin
    · simp only at he
      split at he <;> cases he
  | resume =>
    obtain ⟨now, timer, hpc, -, rfl⟩ := step_resume hw
    have hin := b.inTime now (by rw [hpc]; rfl)
    refine ⟨hb, b.returned, b.least, fun n hn => ?_, fun he => by cases he⟩
    cases hn
    exact hin
  | finish =>
    obtain ⟨now, hpc, hlate, rfl⟩ := step_finish hw
    exact beats_finish b hpc hlate rfl hb

theorem lateness_bounded (longest slack busy : Nat) (clock : Int) (as : List Action)
    (h : kMinWakeUpDuration ≤ clock)
    (hp : system.Along (Prompt longest slack busy) (init clock) as) :
    system.Always (Timely longest slack busy) (init clock) as :=
  Transition.System.always_of_along (M := system) (fun _ _ _ b hp h => beats_step b hp h)
    (fun _ b => beats_timely b) (beats_init h) hp

-- A request for a shorter delay puts the alarm off, and the first timer is overdue by then.
def putOff : List Action :=
  [.add 250 0, .elapse 240, .add 150 0, .elapse 150]

theorem lateness_bounded_put_off : ∃ s, system.run (init 1000) putOff = some s ∧
    (∃ item ∈ s.world.heap.queue, s.world.clock = item.expire + 140) ∧ Timely 250 20 0 s := by
  obtain ⟨s, hs, hm⟩ : ∃ s, system.run (init 1000) putOff = some s ∧
      ∃ item ∈ s.world.heap.queue, s.world.clock = item.expire + 140 :=
    ⟨_, rfl, ⟨1250, 1⟩, by decide, rfl⟩
  have ht := lateness_bounded 250 20 0 1000 putOff (by decide) (by decide)
  exact ⟨s, hs, hm, Transition.System.always_last ht hs⟩

end Ticking
end TimerHeapQueue
end Pedronet
