import Pedronet.Transition
import Pedronet.TimerChannel
import Mathlib.Order.Bounds.Defs

namespace Pedronet
namespace TimerChannel

-- The wake-up requests that come between two HandleEvents, with the time they come at.
structure Pending where
  clock : Int
  channel : TimerChannel
deriving DecidableEq, Repr

namespace Pending

inductive Action where
  | elapse (usecs : Nat)
  | wakeUpAfter (duration : Int)
deriving DecidableEq, Repr

def armed (c : TimerChannel) (now duration : Int) : Pending :=
  ⟨now, (c.handleEvents now).wakeUpAfter now duration⟩

def step (p : Pending) : Action → Option Pending
  | .elapse usecs => some { p with clock := p.clock + usecs }
  | .wakeUpAfter duration => some { p with channel := p.channel.wakeUpAfter p.clock duration }

def system : Transition.System Pending Action where
  start p := ∃ c now duration, p = armed c now duration
  step := step

-- Nobody asks again later than `slack` after the alarm: by then the loop has read the descriptor.
def Prompt (slack : Nat) (p : Pending) : Action → Prop
  | .wakeUpAfter _ => ∀ deadline ∈ p.channel.timerfd, p.clock ≤ deadline + slack
  | .elapse _ => True

instance (slack : Nat) (p : Pending) : DecidablePred (Prompt slack p)
  | .wakeUpAfter _ => inferInstanceAs (Decidable (∀ deadline ∈ p.channel.timerfd, _))
  | .elapse _ => isTrue trivial

end Pending

-- A request replaces an armed duration by one that is at least 100 shorter.
def longest (usec : Nat) : Nat :=
  if 100 ≤ usec then usec + longest (usec - 100) else 0
termination_by usec

theorem longest_small {usec : Nat} (h : usec < 100) : longest usec = 0 := by
  rw [longest, if_neg (Nat.not_le.mpr h)]

theorem longest_add (usec : Nat) : longest (usec + 100) = usec + 100 + longest usec := by
  rw [longest, if_pos (Nat.le_add_left 100 usec), Nat.add_sub_cancel]

theorem longest_mono {a b : Nat} (h : a ≤ b) : longest a ≤ longest b := by
  induction b using Nat.strongRecOn generalizing a with
  | ind b ih =>
    rcases Nat.lt_or_ge a 100 with ha | ha
    · rw [longest_small ha]
      exact Nat.zero_le _
    · obtain ⟨a, rfl⟩ := Nat.exists_eq_add_of_le' ha
      obtain ⟨b, rfl⟩ := Nat.exists_eq_add_of_le' (Nat.le_trans ha h)
      rw [longest_add, longest_add]
      have := ih b (by omega) (a := a) (by omega)
      omega

theorem longest_shorter {a b : Nat} (h : a + 100 ≤ b) : longest a + b ≤ longest b := by
  obtain ⟨b, rfl⟩ := Nat.exists_eq_add_of_le' (Nat.le_trans (Nat.le_add_left 100 a) h)
  rw [longest_add]
  have := longest_mono (a := a) (b := b) (by omega)
  omega

theorem hundreds_shorter {a b : Nat} (slack : Nat) (h : a + 100 ≤ b) :
    a / 100 * slack + slack ≤ b / 100 * slack := by
  rw [← Nat.succ_mul]
  exact Nat.mul_le_mul_right slack (by omega)

theorem hundreds_step (slack : Nat) {usec : Nat} (h : 100 ≤ usec) :
    usec / 100 * slack = (usec - 100) / 100 * slack + slack := by
  obtain ⟨rest, rfl⟩ := Nat.exists_eq_add_of_le' h
  rw [Nat.add_sub_cancel, Nat.add_div_right rest (Nat.succ_pos 99), Nat.succ_mul]

theorem wake_up_after_least {c : TimerChannel} (now duration : Int)
    (h : kMinWakeUpDuration ≤ c.lastWakeupUs) :
    kMinWakeUpDuration ≤ (c.wakeUpAfter now duration).lastWakeupUs := by
  by_cases hk : keeps c.lastWakeupUs (max duration kMinWakeUpDuration)
  · rwa [wake_up_after_keeps hk]
  · rw [wake_up_after_arms hk]
    exact Int.le_max_right _ _

def Reaches (slack : Nat) (c : TimerChannel) (alarm latest : Int) : Prop :=
  ∃ (deadline : Int) (usec : Nat), c.timerfd = some deadline ∧ deadline ≤ alarm ∧
    c.lastWakeupUs = usec ∧ 100 ≤ usec ∧
    alarm + longest usec + (usec / 100 * slack : Nat) ≤ latest + usec + slack

variable {slack : Nat}

theorem reaches_alarm {c : TimerChannel} {alarm latest : Int} (h : c.Reaches slack alarm latest) :
    alarm ≤ latest := by
  obtain ⟨deadline, usec, -, -, -, hu, hle⟩ := h
  have := longest_shorter (a := usec - 100) (b := usec) (by omega)
  have := hundreds_shorter (a := usec - 100) (b := usec) slack (by omega)
  omega

theorem reaches_armed {now latest : Int} {usec : Nat} (h : 100 ≤ usec)
    (hl : now + longest usec + (usec / 100 * slack : Nat) ≤ latest + slack) :
    Reaches slack ⟨usec, some (now + usec)⟩ (now + usec) latest :=
  ⟨_, usec, rfl, Int.le_refl _, rfl, h, by omega⟩

theorem reaches_period {c : TimerChannel} {now deadline : Int} {usec period : Nat}
    (hd : c.timerfd = some deadline) (hle : deadline ≤ now + usec) (hu : c.lastWakeupUs = usec)
    (h : 100 ≤ usec) (hp : usec ≤ period) :
    c.Reaches slack (now + usec)
      (now + (longest period + period / 100 * slack : Nat) - slack) := by
  have hl := longest_mono hp
  have hs : usec / 100 * slack ≤ period / 100 * slack :=
    Nat.mul_le_mul_right slack (Nat.div_le_div_right hp)
  exact ⟨deadline, usec, hd, hle, hu, h, by omega⟩

theorem reaches_wake_up_after {c : TimerChannel} {now alarm latest : Int} (duration : Int)
    (h : c.Reaches slack alarm latest) (hp : now ≤ alarm + slack) :
    (c.wakeUpAfter now duration).Reaches slack alarm latest ∨
      ∃ later, now ≤ later ∧ (c.wakeUpAfter now duration).Reaches slack later latest := by
  by_cases hk : keeps c.lastWakeupUs (max duration kMinWakeUpDuration)
  · rw [wake_up_after_keeps hk]
    exact .inl h
  · obtain ⟨deadline, usec, -, -, hu, hle, hlate⟩ := h
    rw [wake_up_after_arms hk]
    simp only [keeps, kMinWakeUpDuration, hu] at hk ⊢
    obtain ⟨next, hn⟩ := Int.eq_ofNat_of_zero_le (a := max duration 100) (by omega)
    rw [hn] at hk ⊢
    have hs := longest_shorter (a := next) (b := usec) (by omega)
    have hh := hundreds_shorter (a := next) (b := usec) slack (by omega)
    exact .inr ⟨now + next, by omega, reaches_armed (by omega) (by omega)⟩

namespace Pending

theorem armed_channel (c : TimerChannel) (now : Int) {first : Nat} (h : 100 ≤ first)
    (hmax : first + 100 ≤ int64Max) :
    (armed c now first).channel = ⟨first, some (now + first)⟩ := by
  have hmax' : max (first : Int) kMinWakeUpDuration = first := by
    simp only [kMinWakeUpDuration]
    omega
  have hk : ¬ keeps (c.handleEvents now).lastWakeupUs (max (first : Int) kMinWakeUpDuration) := by
    simp only [hmax', handleEvents, keeps, int64Max] at hmax ⊢
    omega
  rw [armed, wake_up_after_arms hk, hmax']

theorem reaches_step {p q : Pending} {latest : Int} {a : Action}
    (h : ∃ alarm, p.channel.Reaches slack alarm latest) (hp : Prompt slack p a)
    (hs : step p a = some q) : ∃ alarm, q.channel.Reaches slack alarm latest := by
  obtain ⟨alarm, h⟩ := h
  cases a with
  | elapse usecs =>
    cases hs
    exact ⟨alarm, h⟩
  | wakeUpAfter duration =>
    cases hs
    have hnow : p.clock ≤ alarm + slack := by
      obtain ⟨deadline, usec, hd, hle, -⟩ := h
      have := hp deadline hd
      omega
    rcases reaches_wake_up_after duration h hnow with h | ⟨later, -, h⟩
    · exact ⟨alarm, h⟩
    · exact ⟨later, h⟩

-- Each request comes as late as it can and asks for the longest duration that is not dropped.
theorem attains (slack : Nat) {usec : Nat} (h : 100 ≤ usec) (p : Pending)
    (hp : p.channel = ⟨usec, some (p.clock + usec)⟩) :
    ∃ as q, system.run p as = some q ∧ system.Along (Prompt slack) p as ∧
      q.channel.timerfd = some (p.clock + longest usec + ((usec - 100) / 100 * slack : Nat)) := by
  induction usec using Nat.strongRecOn generalizing p with
  | ind usec ih =>
    obtain ⟨less, rfl⟩ := Nat.exists_eq_add_of_le' h
    rcases Nat.lt_or_ge less 100 with hl | hl
    · refine ⟨[], p, rfl, trivial, ?_⟩
      rw [hp, longest_add, longest_small hl, Nat.add_sub_cancel, Nat.div_eq_of_lt hl]
      simp
    · have hmax : max (less : Int) kMinWakeUpDuration = less := by
        simp only [kMinWakeUpDuration]
        omega
      have hk : ¬ keeps p.channel.lastWakeupUs (max (less : Int) kMinWakeUpDuration) := by
        simp only [hp, hmax, keeps]
        omega
      have hc : p.channel.wakeUpAfter (p.clock + (less + 100 + slack : Nat)) less =
          ⟨less, some (p.clock + (less + 100 + slack : Nat) + less)⟩ := by
        rw [wake_up_after_arms hk, hmax]
      obtain ⟨as, q, hr, ha, hq⟩ := ih less (by omega) hl
        ⟨p.clock + (less + 100 + slack : Nat),
          p.channel.wakeUpAfter (p.clock + (less + 100 + slack : Nat)) less⟩ hc
      refine ⟨.elapse (less + 100 + slack) :: .wakeUpAfter less :: as, q, hr, ?_, ?_⟩
      · rintro t ht
        cases ht
        refine ⟨trivial, fun t ht => ?_⟩
        cases ht
        refine ⟨fun deadline hd => ?_, ha⟩
        have he : p.clock + (less + 100 : Nat) = deadline := by simpa [hp] using hd
        rw [← he]
        simp only
        omega
      · rw [hq, longest_add, Nat.add_sub_cancel, hundreds_step slack hl]
        congr 1
        simp only
        omega

theorem latest_deadline (slack : Nat) (c : TimerChannel) (now : Int) (first : Nat)
    (h : 100 ≤ first) (hmax : first + 100 ≤ int64Max) :
    IsGreatest {deadline | ∃ as p, system.run (armed c now first) as = some p ∧
      system.Along (Prompt slack) (armed c now first) as ∧ p.channel.timerfd = some deadline}
      (now + longest first + ((first - 100) / 100 * slack : Nat)) := by
  have hc := armed_channel c now h hmax
  constructor
  · exact attains slack h (armed c now first) hc
  · rintro deadline ⟨as, p, hr, ha, hd⟩
    have hreach : ∃ alarm, p.channel.Reaches slack alarm
        (now + longest first + ((first - 100) / 100 * slack : Nat)) := by
      refine Transition.System.run_invariant (M := system) (I := fun p =>
        ∃ alarm, p.channel.Reaches slack alarm _) (fun _ _ _ => reaches_step) ?_ ha hr
      have hh := hundreds_step slack h
      rw [hc]
      exact ⟨_, reaches_armed h (by omega)⟩
    obtain ⟨alarm, hr⟩ := hreach
    have hle := reaches_alarm hr
    obtain ⟨armed, -, ha, hle', -⟩ := hr
    obtain rfl : armed = deadline := Option.some.inj (ha.symm.trans hd)
    exact Int.le_trans hle' hle

theorem latest_deadline_two_requests :
    IsGreatest {deadline | ∃ as p, system.run (armed create 0 250) as = some p ∧
      system.Along (Prompt 7) (armed create 0 250) as ∧ p.channel.timerfd = some deadline} 407 := by
  have h := latest_deadline 7 create 0 250 (by decide) (by decide)
  simpa [longest] using h

end Pending
end TimerChannel
end Pedronet
