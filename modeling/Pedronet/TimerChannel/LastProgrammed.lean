import Pedronet.TimerChannel.Concurrent

namespace Pedronet
namespace TimerChannel
namespace Concurrent
variable {w t : World}

def Action.requests : Action → Bool
  | .elapse _ | .wakeUpAfter _ | .advance _ => true
  | .handleEvents | .read | .store => false

def Call.Noted (recorded : List Recorded) (call : Call) : Prop :=
  match call.pc with
  | .settime => ⟨call.caller, call.usec⟩ ∈ recorded
  | .load | .test _ | .exchange _ => ∀ r ∈ recorded, r.caller ≠ call.caller

structure Descends (w : World) : Prop where
  issued : (∀ call ∈ w.calls, call.caller < w.issued) ∧ ∀ r ∈ w.recorded, r.caller < w.issued
  single : (w.calls.map Call.caller).Nodup
  noted : ∀ call ∈ w.calls, call.Noted w.recorded
  lowers : ∀ call ∈ w.calls, ∀ us, call.pc = .exchange us → call.usec < us
  last : ∀ r ∈ w.recorded.head?, w.channel.lastWakeupUs = r.usec
  descending : w.recorded.Pairwise fun r s => r.usec < s.usec ∧ r.caller ≠ s.caller
  programmed : ∀ p ∈ w.programmed, ⟨p.caller, p.value.usec⟩ ∈ w.recorded

theorem last_le (d : Descends w) : ∀ r ∈ w.recorded, w.channel.lastWakeupUs ≤ r.usec := by
  cases hr : w.recorded with
  | nil => simp
  | cons first rest =>
    have hl := d.last first (by simp [hr])
    have hd := d.descending
    rw [hr, List.pairwise_cons] at hd
    intro r hm
    rcases List.mem_cons.mp hm with rfl | hm
    · exact Int.le_of_eq hl
    · exact hl ▸ Int.le_of_lt (hd.1 r hm).1

theorem descends_init (clock : Int) (channel : TimerChannel) : Descends (.init clock channel) where
  issued := ⟨(fun _ h => by cases h), fun _ h => by cases h⟩
  single := List.nodup_nil
  noted _ h := by cases h
  lowers _ h := by cases h
  last _ h := by cases h
  descending := .nil
  programmed _ h := by cases h

theorem descends_set (d : Descends w) {index : Nat} {call : Call} {pc : CallPc}
    (hc : w.calls[index]? = some call) (hn : Call.Noted w.recorded { call with pc := pc })
    (hl : ∀ us, pc = .exchange us → call.usec < us) :
    Descends { w with calls := w.calls.set index { call with pc := pc } } := by
  have hcall := List.mem_of_getElem? hc
  refine ⟨⟨fun c hm => ?_, d.issued.2⟩, ?_, fun c hm => ?_, fun c hm => ?_, d.last, d.descending,
    d.programmed⟩
  · rcases Pool.mem_set hc hm with rfl | hm
    · exact d.issued.1 call hcall
    · exact d.issued.1 c hm
  · rw [Pool.map_set (b := { call with pc := pc }) Call.caller hc rfl]
    exact d.single
  · rcases Pool.mem_set hc hm with rfl | hm
    · exact hn
    · exact d.noted c hm
  · rcases Pool.mem_set hc hm with rfl | hm
    · exact hl
    · exact d.lowers c hm

theorem descends_erase (d : Descends w) (index : Nat) :
    Descends { w with calls := w.calls.eraseIdx index } where
  issued := ⟨fun c hm => d.issued.1 c (List.mem_of_mem_eraseIdx hm), d.issued.2⟩
  single := d.single.sublist ((List.eraseIdx_sublist w.calls index).map _)
  noted c hm := d.noted c (List.mem_of_mem_eraseIdx hm)
  lowers c hm := d.lowers c (List.mem_of_mem_eraseIdx hm)
  last := d.last
  descending := d.descending
  programmed := d.programmed

theorem descends_exchange (d : Descends w) {index : Nat} {call : Call}
    (hc : w.calls[index]? = some call) (hpc : call.pc = .exchange w.channel.lastWakeupUs) :
    Descends { w with
      channel := { w.channel with lastWakeupUs := call.usec }
      calls := w.calls.set index { call with pc := .settime }
      recorded := ⟨call.caller, call.usec⟩ :: w.recorded } := by
  have hcall := List.mem_of_getElem? hc
  have hlt := d.lowers call hcall _ hpc
  have hnew : ∀ r ∈ w.recorded, r.caller ≠ call.caller := by
    have hn := d.noted call hcall
    simpa only [Call.Noted, hpc] using hn
  refine ⟨⟨fun c hm => ?_, fun r hm => ?_⟩, ?_, fun c hm => ?_, fun c hm us he => ?_, ?_, ?_, ?_⟩
  · rcases Pool.mem_set hc hm with rfl | hm
    · exact d.issued.1 call hcall
    · exact d.issued.1 c hm
  · rcases List.mem_cons.mp hm with rfl | hm
    · exact d.issued.1 call hcall
    · exact d.issued.2 r hm
  · rw [Pool.map_set (b := { call with pc := .settime }) Call.caller hc rfl]
    exact d.single
  · rcases Pool.mem_set_apart d.single hc hm with rfl | ⟨hm, hne⟩
    · exact List.mem_cons_self
    · have hn := d.noted c hm
      unfold Call.Noted at hn ⊢
      split
      · rename_i hs
        rw [hs] at hn
        exact List.mem_cons_of_mem _ hn
      all_goals
        rename_i hs
        rw [hs] at hn
        intro r hr
        rcases List.mem_cons.mp hr with rfl | hr
        · exact hne.symm
        · exact hn r hr
  · rcases Pool.mem_set hc hm with rfl | hm
    · cases he
    · exact d.lowers c hm us he
  · rintro r hr
    cases hr
    rfl
  · refine List.pairwise_cons.mpr ⟨fun r hr => ⟨?_, (hnew r hr).symm⟩, d.descending⟩
    exact Int.lt_of_lt_of_le hlt (last_le d r hr)
  · exact fun p hp => List.mem_cons_of_mem _ (d.programmed p hp)

theorem descends_advance (d : Descends w) {index : Nat} {call : Call}
    (hc : w.calls[index]? = some call) (h : Advances w index call t) : Descends t := by
  have hcall := List.mem_of_getElem? hc
  have hn := d.noted call hcall
  cases h with
  | load hpc =>
    rw [Call.Noted, hpc] at hn
    exact descends_set d hc hn (by simp)
  | keeps => exact descends_erase d index
  | test hpc hk =>
    rw [Call.Noted, hpc] at hn
    refine descends_set d hc hn fun us he => ?_
    cases he
    simp only [TimerChannel.keeps, not_or] at hk
    omega
  | exchange hpc => exact descends_exchange d hc hpc
  | changed hpc =>
    rw [Call.Noted, hpc] at hn
    exact descends_set d hc hn (by simp)
  | settime hpc =>
    have e := descends_erase d index
    refine ⟨e.issued, e.single, e.noted, e.lowers, e.last, e.descending, ?_⟩
    rintro p ⟨⟩
    rw [Call.Noted, hpc] at hn
    simpa only [Itimerspec.usec_of_usec] using hn

theorem descends_step {a : Action} (d : Descends w) (ha : a.requests = true)
    (h : step w a = some t) : Descends t := by
  cases a with
  | elapse usecs =>
    cases h
    exact ⟨d.issued, d.single, d.noted, d.lowers, d.last, d.descending, d.programmed⟩
  | wakeUpAfter duration =>
    obtain ⟨-, rfl⟩ := step_wake_up_after h
    obtain ⟨hcalls, hrecorded⟩ := d.issued
    refine ⟨⟨fun c hm => ?_, fun r hm => Nat.lt_succ_of_lt (hrecorded r hm)⟩, ?_, fun c hm => ?_,
      fun c hm us he => ?_, d.last, d.descending, d.programmed⟩
    · rcases List.mem_append.mp hm with hm | hm
      · exact Nat.lt_succ_of_lt (hcalls c hm)
      · rw [List.mem_singleton.mp hm]
        exact Nat.lt_succ_self _
    · rw [List.map_append, List.map_cons, List.map_nil, List.nodup_append]
      refine ⟨d.single, List.nodup_cons.mpr ⟨List.not_mem_nil, List.nodup_nil⟩, fun a ha b hb => ?_⟩
      obtain ⟨c, hm, rfl⟩ := List.mem_map.mp ha
      rw [List.mem_singleton.mp hb]
      exact Nat.ne_of_lt (hcalls c hm)
    · rcases List.mem_append.mp hm with hm | hm
      · exact d.noted c hm
      · rw [List.mem_singleton.mp hm]
        exact fun r hr => Nat.ne_of_lt (hrecorded r hr)
    · rcases List.mem_append.mp hm with hm | hm
      · exact d.lowers c hm us he
      · rw [List.mem_singleton.mp hm] at he
        cases he
  | advance index =>
    obtain ⟨call, hc, hadv⟩ := step_advance h
    exact descends_advance d hc hadv
  | handleEvents | read | store => cases ha

-- The durations recorded differ, so the last one programmed is the last one recorded when both are
-- of one call.
theorem programmed_last_iff (d : Descends w) {p : Programmed} (hp : p ∈ w.programmed) :
    p.value.usec = w.channel.lastWakeupUs ↔ ∃ r ∈ w.recorded.head?, r.caller = p.caller := by
  have hm := d.programmed p hp
  cases hr : w.recorded with
  | nil =>
    rw [hr] at hm
    cases hm
  | cons first rest =>
    have hl := d.last first (by simp [hr])
    have hd := d.descending
    rw [hr, List.pairwise_cons] at hd
    rw [hr] at hm
    simp only [List.head?_cons, Option.mem_def, Option.some.injEq, exists_eq_left', hl]
    rcases List.mem_cons.mp hm with rfl | hm
    · exact ⟨fun _ => rfl, fun _ => rfl⟩
    · obtain ⟨hlt, hne⟩ := hd.1 _ hm
      exact ⟨fun he => absurd he (Int.ne_of_gt hlt), fun he => absurd he hne⟩

-- When all calls have returned, the timer runs for the duration last recorded.
def Consistent (w : World) : Prop :=
  w.calls = [] → ∀ p ∈ w.programmed, p.value.usec = w.channel.lastWakeupUs

-- The call whose exchange came last is the last one to program the timer.
def LastProgrammed (w : World) : Prop :=
  w.calls = [] → ∀ p ∈ w.programmed, ∃ r ∈ w.recorded.head?, r.caller = p.caller

theorem consistent_iff (clock : Int) (channel : TimerChannel) (as : List Action) (w : World)
    (hr : ∀ a ∈ as, a.requests = true) (h : system.run (.init clock channel) as = some w) :
    Consistent w ↔ LastProgrammed w := by
  have d : Descends w := Transition.System.run_invariant (M := system)
    (fun _ _ _ d ha h => descends_step d ha h) (descends_init clock channel)
    (Transition.System.along_of_forall hr) h
  exact forall_congr' fun _ => forall₂_congr fun p hp => programmed_last_iff d hp

def inOrder : List Action :=
  .wakeUpAfter 1000 :: .wakeUpAfter 500 :: List.replicate 4 (.advance 0) ++
    List.replicate 4 (.advance 0)

theorem consistent_in_order :
    ∃ w, system.run (.init 0 create) inOrder = some w ∧ w.calls = [] ∧ w.programmed.isSome ∧
      Consistent w := by
  refine ⟨_, rfl, rfl, rfl, ?_⟩
  refine (consistent_iff 0 create inOrder _ (by decide) rfl).mpr fun _ p hp => ?_
  cases hp
  exact ⟨⟨1, 500⟩, rfl, rfl⟩

-- The first call records 1000 and the second one 500; the first one programs last.
def overtaken : List Action :=
  .wakeUpAfter 1000 :: .wakeUpAfter 500 :: List.replicate 3 (.advance 0) ++
    List.replicate 4 (.advance 1) ++ [.advance 0]

theorem overtaken_differs :
    ¬ ∀ clock channel as w, (∀ a ∈ as, Action.requests a = true) →
      system.run (.init clock channel) as = some w → Consistent w := by
  intro h
  have hc := h 0 create overtaken _ (by decide) rfl rfl _ rfl
  revert hc
  decide

end Concurrent
end TimerChannel
end Pedronet
