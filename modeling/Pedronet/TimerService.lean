import Pedronet.Transition
import Mathlib.Logic.Function.Basic

namespace TimerService

structure Timer where
  due : Int
  interval : Int
deriving DecidableEq, Repr

structure Taken where
  id : Nat
  due : Int
  time : Int
deriving DecidableEq, Repr

-- When a timer may be taken: what is due sooner may be taken as well.
structure Policy where
  ripe : Int → Int → Bool
  sooner (due later time : Int) : due ≤ later → ripe later time = true → ripe due time = true

end TimerService

open TimerService

-- Timers are added under ids of their own, cancelled, and taken in the order of time. A periodic
-- timer is due again an interval after the time it is taken at.
structure TimerService where
  clock : Int
  last : Int
  timers : Nat → Option Timer
  issued : List Nat
  taken : List Taken

namespace TimerService

inductive Action where
  | elapse (usecs : Nat)
  | add (id : Nat) (due interval : Int)
  | cancel (id : Nat)
  | take (id : Nat) (time : Int)
deriving DecidableEq, Repr

def create (clock : Int) : TimerService := ⟨clock, clock, fun _ => none, [], []⟩

def again (time interval : Int) : Option Timer :=
  if 0 < interval then some ⟨time + interval, interval⟩ else none

def added (s : TimerService) (id : Nat) (due interval : Int) : TimerService :=
  { s with
    timers := Function.update s.timers id (some ⟨due, interval⟩)
    issued := id :: s.issued }

def cancelled (s : TimerService) (id : Nat) : TimerService :=
  { s with timers := Function.update s.timers id none }

def took (s : TimerService) (id : Nat) (timer : Timer) (time : Int) : TimerService where
  clock := s.clock
  last := time
  timers := Function.update s.timers id (again time timer.interval)
  issued := s.issued
  taken := ⟨id, timer.due, time⟩ :: s.taken

variable (p : Policy)

def step (s : TimerService) : Action → Option TimerService
  | .elapse usecs => some { s with clock := s.clock + usecs }
  | .add id due interval =>
    if id ∈ s.issued then none else some (s.added id due interval)
  | .cancel id => some (s.cancelled id)
  | .take id time =>
    match s.timers id with
    | some timer =>
      if s.last ≤ time ∧ time ≤ s.clock ∧ p.ripe timer.due time = true then
        some (s.took id timer time)
      else none
    | none => none

def system : Transition.System TimerService Action where
  start s := ∃ clock, s = create clock
  step := step p

variable {p} {s t : TimerService}

theorem step_add {id : Nat} {due interval : Int} (h : step p s (.add id due interval) = some t) :
    id ∉ s.issued ∧ t = s.added id due interval := by
  simp only [step] at h
  split at h
  · cases h
  · rename_i hn
    cases h
    exact ⟨hn, rfl⟩

theorem step_take {id : Nat} {time : Int} (h : step p s (.take id time) = some t) :
    ∃ timer, s.timers id = some timer ∧ s.last ≤ time ∧ time ≤ s.clock ∧
      p.ripe timer.due time = true ∧ t = s.took id timer time := by
  simp only [step] at h
  split at h
  · rename_i timer ht
    split at h
    · rename_i hr
      cases h
      exact ⟨timer, ht, hr.1, hr.2.1, hr.2.2, rfl⟩
    · cases h
  · cases h

theorem run_add {id : Nat} (h : id ∉ s.issued) (due interval : Int) :
    (system p).run s [.add id due interval] = some (s.added id due interval) := by
  simp [Transition.System.run, system, step, h]

theorem run_take {id : Nat} {timer : Timer} {time : Int} (ht : s.timers id = some timer)
    (hl : s.last ≤ time) (hc : time ≤ s.clock) (hr : p.ripe timer.due time = true) :
    (system p).run s [.take id time] = some (s.took id timer time) := by
  simp [Transition.System.run, system, step, ht, hl, hc, hr]

theorem again_some {time interval : Int} {timer : Timer} (h : again time interval = some timer) :
    0 < interval ∧ timer = ⟨time + interval, interval⟩ := by
  unfold again at h
  split at h
  · rename_i hi
    exact ⟨hi, by simpa using h.symm⟩
  · cases h

structure Sound (p : Policy) (begun : Int) (s : TimerService) : Prop where
  began : begun ≤ s.last
  last : s.last ≤ s.clock
  timers : ∀ id, s.timers id ≠ none → id ∈ s.issued
  issued : ∀ x ∈ s.taken, x.id ∈ s.issued
  ripe : ∀ x ∈ s.taken, p.ripe x.due x.time = true
  times : ∀ x ∈ s.taken, begun ≤ x.time ∧ x.time ≤ s.last
  order : s.taken.Pairwise fun later x => x.time ≤ later.time

theorem sound_create (clock : Int) : Sound p clock (create clock) where
  began := Int.le_refl _
  last := Int.le_refl _
  timers _ h := absurd rfl h
  issued _ h := by cases h
  ripe _ h := by cases h
  times _ h := by cases h
  order := .nil

theorem update_live {timers : Nat → Option Timer} {issued : List Nat} {id : Nat}
    {timer : Option Timer} (h : ∀ i, timers i ≠ none → i ∈ issued) (hid : timer ≠ none → id ∈ issued)
    {i : Nat} (hi : Function.update timers id timer i ≠ none) : i ∈ issued := by
  by_cases he : i = id
  · subst he
    rw [Function.update_self] at hi
    exact hid hi
  · rw [Function.update_of_ne he] at hi
    exact h i hi

theorem sound_step {begun : Int} {a : Action} (o : Sound p begun s) (h : step p s a = some t) :
    Sound p begun t := by
  cases a with
  | elapse usecs =>
    cases h
    have := o.last
    exact { o with last := by simp only; omega }
  | add id due interval =>
    obtain ⟨-, rfl⟩ := step_add h
    refine { o with timers := fun i hi => ?_, issued := fun x hx => ?_ }
    · exact update_live (fun i hi => List.mem_cons_of_mem _ (o.timers i hi))
        (fun _ => List.mem_cons_self) hi
    · exact List.mem_cons_of_mem _ (o.issued x hx)
  | cancel id =>
    cases h
    exact { o with timers := fun i hi => update_live o.timers (fun hn => absurd rfl hn) hi }
  | take id time =>
    obtain ⟨timer, ht, hl, hc, hr, rfl⟩ := step_take h
    have hid : id ∈ s.issued := o.timers id (by simp [ht])
    have hb := o.began
    refine ⟨Int.le_trans hb hl, hc, fun i hi => update_live o.timers (fun _ => hid) hi, ?_, ?_, ?_,
      List.pairwise_cons.mpr ⟨fun x hx => Int.le_trans (o.times x hx).2 hl, o.order⟩⟩
    · intro x hx
      rcases List.mem_cons.mp hx with rfl | hx
      · exact hid
      · exact o.issued x hx
    · intro x hx
      rcases List.mem_cons.mp hx with rfl | hx
      · exact hr
      · exact o.ripe x hx
    · intro x hx
      rcases List.mem_cons.mp hx with rfl | hx
      · exact ⟨Int.le_trans hb hl, Int.le_refl _⟩
      · exact ⟨(o.times x hx).1, Int.le_trans (o.times x hx).2 hl⟩

theorem sound_run {begun : Int} {as : List Action} (o : Sound p begun s)
    (h : (system p).run s as = some t) : Sound p begun t :=
  Transition.System.run_invariant (M := system p) (G := fun _ _ => True)
    (fun _ _ _ o _ h => sound_step o h) o Transition.System.along_true h

def turns (id : Nat) (taken : List Taken) : List Taken := taken.filter fun x => x.id = id

def nextDue (due interval : Int) : List Taken → Int
  | [] => due
  | x :: _ => x.time + interval

def Linked (due interval : Int) : List Taken → Prop
  | [] => True
  | x :: earlier => x.due = nextDue due interval earlier ∧ Linked due interval earlier

structure Follows (id : Nat) (due interval : Int) (s : TimerService) : Prop where
  issued : id ∈ s.issued
  linked : Linked due interval (turns id s.taken)
  timer : ∀ timer, s.timers id = some timer →
    timer = ⟨nextDue due interval (turns id s.taken), interval⟩
  once : interval ≤ 0 → turns id s.taken ≠ [] →
    s.timers id = none ∧ (turns id s.taken).length = 1

variable {id : Nat} {due interval : Int}

theorem follows_add {begun : Int} (o : Sound p begun s)
    (h : step p s (.add id due interval) = some t) : Follows id due interval t := by
  obtain ⟨hn, rfl⟩ := step_add h
  have hnone : turns id s.taken = [] := by
    refine List.filter_eq_nil_iff.mpr fun x hx he => hn ?_
    have he : x.id = id := by simpa using he
    exact he ▸ o.issued x hx
  refine ⟨List.mem_cons_self, ?_, fun timer ht => ?_, fun _ hne => absurd hnone hne⟩
  · simp only [added, hnone, Linked]
  · simp only [added, Function.update_self, Option.some.injEq] at ht
    simp only [added, hnone, nextDue, ht]

theorem follows_update {i : Nat} {timer : Option Timer} (f : Follows id due interval s)
    (hi : i = id → timer = none) :
    Follows id due interval { s with timers := Function.update s.timers i timer } := by
  refine { f with timer := fun τ hτ => ?_, once := fun hl hne => ?_ }
  · by_cases he : id = i
    · subst he
      simp [hi rfl] at hτ
    · simp only [Function.update_of_ne he] at hτ
      exact f.timer τ hτ
  · obtain ⟨hnone, hlen⟩ := f.once hl hne
    refine ⟨?_, hlen⟩
    by_cases he : id = i
    · subst he
      simp [hi rfl]
    · simpa only [Function.update_of_ne he] using hnone

theorem follows_took {i : Nat} {timer : Timer} {time : Int} (f : Follows id due interval s)
    (ht : s.timers i = some timer) : Follows id due interval (s.took i timer time) := by
  by_cases he : i = id
  · subst he
    have htimer := f.timer timer ht
    have hturns : turns i (s.took i timer time).taken = ⟨i, timer.due, time⟩ :: turns i s.taken := by
      simp [turns, took]
    refine ⟨f.issued, ?_, fun τ hτ => ?_, fun hl _ => ?_⟩
    · rw [hturns]
      exact ⟨by rw [htimer], f.linked⟩
    · simp only [took, Function.update_self] at hτ
      rw [(again_some hτ).2, hturns, nextDue, htimer]
    · have hnil : turns i s.taken = [] := Decidable.byContradiction fun hne => by
        exact absurd (f.once hl hne).1 (by simp [ht])
      refine ⟨?_, by rw [hturns, hnil]; rfl⟩
      simp only [took, Function.update_self, htimer, again, if_neg (Int.not_lt.mpr hl)]
  · have hturns : turns id (s.took i timer time).taken = turns id s.taken := by
      simp [turns, took, he]
    have hs : (s.took i timer time).timers id = s.timers id :=
      Function.update_of_ne (Ne.symm he) _ _
    refine ⟨f.issued, hturns ▸ f.linked, fun τ hτ => ?_, fun hl hne => ?_⟩
    · rw [hturns]
      exact f.timer τ (hs.symm.trans hτ)
    · rw [hturns] at hne ⊢
      rw [hs]
      exact f.once hl hne

theorem follows_step {a : Action} (f : Follows id due interval s) (h : step p s a = some t) :
    Follows id due interval t := by
  cases a with
  | elapse usecs =>
    cases h
    exact { f with }
  | add i expire period =>
    obtain ⟨hn, rfl⟩ := step_add h
    have hne : i ≠ id := fun he => hn (he ▸ f.issued)
    have hf : Follows id due interval { s with
        timers := Function.update s.timers i (some ⟨expire, period⟩) } :=
      follows_update f fun he => absurd he hne
    exact { hf with issued := List.mem_cons_of_mem _ f.issued }
  | cancel i =>
    cases h
    exact follows_update f fun _ => rfl
  | take i time =>
    obtain ⟨timer, ht, -, -, -, rfl⟩ := step_take h
    exact follows_took f ht

theorem follows_run {as : List Action} (f : Follows id due interval s)
    (h : (system p).run s as = some t) : Follows id due interval t :=
  Transition.System.run_invariant (M := system p) (G := fun _ _ => True)
    (fun _ _ _ f _ h => follows_step f h) f Transition.System.along_true h

theorem linked_suffix {l l' : List Taken} (h : Linked due interval l) (hs : l' <:+ l) :
    Linked due interval l' := by
  induction l with
  | nil => rwa [List.suffix_nil.mp hs]
  | cons x rest ih =>
    rcases List.suffix_cons_iff.mp hs with rfl | hs
    · exact h
    · exact ih h.2 hs

theorem linked_apart {early : Int} {l : List Taken} (h : Linked due interval l)
    (he : ∀ x ∈ l, x.due < x.time + early) {x : Taken} {earlier : List Taken}
    (hs : x :: earlier <:+ l) :
    due + earlier.length * interval < x.time + (earlier.length + 1) * early := by
  induction l generalizing x earlier with
  | nil => exact absurd (List.suffix_nil.mp hs) (List.cons_ne_nil _ _)
  | cons y rest ih =>
    have hrest {x : Taken} {earlier : List Taken} (hs : x :: earlier <:+ rest) :=
      ih h.2 (fun z hz => he z (List.mem_cons_of_mem _ hz)) hs
    rcases List.suffix_cons_iff.mp hs with heq | hs
    · obtain ⟨rfl, rfl⟩ := List.cons.inj heq
      have hx := he x List.mem_cons_self
      rw [h.1] at hx
      cases earlier with
      | nil => simpa [nextDue] using hx
      | cons z zs =>
        have hz := hrest (List.suffix_refl (z :: zs))
        simp only [nextDue] at hx
        simp only [List.length_cons, Int.natCast_add, Int.natCast_one, Int.add_mul, Int.one_mul] at hz ⊢
        omega
    · exact hrest hs

end TimerService
