import Pedronet.EventLoopGroup.Tasks

namespace Pedronet
namespace EventLoopGroup
namespace Tasks
open EventLoop (Callback)
variable {Q : EventQueue Callback} {o : Options} {g t : Tasks Q} {i : Nat}

def Once : Action Q → Prop
  | .loop _ action | .closeLoop action => EventLoop.Once action
  | _ => True

-- The loops go on and HandleJoin joins their threads; nobody calls the group.
def Onward : Action Q → Prop
  | .loop _ action => EventLoop.Onward action
  | .join => True
  | _ => False

theorem scheduled_step {w u : EventLoop.World Q} {a : EventLoop.Action Q}
    (hc : w.closing = .scheduled) (h : EventLoop.step w a = some u) : u.closing = .scheduled := by
  cases a with
  | schedule own =>
    obtain ⟨queue, -, rfl⟩ := EventLoop.step_schedule h
    exact hc
  | close own =>
    obtain ⟨hi, -⟩ := EventLoop.step_close h
    rw [hc] at hi
    cases hi
  | clear =>
    obtain ⟨own, hi, -⟩ := EventLoop.step_clear h
    rw [hc] at hi
    cases hi
  | scheduleClose =>
    obtain ⟨own, queue, hi, -⟩ := EventLoop.step_schedule_close h
    rw [hc] at hi
    cases hi
  | _ =>
    refine (EventLoop.goes_on_closing ?_ h).trans hc
    trivial

theorem returned_stays {w u : EventLoop.World Q} {a : EventLoop.Action Q} (s : EventLoop.Sound w)
    (hr : w.pc = .returned) (h : EventLoop.step w a = some u) : u.pc = .returned := by
  by_cases ha : a = .test
  · subst ha
    obtain ⟨hpc, -⟩ := EventLoop.step_test h
    rw [hr] at hpc
    cases hpc
  · rcases EventLoop.keeps_left s h ha with ⟨-, ht, -⟩ | ⟨hn, -⟩
    · exact ht
    · exact absurd hr hn

theorem keeps {I : EventLoop.World Q → Prop}
    (hI : ∀ w a u, I w → EventLoop.step w a = some u → I u) {a : Action Q}
    (h : step o g a = some t) (hi : I (g.loops i)) : I (t.loops i) :=
  Transition.System.run_invariant (M := EventLoop.system Q) (G := fun _ _ => True)
    (fun w a u hw _ hs => hI w a u hw hs) hi Transition.System.along_true (on_loop_step h)

structure Grouped (o : Options) (g : Tasks Q) : Prop where
  sound : ∀ i, EventLoop.Sound (g.loops i)
  scheduled : ∀ k, g.closing = some k → ∀ i, i < k → (g.loops i).closing = .scheduled
  joined : g.joined ≤ o.size
  returned : ∀ i, i < g.joined → (g.loops i).pc = .returned

theorem grouped_create (start : BitVec 64) : Grouped o (create Q start) where
  sound _ := EventLoop.sound_init
  scheduled _ h := by cases h
  joined := Nat.zero_le _
  returned _ h := by cases h

theorem grouped_step {a : Action Q} (d : Grouped o g) (h : step o g a = some t) :
    Grouped o t := by
  have hsound : ∀ i, EventLoop.Sound (t.loops i) := fun i =>
    keeps (fun _ _ _ s hs => EventLoop.sound_step s hs) h (d.sound i)
  have hsched : ∀ i, (g.loops i).closing = .scheduled → (t.loops i).closing = .scheduled :=
    fun i => keeps (I := fun w => w.closing = .scheduled)
      (fun _ _ _ hc hs => scheduled_step hc hs) h
  have hret : ∀ i, (g.loops i).pc = .returned → (t.loops i).pc = .returned := fun i hr =>
    (keeps (I := fun w => EventLoop.Sound w ∧ w.pc = .returned)
      (fun _ _ _ hw hs => ⟨EventLoop.sound_step hw.1 hs, returned_stays hw.1 hw.2 hs⟩) h
      ⟨d.sound i, hr⟩).2
  have hclosing : t.closing = g.closing →
      ∀ k, t.closing = some k → ∀ i, i < k → (t.loops i).closing = .scheduled :=
    fun hc k hk i hi => hsched i (d.scheduled k (hc ▸ hk) i hi)
  have hjoined : t.joined = g.joined → t.joined ≤ o.size ∧
      ∀ i, i < t.joined → (t.loops i).pc = .returned :=
    fun hj => ⟨hj ▸ d.joined, fun i hi => hret i (d.returned i (hj ▸ hi))⟩
  rcases step_cases h with ⟨-, -, hc, hj⟩ | ⟨-, -, ⟨hc, hj⟩ | ⟨hc, hj⟩ | ⟨loop, hg, hm, hc, hj⟩ |
    ⟨hlt, hr, hc, hj⟩⟩
  · exact ⟨hsound, hclosing hc, (hjoined hj).1, (hjoined hj).2⟩
  · exact ⟨hsound, hclosing hc, (hjoined hj).1, (hjoined hj).2⟩
  · refine ⟨hsound, fun k hk i hi => ?_, (hjoined hj).1, (hjoined hj).2⟩
    cases hc.symm.trans hk
    cases hi
  · refine ⟨hsound, fun k hk i hi => ?_, (hjoined hj).1, (hjoined hj).2⟩
    cases hc.symm.trans hk
    rcases Nat.lt_succ_iff_lt_or_eq.mp hi with hlt | rfl
    · exact hsched i (d.scheduled loop hg i hlt)
    · have s := d.sound i
      exact hsched i (s.unclosed (List.mem_append_left _ (s.logged.2 _ hm)))
  · refine ⟨hsound, hclosing hc, hj ▸ hlt, fun i hi => ?_⟩
    rw [hj] at hi
    rcases Nat.lt_succ_iff_lt_or_eq.mp hi with hlt | rfl
    · exact hret i (d.returned i hlt)
    · exact hret _ hr

theorem grouped_run {start : BitVec 64} {as : List (Action Q)}
    (h : (system Q o).run (create Q start) as = some g) : Grouped o g :=
  Transition.System.run_invariant (M := system Q o) (G := fun _ _ => True)
    (fun _ _ _ d _ hs => grouped_step d hs) (grouped_create start) Transition.System.along_true h

theorem on_loop_once {a : Action Q} (ha : Once a) :
    ∀ b ∈ onLoop i g a, EventLoop.Once b := by
  intro b hb
  cases a with
  | enter index own =>
    simp only [onLoop] at hb
    split at hb
    · cases List.mem_singleton.mp hb
      trivial
    · cases hb
  | loop loop action =>
    simp only [onLoop] at hb
    split at hb
    · cases List.mem_singleton.mp hb
      exact ha
    · cases hb
  | closeLoop action =>
    simp only [onLoop] at hb
    split at hb
    · cases List.mem_singleton.mp hb
      exact ha
    · cases hb
  | next | schedule | close | closed | join => cases hb

def ranLoop (o : Options) (start : BitVec 64) (as : List (Action Q)) (i : Nat) :
    List (EventLoop.Action Q) := (system Q o).trace (onLoop i) (create Q start) as

-- Every loop that is closed was running by then.
def AllStarted (o : Options) (start : BitVec 64) (as : List (Action Q)) : Prop :=
  ∀ i, i < o.size →
    (EventLoop.system Q).Along EventLoop.Started (.init Q) (ranLoop o start as i)

theorem live_loop {start : BitVec 64} {as : List (Action Q)}
    (h : (system Q o).run (create Q start) as = some g) (ho : ∀ a ∈ as, Once a) :
    EventLoop.Live (g.loops i) :=
  EventLoop.live_run (run_loop h)
    (Transition.System.mem_trace fun a ha _ => on_loop_once (ho a ha))

theorem set_loop_self (g : Tasks Q) (loop : Nat) : g.setLoop loop (g.loops loop) = g := by
  have hf : (fun i => if i = loop then g.loops loop else g.loops i) = g.loops := by
    funext i
    split
    · rename_i hi
      rw [hi]
    · rfl
  rw [setLoop, hf]

theorem set_loop_set (g : Tasks Q) (loop : Nat) (v w : EventLoop.World Q) :
    (g.setLoop loop v).setLoop loop w = g.setLoop loop w := by
  simp only [setLoop, Tasks.mk.injEq, and_self, and_true]
  funext i
  split <;> rfl

theorem lift_leads {loop : Nat} {u : EventLoop.World Q} (hl : loop < o.size)
    (h : (EventLoop.system Q).Leads EventLoop.Onward (g.loops loop) u) :
    (system Q o).Leads Onward g (g.setLoop loop u) := by
  obtain ⟨as, ha, hr⟩ := h
  induction as generalizing g with
  | nil =>
    cases hr
    rw [set_loop_self]
    exact Transition.System.reaches_refl
  | cons a as ih =>
    obtain ⟨v, hv, hu⟩ := Transition.System.run_cons hr
    obtain ⟨ha', has⟩ := ha v hv
    have hcl : closes a = false := by
      cases a with
      | close own | clear | scheduleClose => exact ha'.1.elim
      | _ => rfl
    have hs : (system Q o).step g (.loop loop a) = some (g.setLoop loop v) := by
      have hv' : EventLoop.step (g.loops loop) a = some v := hv
      simp only [system, step, hl, hcl, and_self, if_true, hv', Option.map_some]
    have hat : (g.setLoop loop v).loops loop = v := by simp [setLoop]
    have hlead := ih (g := g.setLoop loop v) (hat.symm ▸ has) (hat.symm ▸ hu)
    rw [set_loop_set] at hlead
    exact Transition.System.reaches_cons (a := .loop loop a) ha' hs hlead

structure Ends (o : Options) (g : Tasks Q) : Prop where
  live : ∀ i, i < o.size → EventLoop.Live (g.loops i)
  ending : ∀ i, i < o.size → EventLoop.Ending (g.loops i)

theorem loops_return (p : EventQueue.Progress Q) (e : Ends o g) (k : Nat) (hk : k ≤ o.size) :
    ∃ u, (system Q o).Leads Onward g u ∧ Ends o u ∧ u.joined = g.joined ∧
      ∀ i, i < k → (u.loops i).pc = .returned := by
  induction k with
  | zero => exact ⟨g, Transition.System.reaches_refl, e, rfl, fun i hi => by cases hi⟩
  | succ k ih =>
    obtain ⟨u, hu, eu, hj, hr⟩ := ih (Nat.le_of_succ_le hk)
    obtain ⟨w, hw, hpc⟩ := EventLoop.ending_returns p (eu.live k hk) (eu.ending k hk)
    have hlead := lift_leads hk hw
    refine ⟨_, Transition.System.reaches_trans hu hlead, ⟨fun i hi => ?_, fun i hi => ?_⟩, hj,
      fun i hi => ?_⟩
    · by_cases he : i = k
      · simp only [setLoop, he, if_true]
        exact EventLoop.live_leads (eu.live k hk) hw
      · simp only [setLoop, he, if_false]
        exact eu.live i hi
    · by_cases he : i = k
      · simp only [setLoop, he, if_true]
        exact EventLoop.ending_leads (eu.ending k hk) hw
      · simp only [setLoop, he, if_false]
        exact eu.ending i hi
    · by_cases he : i = k
      · simp only [setLoop, he, if_true]
        exact hpc
      · simp only [setLoop, he, if_false]
        exact hr i (by omega)

theorem threads_join (hj : g.joined ≤ o.size) (hr : ∀ i, i < o.size → (g.loops i).pc = .returned) :
    ∃ u, (system Q o).Leads Onward g u ∧ u.joined = o.size := by
  have hstep : ∀ u : Tasks Q, (u.joined ≤ o.size ∧ ∀ i, i < o.size → (u.loops i).pc = .returned) →
      ¬ u.joined = o.size → ∃ x, (system Q o).Leads Onward u x ∧
        (x.joined ≤ o.size ∧ ∀ i, i < o.size → (x.loops i).pc = .returned) ∧
          o.size - x.joined < o.size - u.joined := by
    rintro u ⟨hj, hr⟩ hn
    have hlt : u.joined < o.size := Nat.lt_of_le_of_ne hj hn
    have hs : (system Q o).step u .join = some { u with joined := u.joined + 1 } := by
      simp only [system, step, hlt, hr _ hlt, and_self, if_true]
    refine ⟨_, Transition.System.reaches_step (a := .join) trivial hs, ⟨hlt, hr⟩, ?_⟩
    simp only
    omega
  obtain ⟨u, hu, -, hg⟩ := Transition.System.reaches_of_measure _ hstep ⟨hj, hr⟩
  exact ⟨u, hu, hg⟩

theorem joins_or_never (type : EventQueueType) (o : Options) (start : BitVec 64)
    (as : List (Action (makeEventQueue Callback type))) {g : Tasks (makeEventQueue Callback type)}
    (h : (system _ o).run (create _ start) as = some g) (ho : ∀ a ∈ as, Once a)
    (hc : g.closing = some o.size) :
    (AllStarted o start as → ∃ u, (system _ o).Leads Onward g u ∧ u.joined = o.size) ∧
      (¬ AllStarted o start as →
        ∀ bs u, (system _ o).run g bs = some u → u.joined ≠ o.size) := by
  obtain ⟨p⟩ := EventLoop.progress_make type
  have d := grouped_run h
  refine ⟨fun hs => ?_, fun hn bs u hu hj => hn fun i hi => ?_⟩
  · have e : Ends o g := ⟨fun i _ => live_loop h ho, fun i hi =>
      ⟨EventLoop.ran_run (run_loop h), (EventLoop.missed_iff_along (run_loop h)).mpr (hs i hi),
        d.scheduled o.size hc i hi⟩⟩
    obtain ⟨x, hx, -, hjoined, hr⟩ := loops_return p e o.size (Nat.le_refl _)
    obtain ⟨u, hu, hj⟩ := threads_join (hjoined ▸ d.joined) hr
    exact ⟨u, Transition.System.reaches_trans hx hu, hj⟩
  · have hrun := Transition.System.run_append.mpr ⟨g, h, hu⟩
    have hr := (grouped_run hrun).returned i (hj ▸ hi)
    have hloop := run_loop (i := i) hrun
    have hnot : ¬ EventLoop.Missed (u.loops i) := fun m =>
      EventLoop.missed_not_returned (EventLoop.ran_run hloop) m hr
    have halong := (EventLoop.missed_iff_along hloop).mp hnot
    rw [Transition.System.trace_append h] at halong
    exact Transition.System.along_initial halong (List.prefix_append _ _)

-- The group is closed when the second thread has yet to come to Loop.
def closedEarly : List (Action (makeEventQueue Callback .kBlockingQueue)) :=
  [.loop 0 .load, .loop 0 .exchange, .close, .closeLoop (.close false), .closeLoop .clear,
    .closeLoop .scheduleClose, .loop 0 (.advance 0), .closed, .closeLoop (.close false),
    .closeLoop .clear, .closeLoop .scheduleClose, .loop 1 (.advance 0), .closed, .loop 0 .test,
    .join, .loop 1 .load, .loop 1 .exchange]

theorem never_joins_closed_early :
    ∃ g, (system _ ⟨2, by decide⟩).run (create _ 0) closedEarly = some g ∧ g.joined = 1 ∧
      ∀ bs u, (system _ ⟨2, by decide⟩).run g bs = some u → u.joined ≠ 2 := by
  obtain ⟨g, hg, hj, hc⟩ : ∃ g, (system _ ⟨2, by decide⟩).run (create _ 0) closedEarly = some g ∧
      g.joined = 1 ∧ g.closing = some 2 := ⟨_, rfl, rfl, rfl⟩
  have ho : ∀ a ∈ closedEarly, Once a := by simp [closedEarly, Once, EventLoop.Once]
  have hn : ¬ AllStarted ⟨2, by decide⟩ 0 closedEarly := fun hs =>
    absurd (hs 1 (by decide)) (by decide)
  exact ⟨g, hg, hj, (joins_or_never .kBlockingQueue ⟨2, by decide⟩ 0 closedEarly hg ho hc).2 hn⟩

end Tasks
end EventLoopGroup
end Pedronet
