import Pedronet.EventLoop

namespace Pedronet
namespace EventLoop
namespace Exclusive

inductive Runner where
  | load
  | exchange (expected : BitVec 32)
  | test
  | body
  | returned
deriving DecidableEq, Repr

inductive Closer where
  | called
  | cleared
  | returned
deriving DecidableEq, Repr

-- Every call of Loop and of Close that has been made, on whatever thread.
structure World where
  state : BitVec 32
  loops : List Runner
  closers : List Closer
deriving DecidableEq, Repr

inductive Action where
  | loop
  | load (index : Nat)
  | exchange (index : Nat)
  | test (index : Nat)
  | leave (index : Nat)
  | close
  | clear (index : Nat)
  | finish (index : Nat)
deriving DecidableEq, Repr

def World.init : World := ⟨0, [], []⟩

def step (w : World) : Action → Option World
  | .loop => some { w with loops := w.loops ++ [.load] }
  | .load index =>
    match w.loops[index]? with
    | some .load =>
      some { w with
        loops := w.loops.set index (if looping w.state then .returned else .exchange w.state) }
    | _ => none
  | .exchange index =>
    match w.loops[index]? with
    | some (.exchange expected) =>
      if w.state = expected then
        some { w with state := kLooping ||| kJoinable, loops := w.loops.set index .test }
      else some { w with loops := w.loops.set index .load }
    | _ => none
  | .test index =>
    match w.loops[index]? with
    | some .test =>
      some { w with loops := w.loops.set index (if looping w.state then .body else .returned) }
    | _ => none
  | .leave index =>
    match w.loops[index]? with
    | some .body => some { w with loops := w.loops.set index .test }
    | _ => none
  | .close => some { w with closers := w.closers ++ [.called] }
  | .clear index =>
    match w.closers[index]? with
    | some .called =>
      some { w with state := w.state &&& ~~~kLooping, closers := w.closers.set index .cleared }
    | _ => none
  | .finish index =>
    match w.closers[index]? with
    | some .cleared => some { w with closers := w.closers.set index .returned }
    | _ => none

def system : Transition.System World Action where
  start w := w = .init
  step := step

variable {w t : World} {index : Nat}

theorem step_load (h : step w (.load index) = some t) :
    w.loops[index]? = some .load ∧
      t = { w with
        loops := w.loops.set index (if looping w.state then .returned else .exchange w.state) } := by
  simp only [step] at h
  split at h
  · rename_i hr
    exact ⟨hr, by simpa using h.symm⟩
  · cases h

theorem step_exchange (h : step w (.exchange index) = some t) :
    ∃ expected, w.loops[index]? = some (.exchange expected) ∧
      ((w.state = expected ∧
          t = { w with state := kLooping ||| kJoinable, loops := w.loops.set index .test }) ∨
        (w.state ≠ expected ∧ t = { w with loops := w.loops.set index .load })) := by
  simp only [step] at h
  split at h
  · rename_i expected hr
    refine ⟨expected, hr, ?_⟩
    split at h
    · rename_i he
      exact .inl ⟨he, by simpa using h.symm⟩
    · rename_i he
      exact .inr ⟨he, by simpa using h.symm⟩
  · cases h

theorem step_test (h : step w (.test index) = some t) :
    w.loops[index]? = some .test ∧
      t = { w with loops := w.loops.set index (if looping w.state then .body else .returned) } := by
  simp only [step] at h
  split at h
  · rename_i hr
    exact ⟨hr, by simpa using h.symm⟩
  · cases h

theorem step_leave (h : step w (.leave index) = some t) :
    w.loops[index]? = some .body ∧ t = { w with loops := w.loops.set index .test } := by
  simp only [step] at h
  split at h
  · rename_i hr
    exact ⟨hr, by simpa using h.symm⟩
  · cases h

theorem step_clear (h : step w (.clear index) = some t) :
    w.closers[index]? = some .called ∧
      t = { w with state := w.state &&& ~~~kLooping, closers := w.closers.set index .cleared } := by
  simp only [step] at h
  split at h
  · rename_i hc
    exact ⟨hc, by simpa using h.symm⟩
  · cases h

theorem step_finish (h : step w (.finish index) = some t) :
    w.closers[index]? = some .cleared ∧
      t = { w with closers := w.closers.set index .returned } := by
  simp only [step] at h
  split at h
  · rename_i hc
    exact ⟨hc, by simpa using h.symm⟩
  · cases h

def Runner.inBody (r : Runner) : Bool := r = .body

def Runner.entered : Runner → Bool
  | .test | .body => true
  | _ => false

def StaysClosed (w : World) : Prop :=
  w.loops.countP Runner.inBody ≤ 1 ∧ (.returned ∈ w.closers → looping w.state = false)

def Settled (w : World) : Prop :=
  StaysClosed w ∧ ∀ index t, step w (.finish index) = some t → StaysClosed t

def Closed (w : World) : Prop := ∃ c ∈ w.closers, c ≠ .called

instance (w : World) : Decidable (Closed w) := inferInstanceAs (Decidable (∃ _ ∈ _, _))

def KeepsClosed (w : World) : Action → Prop
  | .exchange index => w.loops[index]? = some (.exchange w.state) → ¬ Closed w
  | _ => True

instance (w : World) : DecidablePred (KeepsClosed w)
  | .exchange _ => inferInstanceAs (Decidable (_ → _))
  | .loop | .load _ | .test _ | .leave _ | .close | .clear _ | .finish _ => isTrue trivial

structure Entered (w : World) : Prop where
  expected (e : BitVec 32) : .exchange e ∈ w.loops → looping e = false
  entered : ¬ Closed w → w.loops.countP Runner.entered = (looping w.state).toNat

theorem looping_clear (state : BitVec 32) : looping (state &&& ~~~kLooping) = false := by
  simp [looping, BitVec.and_assoc]

theorem body_entered (loops : List Runner) :
    loops.countP Runner.inBody ≤ loops.countP Runner.entered := by
  refine List.countP_mono_left fun r _ hr => ?_
  rw [of_decide_eq_true hr]
  rfl

theorem body_set {loops : List Runner} {a b : Runner} (h : loops[index]? = some a)
    (hb : b.inBody = false) :
    (loops.set index b).countP Runner.inBody ≤ loops.countP Runner.inBody := by
  have hset := Pool.count_set (b := b) Runner.inBody h
  simp only [hb, Bool.false_eq_true, if_false] at hset
  omega

theorem settled_iff : Settled w ↔
    w.loops.countP Runner.inBody ≤ 1 ∧ (Closed w → looping w.state = false) := by
  constructor
  · rintro ⟨⟨hb, hs⟩, hf⟩
    refine ⟨hb, ?_⟩
    rintro ⟨c, hc, hne⟩
    cases c with
    | called => exact absurd rfl hne
    | cleared =>
      obtain ⟨index, hi⟩ := List.mem_iff_getElem?.mp hc
      have hlt := (List.getElem?_eq_some_iff.mp hi).1
      have ht := hf index { w with closers := w.closers.set index .returned } (by simp [step, hi])
      exact ht.2 (List.mem_set hlt _)
    | returned => exact hs hc
  · rintro ⟨hb, hs⟩
    refine ⟨⟨hb, fun hr => hs ⟨_, hr, by simp⟩⟩, fun index t h => ?_⟩
    obtain ⟨hc, rfl⟩ := step_finish h
    exact ⟨hb, fun _ => hs ⟨_, List.mem_of_getElem? hc, by simp⟩⟩

theorem closed_called : Closed { w with closers := w.closers ++ [.called] } ↔ Closed w := by
  simp [Closed, or_and_right]

theorem closed_set {state : BitVec 32} {loops : List Runner} {closers : List Closer} {a b : Closer}
    (ha : closers[index]? = some a) (hb : b ≠ .called) :
    Closed ⟨state, loops, closers.set index b⟩ :=
  ⟨b, List.mem_set (List.getElem?_eq_some_iff.mp ha).1 _, hb⟩

theorem looping_entered : looping (kLooping ||| kJoinable) = true := by decide

theorem entered_set {state : BitVec 32} {a b : Runner} (s : Entered w)
    (h : w.loops[index]? = some a) (hb : ∀ e, .exchange e = b → looping e = false)
    (hn : ¬ Closed w → (w.loops.set index b).countP Runner.entered = (looping state).toNat) :
    Entered { w with state := state, loops := w.loops.set index b } where
  expected e he := by
    rcases Pool.mem_set h he with he | he
    · exact hb e he
    · exact s.expected e he
  entered := hn

theorem entered_step {a : Action} (s : Entered w) (h : step w a = some t) : Entered t := by
  cases a with
  | loop =>
    cases h
    refine ⟨fun e he => s.expected e (by simpa using he), fun hc => ?_⟩
    simpa [List.countP_append, Runner.entered] using s.entered hc
  | load index =>
    obtain ⟨hr, rfl⟩ := step_load h
    refine entered_set s hr (fun e he => ?_) fun hc => ?_
    · split at he
      · cases he
      · rename_i hl
        cases he
        simpa using hl
    · have hset := Pool.count_set (b := if looping w.state then .returned else .exchange w.state)
        Runner.entered hr
      have := s.entered hc
      split at hset <;> simp_all [Runner.entered]
  | exchange index =>
    obtain ⟨expected, hr, ⟨rfl, rfl⟩ | ⟨-, rfl⟩⟩ := step_exchange h
    · refine entered_set s hr (fun e he => by cases he) fun hc => ?_
      have hset := Pool.count_set (b := .test) Runner.entered hr
      have hw := s.entered hc
      rw [s.expected _ (List.mem_of_getElem? hr)] at hw
      simpa [Runner.entered, hw, looping_entered] using hset
    · refine entered_set s hr (fun e he => by cases he) fun hc => ?_
      have hset := Pool.count_set (b := .load) Runner.entered hr
      simpa [Runner.entered, s.entered hc] using hset
  | test index =>
    obtain ⟨hr, rfl⟩ := step_test h
    refine entered_set s hr (fun e he => ?_) fun hc => ?_
    · split at he <;> cases he
    · have hset := Pool.count_set (b := if looping w.state then .body else .returned)
        Runner.entered hr
      have hpos : 0 < w.loops.countP Runner.entered :=
        List.countP_pos_iff.mpr ⟨_, List.mem_of_getElem? hr, rfl⟩
      have := s.entered hc
      cases hl : looping w.state <;> simp_all [Runner.entered]
  | leave index =>
    obtain ⟨hr, rfl⟩ := step_leave h
    refine entered_set s hr (fun e he => by cases he) fun hc => ?_
    have hset := Pool.count_set (b := .test) Runner.entered hr
    simpa [Runner.entered, s.entered hc] using hset
  | close =>
    cases h
    exact ⟨s.expected, fun hc => s.entered fun hw => hc (closed_called.mpr hw)⟩
  | clear index =>
    obtain ⟨hc, rfl⟩ := step_clear h
    exact ⟨s.expected, fun hn => absurd (closed_set hc (by simp)) hn⟩
  | finish index =>
    obtain ⟨hc, rfl⟩ := step_finish h
    exact ⟨s.expected, fun hn => absurd (closed_set hc (by simp)) hn⟩

theorem entered_init : Entered .init where
  expected _ h := by cases h
  entered _ := rfl

theorem settled_step {a : Action} (s : Entered w) (hw : Settled w) (h : step w a = some t) :
    Settled t ↔ KeepsClosed w a := by
  rw [settled_iff] at hw ⊢
  obtain ⟨hb, hs⟩ := hw
  cases a with
  | loop =>
    cases h
    refine iff_of_true ⟨?_, hs⟩ trivial
    simpa [List.countP_append, Runner.inBody] using hb
  | load index =>
    obtain ⟨hr, rfl⟩ := step_load h
    refine iff_of_true ⟨Nat.le_trans (body_set hr ?_) hb, hs⟩ trivial
    split <;> rfl
  | exchange index =>
    obtain ⟨expected, hr, ⟨rfl, rfl⟩ | ⟨hne, rfl⟩⟩ := step_exchange h
    · constructor
      · rintro ⟨-, ht⟩ - hc
        exact absurd (ht hc) (by simp [looping_entered])
      · intro ha
        exact ⟨Nat.le_trans (body_set hr rfl) hb, fun hc => absurd hc (ha hr)⟩
    · refine iff_of_true ⟨Nat.le_trans (body_set hr rfl) hb, hs⟩ fun he => ?_
      rw [hr] at he
      cases he
      exact absurd rfl hne
  | test index =>
    obtain ⟨hr, rfl⟩ := step_test h
    refine iff_of_true ⟨?_, hs⟩ trivial
    cases hl : looping w.state with
    | false => exact Nat.le_trans (body_set hr rfl) hb
    | true =>
      have hc : ¬ Closed w := fun hc => by simp [hs hc] at hl
      have he := s.entered hc
      -- The call at the test is the one that has entered, so none is in the body.
      have hleave := Pool.count_set (b := .load) Runner.entered hr
      have hnone := body_entered (w.loops.set index .load)
      have hsame := Pool.count_set (b := .load) Runner.inBody hr
      have hset := Pool.count_set (b := .body) Runner.inBody hr
      simp [Runner.entered, Runner.inBody, hl] at he hleave hsame hset
      simp only [if_true]
      omega
  | leave index =>
    obtain ⟨hr, rfl⟩ := step_leave h
    exact iff_of_true ⟨Nat.le_trans (body_set hr rfl) hb, hs⟩ trivial
  | close =>
    cases h
    exact iff_of_true ⟨hb, fun hc => hs (closed_called.mp hc)⟩ trivial
  | clear index =>
    obtain ⟨-, rfl⟩ := step_clear h
    exact iff_of_true ⟨hb, fun _ => looping_clear _⟩ trivial
  | finish index =>
    obtain ⟨hc, rfl⟩ := step_finish h
    exact iff_of_true ⟨hb, fun _ => hs ⟨_, List.mem_of_getElem? hc, by simp⟩⟩ trivial

theorem stays_closed_iff (as : List Action) :
    system.Always Settled .init as ↔ system.Along KeepsClosed .init as :=
  Transition.System.always_iff_along (I := Entered) (F := fun _ _ => True)
    (fun _ _ _ s _ h => entered_step s h) (fun _ _ _ s hw _ h => settled_step s hw h) entered_init
    (settled_iff.mpr ⟨Nat.zero_le _, fun _ => rfl⟩) Transition.System.along_true

def closedFirst : List Action := [.close, .clear 0, .finish 0, .loop, .load 0, .exchange 0]

theorem loops_after_close : ¬ ∀ as, system.Always StaysClosed .init as := by
  intro h
  have hl := Transition.System.always_last (h closedFirst) rfl
  exact absurd (hl.2 (by decide)) (by decide)

section
variable {Q : EventQueue Callback}

def runner : LoopPc → Runner
  | .load => .load
  | .exchange expected => .exchange expected
  | .test => .test
  | .wait | .batch _ | .handling _ | .processing _ => .body
  | .returned => .returned

def closer : ClosePc → List Closer
  | .idle => []
  | .called _ => [.called]
  | .cleared _ => [.cleared]
  | .scheduled => [.returned]

def view (w : EventLoop.World Q) : World := ⟨w.state, [runner w.pc], closer w.closing⟩

-- What the loop thread does with its channels and queue is one body here.
theorem view_step {w t : EventLoop.World Q} {a : EventLoop.Action Q}
    (h : EventLoop.step w a = some t) : view t = view w ∨ ∃ b, step (view w) b = some (view t) := by
  cases a with
  | load =>
    obtain ⟨hpc, rfl⟩ := EventLoop.step_load h
    refine .inr ⟨.load 0, ?_⟩
    cases hl : looping w.state <;> simp [step, view, hpc, runner, hl]
  | exchange =>
    simp only [EventLoop.step] at h
    split at h
    · rename_i expected hpc
      refine .inr ⟨.exchange 0, ?_⟩
      split at h <;> cases h <;> simp_all [step, view, runner]
    · cases h
  | test =>
    obtain ⟨hpc, rfl⟩ := EventLoop.step_test h
    refine .inr ⟨.test 0, ?_⟩
    cases hl : looping w.state <;> simp [step, view, hpc, runner, hl]
  | wait ready =>
    obtain ⟨hpc, rfl | ⟨batch, rfl⟩⟩ := EventLoop.step_wait h
    · exact .inr ⟨.leave 0, by simp [step, view, hpc, runner]⟩
    · exact .inl (by simp [view, hpc, runner])
  | next =>
    obtain ⟨rest, hpc, ⟨more, queue, -, rfl⟩ | ⟨pc, rfl | ⟨more, rfl | rfl⟩, rfl⟩⟩ :=
      EventLoop.step_next h
    · exact .inl (by simp [view, hpc, runner])
    · exact .inr ⟨.leave 0, by simp [step, view, hpc, runner]⟩
    · exact .inl (by simp [view, hpc, runner])
    · exact .inl (by simp [view, hpc, runner])
  | leave =>
    obtain ⟨rest, hpc, rfl⟩ := EventLoop.step_leave h
    exact .inl (by simp [view, hpc, runner])
  | process choice =>
    obtain ⟨rest, queue, hpc, -, rfl⟩ := EventLoop.step_process h
    left
    unfold World.follow
    split <;> simp [view, hpc, runner]
  | resume =>
    obtain ⟨rest, queue, hpc, -, rfl⟩ := EventLoop.step_resume h
    exact .inl rfl
  | schedule own =>
    obtain ⟨queue, -, rfl⟩ := EventLoop.step_schedule h
    exact .inl rfl
  | advance index =>
    obtain ⟨queue, -, rfl⟩ := EventLoop.step_advance h
    exact .inl rfl
  | close own =>
    obtain ⟨hc, rfl⟩ := EventLoop.step_close h
    exact .inr ⟨.close, by simp [step, view, hc, closer]⟩
  | clear =>
    obtain ⟨own, hc, rfl⟩ := EventLoop.step_clear h
    exact .inr ⟨.clear 0, by simp [step, view, hc, closer]⟩
  | scheduleClose =>
    obtain ⟨own, queue, hc, -, rfl⟩ := EventLoop.step_schedule_close h
    exact .inr ⟨.finish 0, by simp [step, view, hc, closer]⟩

theorem view_run {w : EventLoop.World Q} {as : List (EventLoop.Action Q)}
    (h : (EventLoop.system Q).run (.init Q) as = some w) :
    ∃ bs, system.run .init bs = some (view w) := by
  have hstep (w : EventLoop.World Q) (a : EventLoop.Action Q) (t : EventLoop.World Q) (u : World)
      (hr : u = view w) (h : (EventLoop.system Q).step w a = some t) :
      ∃ bs v, system.run u bs = some v ∧ v = view t := by
    subst hr
    rcases view_step h with he | ⟨b, hb⟩
    · exact ⟨[], _, rfl, he.symm⟩
    · exact ⟨[b], _, by simp [Transition.System.run, system, hb], rfl⟩
  obtain ⟨bs, u, hu, rfl⟩ := Transition.System.run_simulated hstep rfl h
  exact ⟨.loop :: bs, hu⟩

end

end Exclusive
end EventLoop
end Pedronet
