import Pedronet.EventLoop.Returns
import Pedronet.EventLoopGroup
import Pedronet.RoundRobin
import Pedronet.Transition.Trace

namespace Pedronet
namespace EventLoopGroup
open EventLoop (Callback)

-- `calls` are the calls of Schedule that have drawn their loop, `closing` the loop to which
-- Close has come (one Close in a run, without the one that ~EventLoopGroup makes), `joined` the
-- threads that HandleJoin has joined; `drawn` is history: what next() has returned.
structure Tasks (Q : EventQueue Callback) where
  loops : Nat → EventLoop.World Q
  next : BitVec 64
  drawn : List Nat
  calls : List Nat
  closing : Option Nat
  joined : Nat

namespace Tasks

inductive Action (Q : EventQueue Callback) where
  | next
  | schedule
  | enter (index : Nat) (own : Bool)
  | loop (loop : Nat) (action : EventLoop.Action Q)
  | close
  | closeLoop (action : EventLoop.Action Q)
  | closed
  | join

-- The steps of a loop's Close up to its Add.
def closes {Q : EventQueue Callback} : EventLoop.Action Q → Bool
  | .close _ | .clear | .scheduleClose => true
  | _ => false

variable {Q : EventQueue Callback} (o : Options)

variable (Q) in
def create (next : BitVec 64) : Tasks Q := ⟨fun _ => .init Q, next, [], [], none, 0⟩

def draw (g : Tasks Q) : Tasks Q :=
  { g with next := g.next + 1, drawn := g.drawn ++ [g.next.toNat % o.size] }

def setLoop (g : Tasks Q) (loop : Nat) (world : EventLoop.World Q) : Tasks Q :=
  { g with loops := fun i => if i = loop then world else g.loops i }

def step (g : Tasks Q) : Action Q → Option (Tasks Q)
  | .next => some (g.draw o)
  | .schedule => some { g.draw o with calls := g.calls ++ [g.next.toNat % o.size] }
  | .enter index own =>
    match g.calls[index]? with
    | some loop =>
      (EventLoop.step (g.loops loop) (.schedule own)).map fun w =>
        { g.setLoop loop w with calls := g.calls.eraseIdx index }
    | none => none
  | .loop loop action =>
    if loop < o.size ∧ closes action = false then
      (EventLoop.step (g.loops loop) action).map (g.setLoop loop)
    else none
  | .close =>
    match g.closing with
    | none => some { g with closing := some 0 }
    | some _ => none
  | .closeLoop action =>
    match g.closing with
    | some loop =>
      if loop < o.size ∧ closes action = true then
        (EventLoop.step (g.loops loop) action).map (g.setLoop loop)
      else none
    | none => none
  | .closed =>
    match g.closing with
    | some loop =>
      if loop < o.size ∧ .close ∈ (g.loops loop).queue.returned then
        some { g with closing := some (loop + 1) }
      else none
    | none => none
  | .join =>
    if g.joined < o.size ∧ (g.loops g.joined).pc = .returned then
      some { g with joined := g.joined + 1 }
    else none

variable (Q) in
def system : Transition.System (Tasks Q) (Action Q) where
  start g := ∃ next, g = create Q next
  step := step o

def onLoop (i : Nat) (g : Tasks Q) : Action Q → List (EventLoop.Action Q)
  | .enter index own => if g.calls[index]? = some i then [.schedule own] else []
  | .loop loop action => if loop = i then [action] else []
  | .closeLoop action => if g.closing = some i then [action] else []
  | .next | .schedule | .close | .closed | .join => []

variable {o} {g t : Tasks Q} {i j : Nat}

theorem set_loop_run {loop : Nat} {action : EventLoop.Action Q} {w : EventLoop.World Q}
    (h : EventLoop.step (g.loops loop) action = some w) :
    (EventLoop.system Q).run (g.loops i) (if loop = i then [action] else []) =
      some ((g.setLoop loop w).loops i) := by
  by_cases hi : loop = i
  · subst hi
    have hs : (EventLoop.system Q).step (g.loops loop) action = some w := h
    simp [Transition.System.run, setLoop, hs]
  · have hne : i ≠ loop := fun he => hi he.symm
    simp [Transition.System.run, setLoop, hi, hne]

theorem on_loop_step {a : Action Q} (h : step o g a = some t) :
    (EventLoop.system Q).run (g.loops i) (onLoop i g a) = some (t.loops i) := by
  cases a with
  | next | schedule =>
    cases h
    rfl
  | enter index own =>
    simp only [step] at h
    split at h
    · rename_i loop hc
      obtain ⟨w, hw, rfl⟩ := Option.map_eq_some_iff.mp h
      simp only [onLoop, hc, Option.some.injEq]
      exact set_loop_run hw
    · cases h
  | loop loop action =>
    simp only [step] at h
    split at h
    · obtain ⟨w, hw, rfl⟩ := Option.map_eq_some_iff.mp h
      exact set_loop_run hw
    · cases h
  | close =>
    simp only [step] at h
    split at h
    · cases h
      rfl
    · cases h
  | closeLoop action =>
    simp only [step] at h
    split at h
    · rename_i loop hc
      split at h
      · obtain ⟨w, hw, rfl⟩ := Option.map_eq_some_iff.mp h
        simp only [onLoop, hc, Option.some.injEq]
        exact set_loop_run hw
      · cases h
    · cases h
  | closed =>
    simp only [step] at h
    split at h
    · split at h
      · cases h
        rfl
      · cases h
    · cases h
  | join =>
    simp only [step] at h
    split at h
    · cases h
      rfl
    · cases h

theorem run_loop {next : BitVec 64} {as : List (Action Q)}
    (h : (system Q o).run (create Q next) as = some g) :
    (EventLoop.system Q).run (.init Q) ((system Q o).trace (onLoop i) (create Q next) as) =
      some (g.loops i) := by
  obtain ⟨w, hw, rfl⟩ := Transition.System.run_refines (M := system Q o)
    (N := EventLoop.system Q) (R := fun g w => w = g.loops i)
    (fun _ _ _ _ hr hs => ⟨_, hr ▸ on_loop_step hs, rfl⟩) (u := .init Q) rfl h
  exact hw

theorem step_cases {a : Action Q} (h : step o g a = some t) :
    (t.next = g.next + 1 ∧ t.drawn = g.drawn ++ [g.next.toNat % o.size] ∧
        t.closing = g.closing ∧ t.joined = g.joined) ∨
      (t.next = g.next ∧ t.drawn = g.drawn ∧
        ((t.closing = g.closing ∧ t.joined = g.joined) ∨
          (t.closing = some 0 ∧ t.joined = g.joined) ∨
          (∃ loop, g.closing = some loop ∧ .close ∈ (g.loops loop).queue.returned ∧
            t.closing = some (loop + 1) ∧ t.joined = g.joined) ∨
          (g.joined < o.size ∧ (g.loops g.joined).pc = .returned ∧
            t.closing = g.closing ∧ t.joined = g.joined + 1))) := by
  cases a with
  | next | schedule =>
    cases h
    exact .inl ⟨rfl, rfl, rfl, rfl⟩
  | enter index own =>
    simp only [step] at h
    split at h
    · obtain ⟨w, -, rfl⟩ := Option.map_eq_some_iff.mp h
      exact .inr ⟨rfl, rfl, .inl ⟨rfl, rfl⟩⟩
    · cases h
  | loop loop action =>
    simp only [step] at h
    split at h
    · obtain ⟨w, -, rfl⟩ := Option.map_eq_some_iff.mp h
      exact .inr ⟨rfl, rfl, .inl ⟨rfl, rfl⟩⟩
    · cases h
  | close =>
    simp only [step] at h
    split at h
    · cases h
      exact .inr ⟨rfl, rfl, .inr (.inl ⟨rfl, rfl⟩)⟩
    · cases h
  | closeLoop action =>
    simp only [step] at h
    split at h
    · split at h
      · obtain ⟨w, -, rfl⟩ := Option.map_eq_some_iff.mp h
        exact .inr ⟨rfl, rfl, .inl ⟨rfl, rfl⟩⟩
      · cases h
    · cases h
  | closed =>
    simp only [step] at h
    split at h
    · rename_i loop hc
      split at h
      · rename_i hr
        cases h
        exact .inr ⟨rfl, rfl, .inr (.inr (.inl ⟨loop, hc, hr.2, rfl, rfl⟩))⟩
      · cases h
    · cases h
  | join =>
    simp only [step] at h
    split at h
    · rename_i hj
      cases h
      exact .inr ⟨rfl, rfl, .inr (.inr (.inr ⟨hj.1, hj.2, rfl, rfl⟩))⟩
    · cases h

structure Drawn (o : Options) (start : BitVec 64) (g : Tasks Q) : Prop where
  next : g.next = start + BitVec.ofNat 64 g.drawn.length
  shares : ∀ i, i < o.size → g.drawn.count i + RoundRobin.share o.size i start.toNat =
    RoundRobin.wrapped (2 ^ 64) o.size i (start.toNat + g.drawn.length)

theorem drawn_create (start : BitVec 64) : Drawn o start (create Q start) := by
  refine ⟨?_, fun i _ => ?_⟩
  · simp [create]
  · simp only [create, List.count_nil, Nat.zero_add, List.length_nil, Nat.add_zero]
    exact (RoundRobin.wrapped_small start.isLt).symm

theorem drawn_step {start : BitVec 64} {a : Action Q} (d : Drawn o start g)
    (h : step o g a = some t) : Drawn o start t := by
  rcases step_cases h with ⟨hn, hd, -, -⟩ | ⟨hn, hd, -⟩
  · have hval : g.next.toNat = (start.toNat + g.drawn.length) % 2 ^ 64 := by
      rw [d.next, BitVec.toNat_add, BitVec.toNat_ofNat, Nat.add_mod_mod]
    refine ⟨?_, fun i hi => ?_⟩
    · rw [hn, hd, d.next, List.length_append, List.length_singleton, BitVec.ofNat_add,
        BitVec.add_assoc]
      rfl
    · have hs := RoundRobin.wrapped_succ (Nat.two_pow_pos 64) hi (start.toNat + g.drawn.length)
      rw [← hval] at hs
      rw [hd, List.length_append, List.length_singleton, ← Nat.add_assoc, hs, ← d.shares i hi,
        List.count_append, List.count_singleton, RoundRobin.bit]
      simp only [beq_iff_eq]
      omega
  · exact ⟨by rw [hn, hd]; exact d.next, fun i hi => by rw [hd]; exact d.shares i hi⟩

theorem draws_balanced (o : Options) (start : BitVec 64) (as : List (Action Q)) {g : Tasks Q}
    (h : (system Q o).run (create Q start) as = some g) (i j : Nat) (hi : i < o.size)
    (hj : j < o.size) :
    g.drawn.count i ≤ g.drawn.count j + (start.toNat + g.drawn.length) / 2 ^ 64 *
      RoundRobin.bit (2 ^ 64 % o.size ≠ 0) + 1 := by
  have d : Drawn o start g := Transition.System.run_invariant (M := system Q o)
    (G := fun _ _ => True) (fun _ _ _ d _ hs => drawn_step d hs) (drawn_create start)
    Transition.System.along_true h
  exact RoundRobin.wrapped_balanced (d.shares i hi) (d.shares j hj)

-- Three loops do not divide 2^64: the first is drawn before and after next_ starts again.
theorem draws_balanced_wrap :
    ∃ g : Tasks (EventLockFreeQueue.eventQueue Callback),
      (system _ ⟨3, by decide⟩).run (create _ (BitVec.ofNat 64 (2 ^ 64 - 1))) [.schedule, .next] =
        some g ∧ g.drawn = [0, 0] ∧ g.drawn.count 0 ≤ g.drawn.count 1 + 2 := by
  obtain ⟨g, hg, hd⟩ : ∃ g : Tasks (EventLockFreeQueue.eventQueue Callback),
      (system _ ⟨3, by decide⟩).run (create _ (BitVec.ofNat 64 (2 ^ 64 - 1))) [.schedule, .next] =
        some g ∧ g.drawn = [0, 0] := ⟨_, rfl, rfl⟩
  have hb := draws_balanced ⟨3, by decide⟩ _ _ hg 0 1 (by decide) (by decide)
  rw [hd] at hb
  exact ⟨g, hg, hd, hd ▸ hb⟩

end Tasks
end EventLoopGroup
end Pedronet
