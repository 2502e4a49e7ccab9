import Pedronet.EventQueue

namespace Pedronet

namespace EventLockFreeQueue

inductive AddPc where
  | enqueue
  | fetchAdd
  | wakeUp
deriving DecidableEq, Repr

inductive ProcessPc (κ : Type) where
  | dequeue
  | fetchSub (taken : List κ)
  | run (rest : List κ)
deriving DecidableEq, Repr

end EventLockFreeQueue

open EventLockFreeQueue

structure EventLockFreeQueue (κ : Type) where
  size : BitVec 64
  queue : List κ
deriving DecidableEq, Repr

namespace EventLockFreeQueue
variable {κ : Type} [DecidableEq κ]

def add (q : EventLockFreeQueue κ) (callback : κ) :
    AddPc → Produced (EventLockFreeQueue κ) AddPc
  | .enqueue => ⟨{ q with queue := q.queue ++ [callback] }, false, some .fetchAdd⟩
  | .fetchAdd => ⟨{ q with size := q.size + 1 }, false, if q.size = 0 then some .wakeUp else none⟩
  | .wakeUp => ⟨q, true, none⟩

-- A bulk dequeue takes any elements in any order, and none only from an empty queue.
def process (q : EventLockFreeQueue κ) :
    ProcessPc κ → List κ × List κ → Option (EventLockFreeQueue κ × Next κ (ProcessPc κ))
  | .dequeue, (taken, rest) =>
    if (taken ++ rest).Perm q.queue ∧ taken.length ≤ 32 ∧ (taken = [] → rest = []) then
      some ({ q with queue := rest }, if taken = [] then .finish else .again (.fetchSub taken))
    else none
  | .fetchSub taken, _ =>
    some ({ q with size := q.size + -BitVec.ofNat 64 taken.length }, .again (.run taken))
  | .run [], _ => some (q, .again .dequeue)
  | .run (callback :: rest), _ => some (q, .invoke callback (.run rest))

variable (κ) in
abbrev eventQueue : EventQueue κ where
  State := EventLockFreeQueue κ
  Producer := AddPc
  Consumer := ProcessPc κ
  Choice := List κ × List κ
  create := ⟨0, []⟩
  enter := .enqueue
  entered pc := pc != .enqueue
  add := add
  start := .dequeue
  process := process
  held := queue
  fresh_enter := rfl
  entered_next q callback pc next h := by
    cases pc with
    | enqueue => cases h; rfl
    | fetchAdd =>
      simp only [add] at h
      split at h
      · cases h; rfl
      · cases h
    | wakeUp => cases h

abbrev World (κ : Type) [DecidableEq κ] := EventQueue.World (eventQueue κ)

variable (κ) in
abbrev system : Transition.System (World κ) (EventQueue.Action (eventQueue κ)) :=
  EventQueue.system (eventQueue κ)

variable {w t : World κ}

def uncounted (w : World κ) : Nat := w.calls.countP fun call => call.pc == AddPc.fetchAdd

def waking (w : World κ) : Nat := w.calls.countP fun call => call.pc == AddPc.wakeUp

def undeducted : Option (ProcessPc κ) → List κ
  | some (.fetchSub taken) => taken
  | _ => []

def inHand : Option (ProcessPc κ) → List κ
  | some (.fetchSub taken) => taken
  | some (.run rest) => rest
  | _ => []

structure Counted (w : World κ) : Prop where
  size : w.state.size + BitVec.ofNat 64 (uncounted w) =
    BitVec.ofNat 64 (w.state.queue.length + (undeducted w.status.consumer).length)
  wakes : w.status = .outside →
    0 < w.eventfd ∨ 0 < waking w ∨ w.state.queue.length ≤ uncounted w

theorem advance_enqueue (index : Nat) (own : Bool) (callback : κ) :
    w.advance index ⟨own, callback, AddPc.enqueue⟩ =
      { w with
        state := { w.state with queue := w.state.queue ++ [callback] }
        calls := w.calls.set index ⟨own, callback, AddPc.fetchAdd⟩
        added := w.added ++ [callback] } := rfl

theorem advance_fetch_add_zero (index : Nat) (own : Bool) (callback : κ) (h : w.state.size = 0) :
    w.advance index ⟨own, callback, AddPc.fetchAdd⟩ =
      { w with
        state := { w.state with size := w.state.size + 1 }
        calls := w.calls.set index ⟨own, callback, AddPc.wakeUp⟩ } := by
  simp [EventQueue.World.advance, add, h]

theorem advance_fetch_add (index : Nat) (own : Bool) (callback : κ) (h : w.state.size ≠ 0) :
    w.advance index ⟨own, callback, AddPc.fetchAdd⟩ =
      { w with
        state := { w.state with size := w.state.size + 1 }
        calls := w.calls.eraseIdx index
        returned := w.returned ++ [callback] } := by
  simp only [EventQueue.World.advance, add, if_neg h]
  rfl

theorem advance_wake_up (index : Nat) (own : Bool) (callback : κ) :
    w.advance index ⟨own, callback, AddPc.wakeUp⟩ =
      { w with
        eventfd := EventChannel.wakeUp w.eventfd
        calls := w.calls.eraseIdx index
        returned := w.returned ++ [callback] } := rfl

theorem counted_enqueue (h : Counted w) {index : Nat} {own : Bool} {callback : κ}
    (hc : w.calls[index]? = some ⟨own, callback, AddPc.enqueue⟩) :
    Counted (w.advance index ⟨own, callback, AddPc.enqueue⟩) := by
  rw [advance_enqueue]
  have hu := Pool.count_set (b := ⟨own, callback, AddPc.fetchAdd⟩)
    (fun call => call.pc == AddPc.fetchAdd) hc
  have hk := Pool.count_set (b := ⟨own, callback, AddPc.fetchAdd⟩)
    (fun call => call.pc == AddPc.wakeUp) hc
  simp only [beq_self_eq_true, if_true, reduceCtorEq, beq_iff_eq, if_false, Nat.add_zero] at hu hk
  refine ⟨?_, fun ho => ?_⟩
  · have hs := h.size
    simp only [uncounted] at hs ⊢
    rw [hu, BitVec.ofNat_add, ← BitVec.add_assoc, hs, ← BitVec.ofNat_add, List.length_append]
    congr 1
    simp only [List.length_singleton]
    omega
  · rcases h.wakes ho with he | hw | hl
    · exact .inl he
    · exact .inr (.inl (by simpa only [waking, hk] using hw))
    · refine .inr (.inr ?_)
      simp only [uncounted, List.length_append, List.length_singleton] at hl ⊢
      omega

theorem counted_fetch_add (h : Counted w) {index : Nat} {own : Bool} {callback : κ}
    (hc : w.calls[index]? = some ⟨own, callback, AddPc.fetchAdd⟩) :
    Counted (w.advance index ⟨own, callback, AddPc.fetchAdd⟩) := by
  have hs := h.size
  by_cases hz : w.state.size = 0
  · rw [advance_fetch_add_zero index own callback hz]
    have hu := Pool.count_set (b := ⟨own, callback, AddPc.wakeUp⟩)
      (fun call => call.pc == AddPc.fetchAdd) hc
    have hk := Pool.count_set (b := ⟨own, callback, AddPc.wakeUp⟩)
      (fun call => call.pc == AddPc.wakeUp) hc
    simp only [beq_self_eq_true, if_true, reduceCtorEq, beq_iff_eq, if_false, Nat.add_zero] at hu hk
    refine ⟨?_, fun _ => .inr (.inl ?_)⟩
    · simp only [uncounted] at hs ⊢
      rw [← hs, ← hu, BitVec.ofNat_add, BitVec.add_assoc, BitVec.add_comm 1]
      rfl
    · simp only [waking]
      omega
  · rw [advance_fetch_add index own callback hz]
    have hu := Pool.count_erase (fun call => call.pc == AddPc.fetchAdd) hc
    have hk := Pool.count_erase (fun call => call.pc == AddPc.wakeUp) hc
    simp only [beq_self_eq_true, if_true, reduceCtorEq, beq_iff_eq, if_false, Nat.add_zero] at hu hk
    refine ⟨?_, fun ho => ?_⟩
    · simp only [uncounted] at hs ⊢
      rw [← hs, ← hu, BitVec.ofNat_add, BitVec.add_assoc, BitVec.add_comm 1]
      rfl
    · rcases h.wakes ho with he | hw | hl
      · exact .inl he
      · exact .inr (.inl (by simpa only [waking, hk] using hw))
      -- Outside Process nothing is undeducted, so a counter other than 0 leaves one more uncounted call.
      · refine .inr (.inr ?_)
        have hne : w.state.queue.length ≠ uncounted w := by
          intro he
          rw [ho, he] at hs
          exact hz (BitVec.add_left_eq_self.mp hs)
        simp only [uncounted] at hl hne ⊢
        omega

theorem counted_wake_up (h : Counted w) {index : Nat} {own : Bool} {callback : κ}
    (hc : w.calls[index]? = some ⟨own, callback, AddPc.wakeUp⟩) :
    Counted (w.advance index ⟨own, callback, AddPc.wakeUp⟩) := by
  rw [advance_wake_up]
  have hu := Pool.count_erase (fun call => call.pc == AddPc.fetchAdd) hc
  simp only [beq_iff_eq, reduceCtorEq, if_false, Nat.add_zero] at hu
  refine ⟨?_, fun _ => .inl (EventChannel.wake_up_pos _)⟩
  have hs := h.size
  simp only [uncounted] at hs ⊢
  rw [hu]
  exact hs

theorem counted_advance (h : Counted w) {index : Nat} {call : EventQueue.Call (eventQueue κ)}
    (hc : w.calls[index]? = some call) : Counted (w.advance index call) := by
  obtain ⟨own, callback, pc⟩ := call
  cases pc with
  | enqueue => exact counted_enqueue h hc
  | fetchAdd => exact counted_fetch_add h hc
  | wakeUp => exact counted_wake_up h hc

theorem process_dequeue {q u : EventLockFreeQueue κ} {choice : List κ × List κ}
    {next : Next κ (ProcessPc κ)} (h : process q .dequeue choice = some (u, next)) :
    (q.queue = [] ∧ u = q ∧ next = .finish) ∨
      ∃ taken rest, (taken ++ rest).Perm q.queue ∧ u = { q with queue := rest } ∧
        next = .again (.fetchSub taken) := by
  obtain ⟨taken, rest⟩ := choice
  simp only [process] at h
  split at h
  · rename_i hg
    obtain ⟨hp, -, hn⟩ := hg
    simp only [Option.some.injEq, Prod.mk.injEq] at h
    obtain ⟨rfl, rfl⟩ := h
    by_cases ht : taken = []
    · obtain rfl := hn ht
      subst ht
      have hq : q.queue = [] := List.nil_perm.mp hp
      exact .inl ⟨hq, by rw [← hq], rfl⟩
    · exact .inr ⟨taken, rest, hp, rfl, if_neg ht⟩
  · cases h

theorem counted_process (h : Counted w) {consumer : ProcessPc κ} {choice : List κ × List κ}
    {u : EventLockFreeQueue κ} {next : Next κ (ProcessPc κ)}
    (hw : w.status = .processing consumer) (hp : process w.state consumer choice = some (u, next)) :
    Counted (w.follow u next) := by
  have hs := h.size
  rw [hw] at hs
  cases consumer with
  | dequeue =>
    rcases process_dequeue hp with ⟨hq, rfl, rfl⟩ | ⟨taken, rest, hperm, rfl, rfl⟩
    · refine ⟨hs, fun _ => .inr (.inr ?_)⟩
      have hl : w.state.queue.length = 0 := by rw [hq]; rfl
      exact hl ▸ Nat.zero_le _
    · refine ⟨?_, fun ho => by cases ho⟩
      have hl := hperm.length_eq
      simp only [EventQueue.World.follow, EventQueue.Status.consumer, undeducted] at hs ⊢
      rw [List.length_append, Nat.add_comm] at hl
      rw [hl]
      exact hs
  | fetchSub taken =>
    simp only [process, Option.some.injEq, Prod.mk.injEq] at hp
    obtain ⟨rfl, rfl⟩ := hp
    refine ⟨?_, fun ho => by cases ho⟩
    simp only [EventQueue.World.follow, EventQueue.Status.consumer, undeducted, uncounted,
      List.length_nil, Nat.add_zero] at hs ⊢
    rw [BitVec.add_assoc, BitVec.add_comm (-_), ← BitVec.add_assoc, hs, BitVec.ofNat_add,
      BitVec.add_assoc, BitVec.add_right_neg, BitVec.add_zero]
  | run rest =>
    cases rest with
    | nil =>
      simp only [process, Option.some.injEq, Prod.mk.injEq] at hp
      obtain ⟨rfl, rfl⟩ := hp
      exact ⟨hs, fun ho => by cases ho⟩
    | cons callback rest =>
      simp only [process, Option.some.injEq, Prod.mk.injEq] at hp
      obtain ⟨rfl, rfl⟩ := hp
      exact ⟨hs, fun ho => by cases ho⟩

theorem counted_step {a : EventQueue.Action (eventQueue κ)} (h : Counted w)
    (hs : EventQueue.step w a = some t) : Counted t := by
  cases a with
  | add own callback =>
    obtain rfl := EventQueue.step_add hs
    have hu : uncounted { w with calls := w.calls ++ [⟨own, callback, AddPc.enqueue⟩] } =
        uncounted w := by simp [uncounted]
    have hk : waking { w with calls := w.calls ++ [⟨own, callback, AddPc.enqueue⟩] } =
        waking w := by simp [waking]
    exact ⟨by rw [hu]; exact h.size, fun ho => by rw [hu, hk]; exact h.wakes ho⟩
  | advance index =>
    obtain ⟨call, hc, rfl⟩ := EventQueue.step_advance hs
    exact counted_advance h hc
  | handleEvents =>
    obtain ⟨ho, -, rfl⟩ := EventQueue.step_handle_events hs
    have hz := h.size
    rw [ho] at hz
    exact ⟨hz, fun ho => by cases ho⟩
  | process choice =>
    obtain ⟨consumer, u, next, hw, hp, rfl⟩ := EventQueue.step_process hs
    exact counted_process h hw hp
  | resume =>
    obtain ⟨callback, consumer, hw, rfl⟩ := EventQueue.step_resume hs
    have hz := h.size
    rw [hw] at hz
    exact ⟨hz, fun ho => by cases ho⟩

theorem counted_reachable (h : (system κ).Reachable w) : Counted w := by
  refine Transition.System.invariant ?_ ?_ h
  · rintro _ rfl
    exact ⟨rfl, fun _ => .inr (.inr (Nat.le_refl 0))⟩
  · intro s a u hi hs
    exact counted_step hi hs

theorem no_lost_wake_up (h : (system κ).Reachable w) (hc : w.calls = [])
    (ho : w.status = .outside) (hq : w.state.queue ≠ []) : 0 < w.eventfd := by
  rcases (counted_reachable h).wakes ho with he | hw | hl
  · exact he
  · simp [waking, hc] at hw
  · rw [uncounted, hc] at hl
    exact absurd (List.length_eq_zero_iff.mp (Nat.le_zero.mp hl)) hq

theorem wakes_after_add :
    ∃ w, (system Nat).Reachable w ∧ w.calls = [] ∧ w.status = .outside ∧ w.state.queue = [7] ∧
      0 < w.eventfd := by
  let w : World Nat := ⟨⟨1, [7]⟩, 1, [], .outside, [7], [7], []⟩
  have hr : (system Nat).run (.init _) [.add false 7, .advance 0, .advance 0, .advance 0] =
      some w := rfl
  have h := Transition.System.reachable_run (.start rfl) hr
  exact ⟨w, h, rfl, rfl, rfl, no_lost_wake_up h rfl rfl (by simp [w])⟩

structure Kept (w : World κ) : Prop where
  perm : w.added.Perm (w.executed ++ (inHand w.status.consumer ++ w.state.queue))
  ordered : w.status = .outside → EventQueue.Ordered w

theorem kept_advance (h : Kept w) {index : Nat} {call : EventQueue.Call (eventQueue κ)} :
    Kept (w.advance index call) := by
  obtain ⟨own, callback, pc⟩ := call
  cases pc with
  | enqueue =>
    rw [advance_enqueue]
    constructor
    · have hp := h.perm.append_right [callback]
      simpa only [List.append_assoc] using hp
    · intro ho
      obtain ⟨done, pending, ha, hd, hp⟩ := h.ordered ho
      exact ⟨done, pending ++ [callback], by simp [ha], hd, hp.append_right _⟩
  | fetchAdd => exact ⟨h.perm, h.ordered⟩
  | wakeUp => exact ⟨h.perm, h.ordered⟩

theorem kept_process (h : Kept w) {consumer : ProcessPc κ} {choice : List κ × List κ}
    {u : EventLockFreeQueue κ} {next : Next κ (ProcessPc κ)}
    (hw : w.status = .processing consumer) (hp : process w.state consumer choice = some (u, next)) :
    Kept (w.follow u next) := by
  have hk := h.perm
  rw [hw] at hk
  cases consumer with
  | dequeue =>
    rcases process_dequeue hp with ⟨hq, rfl, rfl⟩ | ⟨taken, rest, hperm, rfl, rfl⟩
    · refine ⟨hk, fun _ => ⟨w.added, [], (List.append_nil _).symm, ?_, ?_⟩⟩
      · simpa [EventQueue.World.follow, EventQueue.Status.consumer, inHand, hq] using hk
      · simp [EventQueue.World.follow, hq]
    · exact ⟨hk.trans (hperm.symm.append_left _), fun ho => by cases ho⟩
  | fetchSub taken =>
    simp only [process, Option.some.injEq, Prod.mk.injEq] at hp
    obtain ⟨rfl, rfl⟩ := hp
    exact ⟨hk, fun ho => by cases ho⟩
  | run rest =>
    cases rest with
    | nil =>
      simp only [process, Option.some.injEq, Prod.mk.injEq] at hp
      obtain ⟨rfl, rfl⟩ := hp
      exact ⟨hk, fun ho => by cases ho⟩
    | cons callback rest =>
      simp only [process, Option.some.injEq, Prod.mk.injEq] at hp
      obtain ⟨rfl, rfl⟩ := hp
      refine ⟨?_, fun ho => by cases ho⟩
      simpa [EventQueue.World.follow, EventQueue.Status.consumer, inHand] using hk

theorem kept_step {a : EventQueue.Action (eventQueue κ)} (h : Kept w)
    (hs : EventQueue.step w a = some t) : Kept t := by
  cases a with
  | add own callback =>
    obtain rfl := EventQueue.step_add hs
    exact ⟨h.perm, h.ordered⟩
  | advance index =>
    obtain ⟨call, -, rfl⟩ := EventQueue.step_advance hs
    exact kept_advance h
  | handleEvents =>
    obtain ⟨ho, -, rfl⟩ := EventQueue.step_handle_events hs
    have hk := h.perm
    rw [ho] at hk
    exact ⟨hk, fun ho => by cases ho⟩
  | process choice =>
    obtain ⟨consumer, u, next, hw, hp, rfl⟩ := EventQueue.step_process hs
    exact kept_process h hw hp
  | resume =>
    obtain ⟨callback, consumer, hw, rfl⟩ := EventQueue.step_resume hs
    have hk := h.perm
    rw [hw] at hk
    exact ⟨hk, fun ho => by cases ho⟩

theorem lawful : EventQueue.Lawful (eventQueue κ) := by
  intro w h
  suffices Kept w from this.ordered
  refine Transition.System.invariant ?_ ?_ h
  · rintro _ rfl
    exact ⟨.nil, fun _ => ⟨[], [], rfl, .nil, .nil⟩⟩
  · intro s a u hi hs
    exact kept_step hi hs

end EventLockFreeQueue
end Pedronet
