import Pedronet.Transition
import Pedronet.Pool

namespace Pedronet

namespace EventChannel

def eventfdMax : Nat := 0xfffffffffffffffe

def wakeUp (eventfd : Nat) : Nat := min (eventfd + 1) eventfdMax

theorem wake_up_pos (eventfd : Nat) : 0 < wakeUp eventfd := by
  simp only [wakeUp, eventfdMax]
  omega

end EventChannel

inductive Next (κ σ : Type) where
  | again (consumer : σ)
  | invoke (callback : κ) (consumer : σ)
  | finish
deriving DecidableEq, Repr

structure Produced (σ π : Type) where
  state : σ
  wake : Bool
  next : Option π
deriving DecidableEq, Repr

-- The first step of an Add call puts the callback into the queue.
structure EventQueue (κ : Type) where
  State : Type
  Producer : Type
  Consumer : Type
  Choice : Type
  create : State
  enter : Producer
  entered : Producer → Bool
  add : State → κ → Producer → Produced State Producer
  start : Consumer
  process : State → Consumer → Choice → Option (State × Next κ Consumer)
  held : State → List κ
  fresh_enter : entered enter = false
  entered_next : ∀ state callback pc next,
    (add state callback pc).next = some next → entered next = true

namespace EventQueue
variable {κ : Type} (Q : EventQueue κ)

structure Call where
  own : Bool
  callback : κ
  pc : Q.Producer

inductive Status where
  | outside
  | processing (consumer : Q.Consumer)
  | running (callback : κ) (consumer : Q.Consumer)

structure World where
  state : Q.State
  eventfd : Nat
  calls : List (Call Q)
  status : Status Q
  added : List κ
  returned : List κ
  executed : List κ

inductive Action where
  | add (own : Bool) (callback : κ)
  | advance (index : Nat)
  | handleEvents
  | process (choice : Q.Choice)
  | resume

def World.init : World Q := ⟨Q.create, 0, [], .outside, [], [], []⟩

variable {Q}

def World.free (w : World Q) : Bool := w.calls.all fun call => !call.own

def Status.mayCall : Status Q → Bool
  | .processing _ => false
  | _ => true

def Status.consumer : Status Q → Option Q.Consumer
  | .outside => none
  | .processing consumer => some consumer
  | .running _ consumer => some consumer

def World.advance (w : World Q) (index : Nat) (call : Call Q) : World Q :=
  let p := Q.add w.state call.callback call.pc
  { w with
    state := p.state
    eventfd := if p.wake then EventChannel.wakeUp w.eventfd else w.eventfd
    added := if Q.entered call.pc then w.added else w.added ++ [call.callback]
    calls := match p.next with
      | some pc => w.calls.set index { call with pc := pc }
      | none => w.calls.eraseIdx index
    returned := match p.next with
      | some _ => w.returned
      | none => w.returned ++ [call.callback] }

def World.follow (w : World Q) (state : Q.State) : Next κ Q.Consumer → World Q
  | .again consumer => { w with state := state, status := .processing consumer }
  | .invoke callback consumer =>
    { w with
      state := state
      status := .running callback consumer
      executed := w.executed ++ [callback] }
  | .finish => { w with state := state, status := .outside }

def step (w : World Q) : Action Q → Option (World Q)
  | .add own callback =>
    if own = true → w.free = true ∧ w.status.mayCall = true then
      some { w with calls := w.calls ++ [⟨own, callback, Q.enter⟩] }
    else none
  | .advance index =>
    match w.calls[index]? with
    | some call => some (w.advance index call)
    | none => none
  | .handleEvents =>
    match w.status with
    | .outside =>
      if w.free = true ∧ 0 < w.eventfd then
        some { w with eventfd := 0, status := .processing Q.start }
      else none
    | _ => none
  | .process choice =>
    match w.status, w.free with
    | .processing consumer, true =>
      match Q.process w.state consumer choice with
      | some (state, next) => some (w.follow state next)
      | none => none
    | _, _ => none
  | .resume =>
    match w.status, w.free with
    | .running _ consumer, true => some { w with status := .processing consumer }
    | _, _ => none

variable (Q) in
def system : Transition.System (World Q) (Action Q) where
  start w := w = .init Q
  step := step

def Ordered (w : World Q) : Prop :=
  ∃ done pending, w.added = done ++ pending ∧ done.Perm w.executed ∧
    pending.Perm (Q.held w.state)

variable (Q) in
def Lawful : Prop :=
  ∀ w, (system Q).Reachable w → w.status = .outside → Ordered w

variable {w t : World Q}

theorem step_add {own : Bool} {callback : κ} (h : step w (.add own callback) = some t) :
    t = { w with calls := w.calls ++ [⟨own, callback, Q.enter⟩] } := by
  simp only [step] at h
  split at h
  · simpa using h.symm
  · cases h

theorem step_advance {index : Nat} (h : step w (.advance index) = some t) :
    ∃ call, w.calls[index]? = some call ∧ t = w.advance index call := by
  simp only [step] at h
  split at h
  · rename_i call hc
    exact ⟨call, hc, by simpa using h.symm⟩
  · cases h

theorem step_handle_events (h : step w .handleEvents = some t) :
    w.status = .outside ∧ 0 < w.eventfd ∧
      t = { w with eventfd := 0, status := .processing Q.start } := by
  simp only [step] at h
  split at h
  · rename_i hs
    split at h
    · rename_i hf
      exact ⟨hs, hf.2, by simpa using h.symm⟩
    · cases h
  · cases h

theorem step_process {choice : Q.Choice} (h : step w (.process choice) = some t) :
    ∃ consumer state next, w.status = .processing consumer ∧
      Q.process w.state consumer choice = some (state, next) ∧ t = w.follow state next := by
  simp only [step] at h
  split at h
  · rename_i consumer hs _
    split at h
    · rename_i state next hp
      exact ⟨consumer, state, next, hs, hp, by simpa using h.symm⟩
    · cases h
  · cases h

theorem step_resume (h : step w .resume = some t) :
    ∃ callback consumer, w.status = .running callback consumer ∧
      t = { w with status := .processing consumer } := by
  simp only [step] at h
  split at h
  · rename_i callback consumer hs _
    exact ⟨callback, consumer, hs, by simpa using h.symm⟩
  · cases h

def unentered (call : Call Q) : List κ := if Q.entered call.pc then [] else [call.callback]

def issued (w : World Q) : List κ := w.added ++ w.calls.flatMap unentered

def Action.issues : Action Q → List κ
  | .add _ callback => [callback]
  | _ => []

theorem issued_advance {index : Nat} {call : Call Q} (hc : w.calls[index]? = some call) :
    (issued (w.advance index call)).Perm (issued w) := by
  have hadded : (w.advance index call).added = w.added ++ unentered call := by
    simp only [World.advance, unentered]
    split
    · exact (List.append_nil _).symm
    · rfl
  have hcalls : (unentered call ++ (w.advance index call).calls.flatMap unentered).Perm
      (w.calls.flatMap unentered) := by
    simp only [World.advance]
    split
    · rename_i pc hn
      have hp := Pool.flat_map_set (b := { call with pc := pc }) unentered hc
      have he : unentered { call with pc := pc } = [] := if_pos (Q.entered_next _ _ _ _ hn)
      rw [he, List.nil_append] at hp
      exact List.perm_append_comm.trans hp
    · exact Pool.flat_map_erase_perm unentered hc
  rw [issued, hadded, List.append_assoc]
  exact hcalls.append_left _

theorem issued_step {a : Action Q} (h : step w a = some t) :
    (issued t).Perm (issued w ++ a.issues) := by
  cases a with
  | add own callback =>
    obtain rfl := step_add h
    simp [issued, Action.issues, unentered, Q.fresh_enter]
  | advance index =>
    obtain ⟨call, hc, rfl⟩ := step_advance h
    simpa [Action.issues] using issued_advance hc
  | handleEvents =>
    obtain ⟨-, -, rfl⟩ := step_handle_events h
    simp [issued, Action.issues]
  | process choice =>
    obtain ⟨consumer, state, next, -, -, rfl⟩ := step_process h
    cases next <;> simp [issued, Action.issues, World.follow]
  | resume =>
    obtain ⟨callback, consumer, -, rfl⟩ := step_resume h
    simp [issued, Action.issues]

theorem added_step {a : Action Q} (h : step w a = some t) : w.added <+: t.added := by
  cases a with
  | add own callback =>
    obtain rfl := step_add h
    exact List.prefix_rfl
  | advance index =>
    obtain ⟨call, -, rfl⟩ := step_advance h
    simp only [World.advance]
    split
    · exact List.prefix_rfl
    · exact List.prefix_append _ _
  | handleEvents =>
    obtain ⟨-, -, rfl⟩ := step_handle_events h
    exact List.prefix_rfl
  | process choice =>
    obtain ⟨consumer, state, next, -, -, rfl⟩ := step_process h
    cases next <;> exact List.prefix_rfl
  | resume =>
    obtain ⟨callback, consumer, -, rfl⟩ := step_resume h
    exact List.prefix_rfl

def Logged (w : World Q) : Prop :=
  (∀ call ∈ w.calls, Q.entered call.pc = true → call.callback ∈ w.added) ∧
    ∀ callback ∈ w.returned, callback ∈ w.added

theorem logged_advance (h : Logged w) {index : Nat} {call : Call Q}
    (hc : w.calls[index]? = some call) : Logged (w.advance index call) := by
  have hsub : ∀ callback ∈ w.added, callback ∈ (w.advance index call).added := by
    intro callback hm
    simp only [World.advance]
    split
    · exact hm
    · exact List.mem_append_left _ hm
  have hself : call.callback ∈ (w.advance index call).added := by
    simp only [World.advance]
    split
    · rename_i he
      exact h.1 call (List.mem_of_getElem? hc) he
    · exact List.mem_append_right _ (List.mem_singleton.mpr rfl)
  constructor
  · intro other hm he
    simp only [World.advance] at hm
    split at hm
    · rcases Pool.mem_set hc hm with rfl | hm
      · exact hself
      · exact hsub _ (h.1 other hm he)
    · exact hsub _ (h.1 other (List.mem_of_mem_eraseIdx hm) he)
  · intro callback hm
    simp only [World.advance] at hm
    split at hm
    · exact hsub _ (h.2 _ hm)
    · rcases List.mem_append.mp hm with hm | hm
      · exact hsub _ (h.2 _ hm)
      · exact List.mem_singleton.mp hm ▸ hself

theorem logged_step {a : Action Q} (h : Logged w) (hs : step w a = some t) : Logged t := by
  cases a with
  | add own callback =>
    obtain rfl := step_add hs
    refine ⟨fun call hm he => ?_, h.2⟩
    rcases List.mem_append.mp hm with hm | hm
    · exact h.1 call hm he
    · obtain rfl := List.mem_singleton.mp hm
      rw [Q.fresh_enter] at he
      cases he
  | advance index =>
    obtain ⟨call, hc, rfl⟩ := step_advance hs
    exact logged_advance h hc
  | handleEvents =>
    obtain ⟨-, -, rfl⟩ := step_handle_events hs
    exact h
  | process choice =>
    obtain ⟨consumer, state, next, -, -, rfl⟩ := step_process hs
    cases next <;> exact h
  | resume =>
    obtain ⟨callback, consumer, -, rfl⟩ := step_resume hs
    exact h

theorem logged_init : Logged (.init Q) := by
  constructor
  · intro call hm
    cases hm
  · intro callback hm
    cases hm

def Status.current : Status Q → List κ
  | .running callback _ => [callback]
  | _ => []

structure WakesInOrder (held : World Q → List κ) (w : World Q) : Prop where
  order : ∃ finished, w.executed = finished ++ w.status.current ∧
    w.added = finished ++ (w.status.current ++ held w)
  wakes : w.status = .outside → Q.held w.state ≠ [] → 0 < w.eventfd

def RunningLast (w : World Q) : Prop := ∃ finished, w.executed = finished ++ w.status.current

theorem running_last_step {a : Action Q} (h : RunningLast w) (hs : step w a = some t) :
    RunningLast t := by
  cases a with
  | add own callback =>
    obtain rfl := step_add hs
    exact h
  | advance index =>
    obtain ⟨call, -, rfl⟩ := step_advance hs
    exact h
  | handleEvents =>
    obtain ⟨-, -, rfl⟩ := step_handle_events hs
    exact ⟨w.executed, (List.append_nil _).symm⟩
  | process choice =>
    obtain ⟨consumer, state, next, -, -, rfl⟩ := step_process hs
    cases next with
    | again consumer => exact ⟨w.executed, (List.append_nil _).symm⟩
    | invoke callback consumer => exact ⟨w.executed, rfl⟩
    | finish => exact ⟨w.executed, (List.append_nil _).symm⟩
  | resume =>
    obtain ⟨callback, consumer, -, rfl⟩ := step_resume hs
    exact ⟨w.executed, (List.append_nil _).symm⟩

theorem running_last_reachable (h : (system Q).Reachable w) : RunningLast w := by
  refine Transition.System.invariant ?_ ?_ h
  · rintro _ rfl
    exact ⟨[], rfl⟩
  · intro s a u hi hs
    exact running_last_step hi hs

theorem eventfd_advance {index : Nat} {call : Call Q}
    (hadd : Q.held w.state = [] → (Q.add w.state call.callback call.pc).wake = true)
    (h : Q.held w.state ≠ [] → 0 < w.eventfd) : 0 < (w.advance index call).eventfd := by
  simp only [World.advance]
  split
  · exact EventChannel.wake_up_pos _
  · rename_i hn
    exact h fun he => hn (hadd he)

theorem wakes_in_order {held : World Q → List κ} (h : (system Q).Reachable w)
    (ho : w.added = w.executed ++ held w)
    (hw : w.status = .outside → Q.held w.state ≠ [] → 0 < w.eventfd) : WakesInOrder held w := by
  obtain ⟨finished, he⟩ := running_last_reachable h
  refine ⟨⟨finished, he, ?_⟩, hw⟩
  rw [ho, he, List.append_assoc]

end EventQueue
end Pedronet
