import Pedronet.Transition.Trace

namespace Executor

structure Discipline (κ : Type) where
  take : List κ → κ → Option (List κ)
  perm : ∀ waiting job rest, take waiting job = some rest → waiting.Perm (job :: rest)

variable {κ : Type} [DecidableEq κ]

def takeFirst (waiting : List κ) (job : κ) : Option (List κ) :=
  match waiting with
  | first :: rest => if first = job then some rest else none
  | [] => none

theorem take_first {waiting rest : List κ} {job : κ} (h : takeFirst waiting job = some rest) :
    waiting = job :: rest := by
  cases waiting with
  | nil => cases h
  | cons first waiting =>
    simp only [takeFirst] at h
    split at h
    · rename_i he
      cases h
      rw [he]
    · cases h

variable (κ) in
def fifo : Discipline κ where
  take := takeFirst
  perm _ _ _ h := .of_eq (take_first h)

variable (κ) in
def anyOrder : Discipline κ where
  take waiting job := if job ∈ waiting then some (waiting.erase job) else none
  perm waiting job rest h := by
    split at h
    · rename_i hm
      cases h
      exact List.perm_cons_erase hm
    · cases h

end Executor

open Executor

-- A server that is handed jobs at any time and runs one at a time.
structure Executor (κ : Type) where
  waiting : List κ
  running : Option κ
  finished : List κ
deriving DecidableEq, Repr

namespace Executor
variable {κ : Type}

inductive Action (κ : Type) where
  | post (job : κ)
  | start (job : κ)
  | stop
deriving DecidableEq, Repr

def idle : Executor κ := ⟨[], none, []⟩

variable (d : Discipline κ)

def step (e : Executor κ) : Action κ → Option (Executor κ)
  | .post job => some { e with waiting := e.waiting ++ [job] }
  | .start job =>
    match e.running, d.take e.waiting job with
    | none, some rest => some { e with waiting := rest, running := some job }
    | _, _ => none
  | .stop =>
    match e.running with
    | some job => some { e with running := none, finished := e.finished ++ [job] }
    | none => none

def system : Transition.System (Executor κ) (Action κ) where
  start e := e = idle
  step := step d

def Action.posted : Action κ → List κ
  | .post job => [job]
  | .start _ | .stop => []

def begun (e : Executor κ) : List κ := e.finished ++ e.running.toList

variable {d} {e f : Executor κ}

theorem step_start {job : κ} (h : step d e (.start job) = some f) :
    ∃ rest, e.running = none ∧ d.take e.waiting job = some rest ∧
      f = { e with waiting := rest, running := some job } := by
  simp only [step] at h
  split at h
  · rename_i rest hr ht
    exact ⟨rest, hr, ht, by simpa using h.symm⟩
  · cases h

theorem step_stop (h : step d e .stop = some f) :
    ∃ job, e.running = some job ∧
      f = { e with running := none, finished := e.finished ++ [job] } := by
  simp only [step] at h
  split at h
  · rename_i job hr
    exact ⟨job, hr, by simpa using h.symm⟩
  · cases h

theorem begun_stop {job : κ} (h : e.running = some job) :
    begun { e with running := none, finished := e.finished ++ [job] } = begun e := by
  simp [begun, h]

theorem jobs_run {as : List (Action κ)} (h : (system d).run e as = some f) :
    (begun e ++ e.waiting ++ as.flatMap Action.posted).Perm (begun f ++ f.waiting) := by
  induction as generalizing e with
  | nil =>
    cases h
    rw [List.flatMap_nil, List.append_nil]
  | cons a as ih =>
    obtain ⟨g, hg, hf⟩ := Transition.System.run_cons h
    refine List.Perm.trans ?_ (ih hf)
    rw [List.flatMap_cons, ← List.append_assoc]
    refine List.Perm.append_right _ ?_
    cases a with
    | post job =>
      cases hg
      exact .of_eq (List.append_assoc _ _ _)
    | start job =>
      obtain ⟨rest, hr, ht, rfl⟩ := step_start hg
      have hp := (d.perm _ _ _ ht).append_left e.finished
      simpa [begun, hr, Action.posted] using hp
    | stop =>
      obtain ⟨job, hr, rfl⟩ := step_stop (d := d) hg
      rw [begun_stop hr, Action.posted, List.append_nil]

theorem jobs_fifo [DecidableEq κ] {as : List (Action κ)}
    (h : (system (fifo κ)).run e as = some f) :
    begun e ++ e.waiting ++ as.flatMap Action.posted = begun f ++ f.waiting := by
  induction as generalizing e with
  | nil =>
    cases h
    rw [List.flatMap_nil, List.append_nil]
  | cons a as ih =>
    obtain ⟨g, hg, hf⟩ := Transition.System.run_cons h
    rw [← ih hf, List.flatMap_cons, ← List.append_assoc]
    congr 1
    cases a with
    | post job =>
      cases hg
      exact List.append_assoc _ _ _
    | start job =>
      obtain ⟨rest, hr, ht, rfl⟩ := step_start hg
      simp [begun, hr, Action.posted, take_first ht]
    | stop =>
      obtain ⟨job, hr, rfl⟩ := step_stop (d := fifo κ) hg
      rw [begun_stop hr, Action.posted, List.append_nil]

end Executor
