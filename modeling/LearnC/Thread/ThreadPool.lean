import LearnC.Machine.Run
import LearnC.Machine.TaskQueue

/-! The `ThreadPool` of `3.ThreadPool_CXX`: its workers, the threads and tasks that call
`enqueue`, and the thread that runs the destructor. -/

namespace LearnC.Thread.ThreadPool

/-- What was handed to `enqueue`, with the number of the entry in the queue. -/
structure Task (F : Type) where
  call : Nat
  func : F
  deriving DecidableEq

/-- Where a worker stands: before the lock; before the test of the condition; before, in and
behind the wait; with the condition true; before the end of the block, with the task it took
or about to return; in its task; returned. -/
inductive Pc (F : Type) where
  | top
  | locked
  | waits
  | blocked
  | woken
  | passed
  | leaving (task : Option (Task F))
  | running (task : Task F)
  | exited
  deriving DecidableEq

def Pc.isBlocked {F : Type} : Pc F → Bool
  | .blocked => true
  | _ => false

def Pc.isExited {F : Type} : Pc F → Bool
  | .exited => true
  | _ => false

/-- Where a caller stands in `enqueue`: outside; before the lock; under the lock; before
`notify_one`. -/
inductive Enqueue (F : Type) where
  | idle
  | made (func : F)
  | locked (func : F)
  | emplaced
  deriving DecidableEq

/-- Where the destructor stands: not called; under the lock; before `notify_all`; before the
join of a worker; returned. -/
inductive Destroy where
  | idle
  | locked
  | stopped
  | joining (i : Nat)
  | done
  deriving DecidableEq

/-- A worker, through the task it runs, or another thread. -/
abbrev Caller (n : Nat) (U : Type) : Type := Fin n ⊕ U

/-- Who holds `queue_mutex`. -/
inductive Owner (n : Nat) (U : Type) where
  | worker (w : Fin n)
  | caller (c : Caller n U)
  | destroyer

/-- The pool with `n` workers and other threads `U`, and what has happened to the tasks. -/
structure Sys (n : Nat) (U F : Type) where
  tasks : List (Task F)
  stop : Bool
  lock : Option (Owner n U)
  pc : Fin n → Pc F
  enqueue : Caller n U → Enqueue F
  destroy : Destroy
  log : TaskLog (Task F)

inductive WorkerAct where
  | lock
  | test
  | wait
  | wake
  | take
  | unlock
  | finish
  deriving DecidableEq

inductive Act (n : Nat) (U F : Type) where
  | worker (w : Fin n) (act : WorkerAct)
  | enqueue (c : Caller n U) (func : F)
  | lock (c : Caller n U)
  | emplace (c : Caller n U)
  | notifyOne (c : Caller n U) (target : Option (Fin n))
  | destroy
  | stop
  | notifyAll
  | join

namespace Sys

section
variable {n : Nat} {U F : Type}

def go (σ : Sys n U F) (w : Fin n) (pc : Pc F) : Sys n U F :=
  { σ with pc := Function.update σ.pc w pc }

/-- A step of the worker's loop. A thread may leave its wait without a notification. -/
def worker (σ : Sys n U F) (w : Fin n) : WorkerAct → Option (Sys n U F)
  | .lock =>
    match σ.pc w, σ.lock with
    | .top, none => some { σ.go w .locked with lock := some (.worker w) }
    | .woken, none => some { σ.go w .locked with lock := some (.worker w) }
    | _, _ => none
  | .test =>
    match σ.pc w with
    | .locked => some (σ.go w (if σ.stop || !σ.tasks.isEmpty then .passed else .waits))
    | _ => none
  | .wait =>
    match σ.pc w with
    | .waits => some { σ.go w .blocked with lock := none }
    | _ => none
  | .wake => if (σ.pc w).isBlocked then some (σ.go w .woken) else none
  | .take =>
    match σ.pc w with
    | .passed =>
      if σ.stop && σ.tasks.isEmpty then some (σ.go w (.leaving none))
      else
        match σ.tasks with
        | task :: rest =>
          some { σ.go w (.leaving (some task)) with tasks := rest, log := σ.log.dequeue task }
        | [] => none
    | _ => none
  | .unlock =>
    match σ.pc w with
    | .leaving none => some { σ.go w .exited with lock := none }
    | .leaving (some task) =>
      some { σ.go w (.running task) with lock := none, log := σ.log.execute task }
    | _ => none
  | .finish =>
    match σ.pc w, σ.enqueue (.inl w) with
    | .running _, .idle => some (σ.go w .top)
    | _, _ => none

/-- A worker calls `enqueue` from its task only. -/
def mayCall (σ : Sys n U F) : Caller n U → Bool
  | .inl w =>
    match σ.pc w with
    | .running _ => true
    | _ => false
  | .inr _ => true

/-- What `notify_one` does to the worker it chose, or to none where none waits. -/
def notify (σ : Sys n U F) : Option (Fin n) → Option (Sys n U F)
  | some w => if (σ.pc w).isBlocked then some (σ.go w .woken) else none
  | none => if ∀ w, (σ.pc w).isBlocked = false then some σ else none

def wakeAll (σ : Sys n U F) : Sys n U F :=
  { σ with pc := fun w => if (σ.pc w).isBlocked then .woken else σ.pc w }

variable [DecidableEq U]

def call (σ : Sys n U F) (c : Caller n U) (pc : Enqueue F) : Sys n U F :=
  { σ with enqueue := Function.update σ.enqueue c pc }

/-- One step. Behind the end of the destructor there is no pool. -/
def step (σ : Sys n U F) : Act n U F → Option (Sys n U F)
  | .worker w act => σ.worker w act
  | .enqueue c func =>
    match σ.enqueue c with
    | .idle => if σ.mayCall c && σ.destroy ≠ .done then some (σ.call c (.made func)) else none
    | _ => none
  | .lock c =>
    match σ.enqueue c, σ.lock with
    | .made func, none =>
      if σ.destroy ≠ .done then some { σ.call c (.locked func) with lock := some (.caller c) }
      else none
    | _, _ => none
  | .emplace c =>
    match σ.enqueue c with
    | .locked func =>
      -- A stopped pool throws, which gives back the lock as well.
      if σ.stop then some { σ.call c .idle with lock := none }
      else
        let task : Task F := ⟨σ.log.submitted.length, func⟩
        some { σ.call c .emplaced with
          tasks := σ.tasks ++ [task]
          lock := none
          log := (σ.log.submit task).enqueue task }
    | _ => none
  | .notifyOne c target =>
    match σ.enqueue c with
    | .emplaced => if σ.destroy ≠ .done then (σ.notify target).map (·.call c .idle) else none
    | _ => none
  | .destroy =>
    match σ.destroy, σ.lock with
    | .idle, none => some { σ with destroy := .locked, lock := some .destroyer }
    | _, _ => none
  | .stop =>
    if σ.destroy = .locked then some { σ with stop := true, destroy := .stopped, lock := none }
    else none
  | .notifyAll =>
    if σ.destroy = .stopped then some { σ.wakeAll with destroy := .joining 0 } else none
  | .join =>
    match σ.destroy with
    | .joining i =>
      if h : i < n then
        if (σ.pc ⟨i, h⟩).isExited then some { σ with destroy := .joining (i + 1) } else none
      else some { σ with destroy := .done }
    | _ => none

end

end Sys

section
variable {n : Nat} {U F : Type}

def Step [DecidableEq U] (σ : Sys n U F) (act : Act n U F) (σ' : Sys n U F) : Prop :=
  σ.step act = some σ'

/-- What the constructor leaves; the threads have not yet begun. -/
def start : Sys n U F where
  tasks := []
  stop := false
  lock := none
  pc := fun _ => .top
  enqueue := fun _ => .idle
  destroy := .idle
  log := .empty

variable {σ σ' : Sys n U F} {w : Fin n}

@[simp] theorem isBlocked_iff {pc : Pc F} : pc.isBlocked = true ↔ pc = .blocked := by
  cases pc <;> simp [Pc.isBlocked]

@[simp] theorem isExited_iff {pc : Pc F} : pc.isExited = true ↔ pc = .exited := by
  cases pc <;> simp [Pc.isExited]

/-- The steps of a worker, with what each branch has seen. -/
inductive Turn (σ : Sys n U F) (w : Fin n) : WorkerAct → Sys n U F → Prop
  | lock (pc : σ.pc w = .top ∨ σ.pc w = .woken) (free : σ.lock = none) :
      Turn σ w .lock { σ.go w .locked with lock := some (.worker w) }
  | passes (pc : σ.pc w = .locked) (seen : σ.stop = true ∨ σ.tasks ≠ []) :
      Turn σ w .test (σ.go w .passed)
  | waits (pc : σ.pc w = .locked) (up : σ.stop = false) (empty : σ.tasks = []) :
      Turn σ w .test (σ.go w .waits)
  | wait (pc : σ.pc w = .waits) : Turn σ w .wait { σ.go w .blocked with lock := none }
  | wake (pc : σ.pc w = .blocked) : Turn σ w .wake (σ.go w .woken)
  | leaves (pc : σ.pc w = .passed) (stop : σ.stop = true) (empty : σ.tasks = []) :
      Turn σ w .take (σ.go w (.leaving none))
  | take {task : Task F} {rest : List (Task F)} (pc : σ.pc w = .passed)
      (first : σ.tasks = task :: rest) :
      Turn σ w .take
        { σ.go w (.leaving (some task)) with tasks := rest, log := σ.log.dequeue task }
  | exit (pc : σ.pc w = .leaving none) : Turn σ w .unlock { σ.go w .exited with lock := none }
  | run {task : Task F} (pc : σ.pc w = .leaving (some task)) :
      Turn σ w .unlock { σ.go w (.running task) with lock := none, log := σ.log.execute task }
  | finish {task : Task F} (pc : σ.pc w = .running task) (idle : σ.enqueue (.inl w) = .idle) :
      Turn σ w .finish (σ.go w .top)

theorem worker_turn {act : WorkerAct} (step : σ.worker w act = some σ') : Turn σ w act σ' := by
  cases act with
  | lock =>
    simp only [Sys.worker] at step
    split at step
    · next pc free =>
      cases step
      exact .lock (.inl pc) free
    · next pc free =>
      cases step
      exact .lock (.inr pc) free
    · cases step
  | test =>
    simp only [Sys.worker] at step
    split at step
    · next pc =>
      obtain rfl := Option.some.inj step
      by_cases seen : (σ.stop || !σ.tasks.isEmpty) = true
      · rw [if_pos seen]
        exact .passes pc (by simpa using seen)
      · rw [if_neg seen]
        simp only [Bool.or_eq_true, Bool.not_eq_true', List.isEmpty_eq_false_iff, not_or,
          Bool.not_eq_true, not_not] at seen
        exact .waits pc seen.1 seen.2
    · cases step
  | wait =>
    simp only [Sys.worker] at step
    split at step
    · next pc =>
      cases step
      exact .wait pc
    · cases step
  | wake =>
    simp only [Sys.worker, Option.ite_none_right_eq_some, Option.some.injEq] at step
    obtain ⟨pc, rfl⟩ := step
    exact .wake (isBlocked_iff.mp pc)
  | take =>
    simp only [Sys.worker] at step
    split at step
    · next pc =>
      split at step
      · next done =>
        cases step
        rw [Bool.and_eq_true, List.isEmpty_iff] at done
        exact .leaves pc done.1 done.2
      · split at step
        · next first =>
          cases step
          exact .take pc first
        · cases step
    · cases step
  | unlock =>
    simp only [Sys.worker] at step
    split at step
    · next pc =>
      cases step
      exact .exit pc
    · next pc =>
      cases step
      exact .run pc
    · cases step
  | finish =>
    simp only [Sys.worker] at step
    split at step
    · next pc idle =>
      cases step
      exact .finish pc idle
    · cases step

/-- A notification wakes one blocked worker, where there is one. -/
theorem notify_cases {target : Option (Fin n)} (ret : σ.notify target = some σ') :
    (σ' = σ ∧ ∀ w, σ.pc w ≠ .blocked) ∨ ∃ w, σ.pc w = .blocked ∧ σ' = σ.go w .woken := by
  cases target with
  | none =>
    simp only [Sys.notify, Option.ite_none_right_eq_some, Option.some.injEq] at ret
    refine .inl ⟨ret.2.symm, fun w pc => ?_⟩
    have awake := ret.1 w
    rw [isBlocked_iff.mpr pc] at awake
    cases awake
  | some w =>
    simp only [Sys.notify, Option.ite_none_right_eq_some, Option.some.injEq] at ret
    exact .inr ⟨w, isBlocked_iff.mp ret.1, ret.2.symm⟩

variable [DecidableEq U]

/-- The steps of all threads, with what each branch has seen. -/
inductive Move (σ : Sys n U F) : Act n U F → Sys n U F → Prop
  | worker {w : Fin n} {act : WorkerAct} {σ' : Sys n U F} (turn : Turn σ w act σ') :
      Move σ (.worker w act) σ'
  | enqueue {c : Caller n U} {func : F} (idle : σ.enqueue c = .idle)
      (may : σ.mayCall c = true) : Move σ (.enqueue c func) (σ.call c (.made func))
  | lock {c : Caller n U} {func : F} (made : σ.enqueue c = .made func) (free : σ.lock = none) :
      Move σ (.lock c) { σ.call c (.locked func) with lock := some (.caller c) }
  | throw {c : Caller n U} {func : F} (locked : σ.enqueue c = .locked func)
      (stop : σ.stop = true) : Move σ (.emplace c) { σ.call c .idle with lock := none }
  | emplace {c : Caller n U} {func : F} (locked : σ.enqueue c = .locked func)
      (up : σ.stop = false) :
      Move σ (.emplace c) { σ.call c .emplaced with
        tasks := σ.tasks ++ [⟨σ.log.submitted.length, func⟩]
        lock := none
        log := (σ.log.submit ⟨σ.log.submitted.length, func⟩).enqueue
          ⟨σ.log.submitted.length, func⟩ }
  | notifyOne {c : Caller n U} {target : Option (Fin n)} {σ' : Sys n U F}
      (emplaced : σ.enqueue c = .emplaced) (ret : σ.notify target = some σ') :
      Move σ (.notifyOne c target) (σ'.call c .idle)
  | destroy (idle : σ.destroy = .idle) (free : σ.lock = none) :
      Move σ .destroy { σ with destroy := .locked, lock := some .destroyer }
  | stop (locked : σ.destroy = .locked) :
      Move σ .stop { σ with stop := true, destroy := .stopped, lock := none }
  | notifyAll (stopped : σ.destroy = .stopped) :
      Move σ .notifyAll { σ.wakeAll with destroy := .joining 0 }
  | join {i : Nat} (lt : i < n) (joining : σ.destroy = .joining i)
      (exited : σ.pc ⟨i, lt⟩ = .exited) : Move σ .join { σ with destroy := .joining (i + 1) }
  | joined {i : Nat} (le : n ≤ i) (joining : σ.destroy = .joining i) :
      Move σ .join { σ with destroy := .done }

theorem step_move {act : Act n U F} (step : Step σ act σ') : Move σ act σ' := by
  cases act with
  | worker w act => exact .worker (worker_turn step)
  | enqueue c func =>
    simp only [Step, Sys.step] at step
    split at step
    · next idle =>
      simp only [Option.ite_none_right_eq_some, Option.some.injEq, Bool.and_eq_true] at step
      obtain ⟨⟨may, _⟩, rfl⟩ := step
      exact .enqueue idle may
    · cases step
  | lock c =>
    simp only [Step, Sys.step] at step
    split at step
    · next made free =>
      obtain ⟨_, step⟩ := Option.ite_none_right_eq_some.mp step
      cases step
      exact .lock made free
    · cases step
  | emplace c =>
    simp only [Step, Sys.step] at step
    split at step
    · next locked =>
      split at step
      · next stop =>
        cases step
        exact .throw locked stop
      · next up =>
        cases step
        exact .emplace locked (Bool.eq_false_iff.mpr up)
    · cases step
  | notifyOne c target =>
    simp only [Step, Sys.step] at step
    split at step
    · next emplaced =>
      obtain ⟨_, step⟩ := Option.ite_none_right_eq_some.mp step
      obtain ⟨σ₁, ret, rfl⟩ := Option.map_eq_some_iff.mp step
      exact .notifyOne emplaced ret
    · cases step
  | destroy =>
    simp only [Step, Sys.step] at step
    split at step
    · next idle free =>
      cases step
      exact .destroy idle free
    · cases step
  | stop =>
    simp only [Step, Sys.step, Option.ite_none_right_eq_some, Option.some.injEq] at step
    obtain ⟨locked, rfl⟩ := step
    exact .stop locked
  | notifyAll =>
    simp only [Step, Sys.step, Option.ite_none_right_eq_some, Option.some.injEq] at step
    obtain ⟨stopped, rfl⟩ := step
    exact .notifyAll stopped
  | join =>
    simp only [Step, Sys.step] at step
    split at step
    · next i joining =>
      split at step
      · next lt =>
        simp only [Option.ite_none_right_eq_some, Option.some.injEq] at step
        obtain ⟨exited, rfl⟩ := step
        exact .join lt joining (isExited_iff.mp exited)
      · next ge =>
        cases step
        exact .joined (Nat.le_of_not_lt ge) joining
    · cases step

end

end LearnC.Thread.ThreadPool
