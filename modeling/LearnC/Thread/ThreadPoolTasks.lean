import LearnC.Thread.ThreadPoolControl
import Mathlib.Data.Fintype.Sum

/-! What becomes of the tasks of the `ThreadPool`, and the workers that are notified of them. -/

namespace LearnC.Thread.ThreadPool

/-- The task a worker has taken and not yet begun. -/
def Pc.due {F : Type} : Pc F → Option (Task F)
  | .leaving task => task
  | _ => none

/-- The worker neither waits to be notified nor has returned. -/
def Pc.isAwake {F : Type} (pc : Pc F) : Bool := !pc.isBlocked && !pc.isExited

/-- The caller has put its task into the queue and not yet notified. -/
def Enqueue.isNotifying {F : Type} : Enqueue F → Bool
  | .emplaced => true
  | _ => false

section
variable {n : Nat} {U F : Type}

/-- The pool as a queue of tasks; a call submits its task when it puts it into the queue. -/
def Sys.queue (σ : Sys n U F) : TaskQueue (Caller n U) (Fin n) (Task F) where
  log := σ.log
  pending := fun _ => none
  queue := σ.tasks
  taken := fun w => (σ.pc w).due

structure Queued (σ : Sys n U F) : Prop where
  valid : σ.queue.Valid
  numbered : ∀ task ∈ σ.log.submitted, task.call < σ.log.submitted.length
  kept : σ.log.discarded = []

/-- Tasks are taken in the order in which they were put into the queue, each by one worker, no
task is executed twice, and none is lost: it is in the queue, taken by a worker, or executed. -/
structure Kept (σ : Sys n U F) : Prop where
  order : σ.log.enqueued = σ.log.dequeued ++ σ.tasks
  one : ∀ v w task, (σ.pc v).due = some task → (σ.pc w).due = some task → v = w
  once : σ.log.executed.Nodup
  taken : ∀ task ∈ σ.log.executed, task ∈ σ.log.dequeued
  all : ∀ task ∈ σ.log.enqueued,
    task ∈ σ.tasks ∨ (∃ w, (σ.pc w).due = some task) ∨ task ∈ σ.log.executed

variable {σ σ' : Sys n U F} {w : Fin n} {act : WorkerAct}

/-! ## The queue -/

theorem due_go {pc : Pc F} (same : pc.due = (σ.pc w).due) :
    (fun v => ((σ.go w pc).pc v).due) = fun v => (σ.pc v).due := by
  funext v
  by_cases eq : v = w
  · subst eq
    simp [Sys.go, same]
  · simp [Sys.go, Function.update_of_ne eq]

theorem due_update {pc : Pc F} : (fun v => ((σ.go w pc).pc v).due) =
    Function.update (fun v => (σ.pc v).due) w pc.due := by
  funext v
  by_cases eq : v = w
  · subst eq
    simp [Sys.go]
  · simp [Sys.go, Function.update_of_ne eq]

/-- Worker `w` goes on, and the log and the queue change with it. -/
theorem queue_go {pc : Pc F} {lock : Option (Owner n U)} {log : TaskLog (Task F)}
    {tasks : List (Task F)} :
    ({ σ.go w pc with tasks := tasks, lock := lock, log := log } : Sys n U F).queue =
      { σ.queue with
        log := log
        queue := tasks
        taken := Function.update σ.queue.taken w pc.due } :=
  congrArg (TaskQueue.mk log _ tasks) due_update

/-- The log, the queue and what the workers have taken are the same. -/
theorem Queued.keep (Q : Queued σ) (log : σ'.log = σ.log) (tasks : σ'.tasks = σ.tasks)
    (due : (fun v => (σ'.pc v).due) = fun v => (σ.pc v).due) : Queued σ' := by
  obtain ⟨valid, numbered, kept⟩ := Q
  have same : σ'.queue = σ.queue := by rw [Sys.queue, Sys.queue, log, tasks, due]
  exact ⟨same ▸ valid, log ▸ numbered, log ▸ kept⟩

theorem start_queued : Queued (start : Sys n U F) :=
  ⟨TaskQueue.valid_start, by simp [start, TaskLog.empty], rfl⟩

theorem pcs_due (pcs : ∀ w, σ'.pc w = σ.pc w ∨ σ'.pc w = .woken ∧ σ.pc w = .blocked) :
    (fun v => (σ'.pc v).due) = fun v => (σ.pc v).due := by
  funext v
  rcases pcs v with same | ⟨woken, blocked⟩
  · rw [same]
  · rw [woken, blocked]
    rfl

theorem Queued.law (Q : Queued σ) : Kept σ := by
  obtain ⟨valid, _, kept⟩ := Q
  have order : σ.log.enqueued = σ.log.dequeued ++ σ.tasks := by
    have all : σ.log.enqueued = σ.log.dequeued ++ σ.log.discarded ++ σ.tasks := valid.order
    rwa [kept, List.append_nil] at all
  constructor
  · exact order
  · exact valid.serving.one
  · exact valid.serving.once
  · exact valid.serving.sub
  · intro task mem
    rw [order] at mem
    rcases List.mem_append.mp mem with out | inside
    · rcases valid.serving.all task out with ran | held
      · exact .inr (.inr ran)
      · exact .inr (.inl held)
    · exact .inl inside

variable [DecidableEq U]

theorem turn_queued (Q : Queued σ) (turn : Turn σ w act σ') : Queued σ' := by
  cases turn with
  | lock pc _ =>
    refine Q.keep rfl rfl (due_go ?_)
    rcases pc with pc | pc <;> rw [pc] <;> rfl
  | passes pc _ | waits pc _ _ | wait pc | wake pc | leaves pc _ _ | exit pc | finish pc _ =>
    exact Q.keep rfl rfl (due_go (by rw [pc]; rfl))
  | @take task rest pc first =>
    have idle : (σ.pc w).due = none := by
      rw [pc]
      rfl
    have moved := Q.valid.move (.dequeue (w := w) first idle Q.kept)
    refine ⟨?_, Q.numbered, Q.kept⟩
    rw [queue_go]
    exact moved
  | @run task pc =>
    have has : (σ.pc w).due = some task := by
      rw [pc]
      rfl
    have moved := Q.valid.move (.execute (w := w) has)
    refine ⟨?_, Q.numbered, Q.kept⟩
    rw [queue_go]
    exact moved

theorem step_queued {act : Act n U F} (Q : Queued σ) (step : Step σ act σ') : Queued σ' := by
  cases step_move step with
  | worker turn => exact turn_queued Q turn
  | enqueue _ _ | lock _ _ | throw _ _ | destroy _ _ | stop _ | join _ _ _ | joined _ _ =>
    exact ⟨Q.valid, Q.numbered, Q.kept⟩
  | @emplace c func locked up =>
    have new : (⟨σ.log.submitted.length, func⟩ : Task F) ∉ σ.log.submitted :=
      fun mem => Nat.lt_irrefl _ (Q.numbered _ mem)
    have submitted := Q.valid.move (.submit (c := c) rfl new)
    have moved := submitted.move (.enqueue (c := c) (Function.update_self ..))
    have none : Function.update (Function.update σ.queue.pending c
        (some (⟨σ.log.submitted.length, func⟩ : Task F))) c Option.none = fun _ => Option.none := by
      rw [Function.update_idem]
      exact Function.update_eq_self c (fun _ => Option.none)
    simp only [none] at moved
    refine ⟨moved, ?_, Q.kept⟩
    intro task mem
    simp only [TaskLog.submit, TaskLog.enqueue, List.length_append, List.length_singleton]
    rcases List.mem_append.mp mem with old | last
    · exact Nat.lt_succ_of_lt (Q.numbered task old)
    · rw [List.mem_singleton.mp last]
      exact Nat.lt_succ_self _
  | @notifyOne c target σ₁ _ ret =>
    have frame : σ₁.log = σ.log ∧ σ₁.tasks = σ.tasks := by
      rcases notify_cases ret with ⟨rfl, _⟩ | ⟨w, pc, rfl⟩ <;> exact ⟨rfl, rfl⟩
    have due : (fun v => (σ₁.pc v).due) = fun v => (σ.pc v).due := pcs_due (notify_pcs ret)
    exact Q.keep frame.1 frame.2 due
  | notifyAll _ =>
    refine Q.keep rfl rfl (pcs_due fun w => ?_)
    simp only [Sys.wakeAll]
    split
    · next blocked => exact .inr ⟨rfl, isBlocked_iff.mp blocked⟩
    · exact .inl rfl

theorem run_queued {acts : List (Act n U F)} (run : Run Step start acts σ) : Queued σ :=
  run.invariant (I := Queued) start_queued fun _ _ _ Q step => step_queued Q step

/-- In every interleaving of workers, callers and the destructor the tasks come out in the order
in which they went in, and each is executed once at most, and never lost. -/
theorem tasks_served (n : Nat) (U F : Type) [DecidableEq U] (acts : List (Act n U F))
    (σ : Sys n U F) (run : Run Step start acts σ) : Kept σ :=
  (run_queued run).law

/-- A caller puts one task into the queue, and a worker that waited takes it. -/
def oneTaken (w : Fin n) : List (Act n Unit Nat) :=
  [.worker w .lock, .worker w .test, .worker w .wait, .enqueue (.inr ()) 7, .lock (.inr ()),
    .emplace (.inr ()), .notifyOne (.inr ()) (some w), .worker w .lock, .worker w .test,
    .worker w .take]

theorem oneTaken_served : ∃ σ, Run Step (start : Sys 1 Unit Nat) (oneTaken 0) σ ∧
    (σ.tasks, (σ.pc 0).due) = ([], some ⟨0, 7⟩) ∧ Kept σ := by
  have ran : (execute Sys.step (start : Sys 1 Unit Nat) (oneTaken 0)).map
      (fun σ => (σ.tasks, (σ.pc 0).due)) = some ([], some ⟨0, 7⟩) := by
    decide
  obtain ⟨σ, ret, eq⟩ := Option.map_eq_some_iff.mp ran
  have run : Run Step start (oneTaken 0) σ := execute_run (fun _ _ _ step => step) ret
  exact ⟨σ, run, eq, tasks_served 1 Unit Nat _ σ run⟩

end

/-! ## The notifications -/

section
variable {n : Nat} {U F : Type} {σ : Sys n U F} {w : Fin n}

/-- Worker `w` goes on, without being blocked or leaving. -/
theorem awake_go {pc : Pc F} (awake : (σ.pc w).isAwake = true) (awake' : pc.isAwake = true) :
    count Pc.isBlocked (σ.go w pc).pc = count Pc.isBlocked σ.pc ∧
      count Pc.isAwake (σ.go w pc).pc = count Pc.isAwake σ.pc := by
  have blocked {pc : Pc F} (awake : pc.isAwake = true) : pc.isBlocked = false := by
    cases pc <;> first | rfl | cases awake
  constructor
  · exact count_same (by rw [blocked awake, blocked awake'])
  · exact count_same (by rw [awake, awake'])

/-- Worker `w` leaves its wait. -/
theorem woken_go (pc : σ.pc w = .blocked) :
    count Pc.isBlocked (σ.go w .woken).pc + 1 = count Pc.isBlocked σ.pc ∧
      count Pc.isAwake (σ.go w .woken).pc = count Pc.isAwake σ.pc + 1 := by
  have awake : (Pc.woken : Pc F).isAwake.toNat + 0 = (σ.pc w).isAwake.toNat + 1 := by
    rw [pc]
    rfl
  constructor
  · exact count_step (a := 1) (b := 0) (by rw [pc]; rfl)
  · exact count_step awake

end

section
variable {n : Nat} {U F : Type} [Fintype U] {σ σ' : Sys n U F} {w : Fin n} {act : WorkerAct}

def Sys.monitor (σ : Sys n U F) : Monitor where
  blocked := count Pc.isBlocked σ.pc
  awake := count Pc.isAwake σ.pc
  notifying := count Enqueue.isNotifying σ.enqueue
  supply := σ.tasks.length

/-- While a worker is blocked each task in the queue has a worker that will come for it or a
caller about to notify; and behind `notify_all` no worker is blocked. -/
structure Attended (σ : Sys n U F) : Prop where
  heard : (∃ w, σ.pc w = .blocked) → σ.tasks.length ≤
    count Pc.isAwake σ.pc + count Enqueue.isNotifying σ.enqueue
  told : σ.destroy.Notified → ∀ w, σ.pc w ≠ .blocked

theorem turn_monitor (S : Seen σ) (turn : Turn σ w act σ') :
    Monitor.Move σ.monitor σ'.monitor := by
  have stay {pc : Pc F} (awake : (σ.pc w).isAwake = true) (awake' : pc.isAwake = true) :
      Monitor.Move σ.monitor (σ.go w pc).monitor :=
    .stay (awake_go awake awake').1 (awake_go awake awake').2 rfl rfl
  cases turn with
  | lock pc _ =>
    refine stay ?_ rfl
    rcases pc with pc | pc <;> rw [pc] <;> rfl
  | passes pc _ | waits pc _ _ | leaves pc _ _ | run pc | finish pc _ =>
    exact stay (by rw [pc]; rfl) rfl
  | wait pc => exact .wait (by simp [Sys.monitor, Sys.go, (S.waits w pc).2])
  | wake pc => exact .wake (woken_go pc).1 (woken_go pc).2 rfl rfl
  | @take task rest pc first =>
    obtain ⟨blocked, awake⟩ :
        count Pc.isBlocked (σ.go w (.leaving (some task))).pc = count Pc.isBlocked σ.pc ∧
          count Pc.isAwake (σ.go w (.leaving (some task))).pc = count Pc.isAwake σ.pc :=
      awake_go (by rw [pc]; rfl) rfl
    exact .take blocked awake rfl (by simp [Sys.monitor, first])
  | exit pc => exact .wait (by simp [Sys.monitor, Sys.go, (S.past w (.inl pc)).2])

variable [DecidableEq U]

theorem notifying_call {c : Caller n U} {pc : Enqueue F} {a b : Nat}
    (change : pc.isNotifying.toNat + a = (σ.enqueue c).isNotifying.toNat + b) :
    count Enqueue.isNotifying (σ.call c pc).enqueue + a =
      count Enqueue.isNotifying σ.enqueue + b :=
  count_step change

theorem step_monitor {act : Act n U F} (S : Seen σ) (step : Step σ act σ') :
    Monitor.Move σ.monitor σ'.monitor := by
  cases step_move step with
  | worker turn => exact turn_monitor S turn
  | enqueue idle _ =>
    exact .stay rfl rfl (notifying_call (a := 0) (b := 0) (by rw [idle]; rfl)) rfl
  | lock made _ => exact .stay rfl rfl (notifying_call (a := 0) (b := 0) (by rw [made]; rfl)) rfl
  | throw locked _ =>
    exact .stay rfl rfl (notifying_call (a := 0) (b := 0) (by rw [locked]; rfl)) rfl
  | emplace locked _ =>
    exact .add rfl rfl (notifying_call (a := 0) (b := 1) (by rw [locked]; rfl))
      (by simp [Sys.monitor])
  | @notifyOne c target σ₁ emplaced ret =>
    rcases notify_cases ret with ⟨rfl, nobody⟩ | ⟨w, pc, rfl⟩
    · have none : σ₁.monitor.blocked = 0 :=
        count_eq_zero.mpr fun w => Bool.eq_false_iff.mpr fun h => nobody w (isBlocked_iff.mp h)
      exact .unheard none rfl
    · have notified : count Enqueue.isNotifying ((σ.go w .woken).call c .idle).enqueue + 1 =
          count Enqueue.isNotifying σ.enqueue + 0 :=
        notifying_call (σ := σ.go w .woken) (by
          rw [show (σ.go w .woken).enqueue c = .emplaced from emplaced]
          rfl)
      exact .notify (woken_go pc).1 (woken_go pc).2 notified rfl
  | destroy _ _ | stop _ | join _ _ _ | joined _ _ => exact .stay rfl rfl rfl rfl
  | notifyAll _ =>
    have none : count Pc.isBlocked σ.wakeAll.pc = 0 := by
      rw [count_eq_zero]
      intro w
      simp only [Sys.wakeAll]
      split
      · rfl
      · next awake => exact Bool.eq_false_iff.mpr awake
    exact .wakeAll none

/-- No notification is lost: no worker sleeps while a task waits for one. -/
theorem workers_attend (acts : List (Act n U F)) (σ : Sys n U F) (run : Run Step start acts σ) :
    Attended σ := by
  have empty : Monitor.Heard (start : Sys n U F).monitor := by
    intro _
    simp [Sys.monitor, start]
  have heard := Monitor.heard_of_run (J := Control) (f := Sys.monitor) start_control
    (fun _ _ _ C step => step_control C step) empty
    (fun _ _ _ C step => step_monitor C.seen step) run
  constructor
  · rintro ⟨w, blocked⟩
    have some : 0 < count Pc.isBlocked σ.pc := count_pos.mpr ⟨w, by rw [blocked]; rfl⟩
    exact heard (Nat.pos_iff_ne_zero.mp some)
  · exact (run_control run).ended.notified

/-- A worker waits while a caller has not yet notified it of its task. -/
theorem waiting_attended : ∃ σ, Run Step (start : Sys 1 Unit Nat) ((oneTaken 0).take 6) σ ∧
    (σ.pc 0, σ.tasks) = (.blocked, [⟨0, 7⟩]) ∧ Attended σ := by
  have ran : (execute Sys.step (start : Sys 1 Unit Nat) ((oneTaken 0).take 6)).map
      (fun σ => (σ.pc 0, σ.tasks)) = some (.blocked, [⟨0, 7⟩]) := by
    decide
  obtain ⟨σ, ret, eq⟩ := Option.map_eq_some_iff.mp ran
  have run : Run Step start ((oneTaken 0).take 6) σ := execute_run (fun _ _ _ step => step) ret
  exact ⟨σ, run, eq, workers_attend _ σ run⟩

end

end LearnC.Thread.ThreadPool
