import LearnC.Thread.ThreadPoolTasks

/-! The destructor of the `ThreadPool` returns, and by then every task has been executed. -/

namespace LearnC.Thread.ThreadPool

/-! ## What is left to do -/

/-- How far a worker is from its return. A task that it takes costs more than the way back. -/
def Pc.rank {F : Type} : Pc F → Nat
  | .exited => 0
  | .leaving none => 1
  | .passed => 3
  | .locked => 4
  | .top => 5
  | .woken => 5
  | .blocked => 6
  | .running _ => 6
  | .waits => 7
  | .leaving (some _) => 7

def Enqueue.rank {F : Type} : Enqueue F → Nat
  | .idle => 0
  | .emplaced => 1
  | .locked _ => 2
  | .made _ => 3

/-- How far the destructor of a pool with `n` workers is from its return. -/
def Destroy.rank (n : Nat) : Destroy → Nat
  | .done => 0
  | .joining i => n - i + 1
  | .stopped => n + 2
  | .locked => n + 3
  | .idle => n + 4

def Act.isCall {n : Nat} {U F : Type} : Act n U F → Bool
  | .enqueue _ _ => true
  | _ => false

section
variable {n : Nat} {U F : Type} [Fintype U]

def Sys.work (σ : Sys n U F) : Nat :=
  total Pc.rank σ.pc + 5 * σ.tasks.length + total Enqueue.rank σ.enqueue + σ.destroy.rank n

/-- The workers have returned, and every task that was put into the queue has been executed. -/
structure Drained (σ : Sys n U F) : Prop where
  returned : σ.destroy = .done
  exited : ∀ w, σ.pc w = .exited
  empty : σ.tasks = []
  executed : ∀ task ∈ σ.log.enqueued, task ∈ σ.log.executed

variable {σ σ' : Sys n U F} {w : Fin n} {act : WorkerAct}

theorem go_work {pc : Pc F} (pcs : σ'.pc = Function.update σ.pc w pc)
    (tasks : σ'.tasks = σ.tasks) (enqueue : σ'.enqueue = σ.enqueue)
    (destroy : σ'.destroy = σ.destroy) (lt : pc.rank < (σ.pc w).rank) : σ'.work < σ.work := by
  have moved : total Pc.rank σ'.pc + (σ.pc w).rank = total Pc.rank σ.pc + pc.rank := by
    rw [pcs]
    exact total_update w pc
  rw [Sys.work, Sys.work, tasks, enqueue, destroy]
  omega

theorem notify_work {target : Option (Fin n)} (ret : σ.notify target = some σ') :
    σ'.work ≤ σ.work := by
  rcases notify_cases ret with ⟨rfl, _⟩ | ⟨w, pc, rfl⟩
  · exact Nat.le_refl _
  · exact Nat.le_of_lt (go_work rfl rfl rfl rfl (by simp [pc, Pc.rank]))

theorem turn_work (stop : σ.stop = true) (turn : Turn σ w act σ') : σ'.work < σ.work := by
  cases turn with
  | lock pc _ =>
    have lt : (Pc.locked : Pc F).rank < (σ.pc w).rank := by
      rcases pc with pc | pc <;> simp [pc, Pc.rank]
    exact go_work rfl rfl rfl rfl lt
  | passes pc _ | leaves pc _ _ | exit pc | run pc | finish pc _ | wait pc | wake pc =>
    exact go_work rfl rfl rfl rfl (by simp [pc, Pc.rank])
  | waits _ up _ => cases stop.symm.trans up
  | @take task rest pc first =>
    have moved : total Pc.rank (Function.update σ.pc w (.leaving (some task))) + (σ.pc w).rank =
        total Pc.rank σ.pc + (Pc.leaving (some task)).rank := total_update w _
    simp only [pc, Pc.rank] at moved
    simp only [Sys.work, Sys.go, first, List.length_cons]
    omega

variable [DecidableEq U]

theorem call_work {c : Caller n U} {pc : Enqueue F} (pcs : σ'.pc = σ.pc)
    (tasks : σ'.tasks = σ.tasks) (enqueue : σ'.enqueue = Function.update σ.enqueue c pc)
    (destroy : σ'.destroy = σ.destroy) (lt : pc.rank < (σ.enqueue c).rank) : σ'.work < σ.work := by
  have moved : total Enqueue.rank σ'.enqueue + (σ.enqueue c).rank =
      total Enqueue.rank σ.enqueue + pc.rank := by
    rw [enqueue]
    exact total_update c pc
  rw [Sys.work, Sys.work, pcs, tasks, destroy]
  omega

theorem step_work {act : Act n U F} (C : Control σ) (stop : σ.stop = true)
    (own : act.isCall = false) (step : Step σ act σ') : σ'.work < σ.work := by
  cases step_move step with
  | worker turn => exact turn_work stop turn
  | enqueue _ _ => cases own
  | lock made _ => exact call_work rfl rfl rfl rfl (by simp [made, Enqueue.rank])
  | throw locked _ => exact call_work rfl rfl rfl rfl (by simp [locked, Enqueue.rank])
  | emplace _ up => cases stop.symm.trans up
  | @notifyOne c target σ₁ emplaced ret =>
    have same : σ₁.enqueue = σ.enqueue := by
      rcases notify_cases ret with ⟨rfl, _⟩ | ⟨w, pc, rfl⟩ <;> rfl
    have less : (σ₁.call c .idle).work < σ₁.work :=
      call_work rfl rfl rfl rfl (by simp [same, emplaced, Enqueue.rank])
    exact Nat.lt_of_lt_of_le less (notify_work ret)
  | destroy idle _ => exact absurd idle (C.ended.stop.mp stop).1
  | stop locked => exact absurd locked (C.ended.stop.mp stop).2
  | notifyAll stopped =>
    have le : total Pc.rank σ.wakeAll.pc ≤ total Pc.rank σ.pc := by
      refine total_le fun w => ?_
      simp only [Sys.wakeAll]
      split
      · next blocked => simp [isBlocked_iff.mp blocked, Pc.rank]
      · exact Nat.le_refl _
    simp only [Sys.wakeAll] at le
    simp only [Sys.work, Sys.wakeAll, stopped, Destroy.rank]
    omega
  | join lt joining _ =>
    simp only [Sys.work, joining, Destroy.rank]
    omega
  | joined _ joining =>
    simp only [Sys.work, joining, Destroy.rank]
    omega

end

/-! ## There is always a next step -/

section
variable {n : Nat} {U F : Type} {σ σ' : Sys n U F}

/-- By the time the destructor of a pool with workers has returned every task has been
executed. -/
theorem done_drained (workers : 0 < n) (C : Control σ) (K : Kept σ) (done : σ.destroy = .done) :
    Drained σ := by
  have exited (w : Fin n) : σ.pc w = .exited := C.ended.joined w (by rw [done]; trivial)
  have empty : σ.tasks = [] := (C.seen.past ⟨0, workers⟩ (.inr (exited _))).2
  constructor
  · exact done
  · exact exited
  · exact empty
  · intro task mem
    rcases K.all task mem with queued | ⟨w, held⟩ | ran
    · rw [empty] at queued
      cases queued
    · rw [exited w] at held
      cases held
    · exact ran

variable [DecidableEq U]

theorem step_stop {act : Act n U F} (stop : σ.stop = true) (step : Step σ act σ') :
    σ'.stop = true := by
  cases step_move step with
  | worker turn =>
    have same : σ'.stop = σ.stop := by cases turn <;> rfl
    rw [same, stop]
  | notifyOne _ ret =>
    rcases notify_cases ret with ⟨rfl, _⟩ | ⟨w, pc, rfl⟩ <;> exact stop
  | stop _ => rfl
  | enqueue _ _ | lock _ _ | throw _ _ | emplace _ _ | destroy _ _ | notifyAll _ | join _ _ _
  | joined _ _ => exact stop

theorem holder_steps (stop : σ.stop = true) {o : Owner n U} (held : σ.holds o)
    (up : σ.destroy ≠ .locked) : ∃ act, act.isCall = false ∧ (σ.step act).isSome = true := by
  cases o with
  | worker w =>
    simp only [Sys.holds] at held
    cases pc : σ.pc w with
    | locked => exact ⟨.worker w .test, rfl, by simp [Sys.step, Sys.worker, pc]⟩
    | waits => exact ⟨.worker w .wait, rfl, by simp [Sys.step, Sys.worker, pc]⟩
    | passed =>
      refine ⟨.worker w .take, rfl, ?_⟩
      cases tasks : σ.tasks <;> simp [Sys.step, Sys.worker, pc, tasks, stop]
    | leaving task =>
      refine ⟨.worker w .unlock, rfl, ?_⟩
      cases task <;> simp [Sys.step, Sys.worker, pc]
    | top | blocked | woken | running _ | exited =>
      rw [pc] at held
      cases held
  | caller c =>
    simp only [Sys.holds] at held
    cases pc : σ.enqueue c with
    | locked func => exact ⟨.emplace c, rfl, by simp [Sys.step, pc, stop]⟩
    | idle | made _ | emplaced =>
      rw [pc] at held
      cases held
  | destroyer => exact absurd held up

/-- With the lock free and the destructor waiting for worker `w`, that worker can go on, or the
call in its task can. -/
theorem awaited_steps (C : Control σ) (free : σ.lock = none) {i : Nat}
    (joining : σ.destroy = .joining i) (w : Fin n) (running : σ.pc w ≠ .exited) :
    ∃ act, act.isCall = false ∧ (σ.step act).isSome = true := by
  have nobody (w : Fin n) : σ.pc w ≠ .blocked := C.ended.notified (by rw [joining]; trivial) w
  have mutex := C.mutex
  rw [free] at mutex
  have unheld (o : Owner n U) : ¬ σ.holds o := fun h => by
    have := (mutex o).mpr h
    cases this
  have out := unheld (.worker w)
  simp only [Sys.holds] at out
  cases pc : σ.pc w with
  | top | woken => exact ⟨.worker w .lock, rfl, by simp [Sys.step, Sys.worker, pc, free]⟩
  | running task =>
    cases call : σ.enqueue (.inl w) with
    | idle => exact ⟨.worker w .finish, rfl, by simp [Sys.step, Sys.worker, pc, call]⟩
    | made func => exact ⟨.lock (.inl w), rfl, by simp [Sys.step, call, free, joining]⟩
    | locked func =>
      have inside := unheld (.caller (.inl w))
      rw [Sys.holds, call] at inside
      exact absurd rfl inside
    | emplaced =>
      have none : ∀ w, (σ.pc w).isBlocked = false :=
        fun w => Bool.eq_false_iff.mpr fun h => nobody w (isBlocked_iff.mp h)
      exact ⟨.notifyOne (.inl w) Option.none, rfl, by
        simp [Sys.step, Sys.notify, call, none, joining]⟩
  | blocked => exact absurd pc (nobody w)
  | exited => exact absurd pc running
  | locked | waits | passed | leaving _ =>
    rw [pc] at out
    exact absurd rfl out

theorem stopped_steps (C : Control σ) (stop : σ.stop = true) (going : σ.destroy ≠ .done) :
    ∃ act, act.isCall = false ∧ (σ.step act).isSome = true := by
  obtain ⟨begun, set⟩ := C.ended.stop.mp stop
  cases lock : σ.lock with
  | some o => exact holder_steps stop ((C.mutex o).mp lock) set
  | none =>
    cases destroy : σ.destroy with
    | idle => exact absurd destroy begun
    | locked => exact absurd destroy set
    | done => exact absurd destroy going
    | stopped => exact ⟨.notifyAll, rfl, by simp [Sys.step, destroy]⟩
    | joining i =>
      by_cases lt : i < n
      · by_cases exited : σ.pc ⟨i, lt⟩ = .exited
        · exact ⟨.join, rfl, by simp [Sys.step, destroy, lt, isExited_iff.mpr exited]⟩
        · exact awaited_steps C lock destroy ⟨i, lt⟩ exited
      · exact ⟨.join, rfl, by simp [Sys.step, destroy, lt]⟩

end

/-- Once `stop` is set the pool with workers only drains, in every order of steps: there are
at most `work` steps besides new calls, and until the destructor has returned, with every task
executed, there is such a step. -/
theorem destructor_drains {n : Nat} {U F : Type} [Fintype U] [DecidableEq U] (workers : 0 < n)
    (acts : List (Act n U F)) (σ : Sys n U F) (run : Run Step start acts σ)
    (stop : σ.stop = true) (later : List (Act n U F)) (τ : Sys n U F)
    (own : Run (When (fun _ act => act.isCall = false) Step) σ later τ) :
    later.length + τ.work ≤ σ.work ∧
      (Drained τ ∨ ∃ act, act.isCall = false ∧ (τ.step act).isSome = true) := by
  have C := run_control run
  have reached : Control τ ∧ τ.stop = true ∧ later.length + τ.work ≤ σ.work := by
    clear run
    induction own with
    | nil => exact ⟨C, stop, by simp⟩
    | snoc _ step ih =>
      obtain ⟨C, stop, le⟩ := ih
      have less := step_work C stop step.1 step.2
      refine ⟨step_control C step.2, step_stop stop step.2, ?_⟩
      rw [List.length_append, List.length_singleton]
      omega
  obtain ⟨C', stop', le⟩ := reached
  refine ⟨le, ?_⟩
  by_cases done : τ.destroy = .done
  · exact .inl (done_drained workers C' (run_queued (run.append own.of_when)).law done)
  · exact .inr (stopped_steps C' stop' done)

/-- The destructor meets a pool whose only worker has just taken a task. -/
theorem oneTaken_drains : ∃ σ τ : Sys 1 Unit Nat,
    Run Step start (oneTaken 0 ++ [.worker 0 .unlock, .destroy, .stop]) σ ∧
    Run (When (fun _ act => act.isCall = false) Step) σ [.notifyAll] τ ∧
    ([.notifyAll] : List (Act 1 Unit Nat)).length + τ.work ≤ σ.work ∧
    (Drained τ ∨ ∃ act, act.isCall = false ∧ (τ.step act).isSome = true) := by
  have ran : (execute Sys.step (start : Sys 1 Unit Nat)
      (oneTaken 0 ++ [.worker 0 .unlock, .destroy, .stop])).map
      (fun σ => (σ.stop, σ.destroy)) = some (true, .stopped) := by
    decide
  obtain ⟨σ, ret, eq⟩ := Option.map_eq_some_iff.mp ran
  obtain ⟨stop, stopped⟩ := Prod.mk.inj eq
  have run : Run Step start (oneTaken 0 ++ [.worker 0 .unlock, .destroy, .stop]) σ :=
    execute_run (fun _ _ _ step => step) ret
  have own : Run (When (fun _ act => act.isCall = false) Step) σ [.notifyAll]
      { σ.wakeAll with destroy := .joining 0 } :=
    Run.nil.snoc ⟨rfl, by simp [Step, Sys.step, stopped]⟩
  exact ⟨σ, _, run, own, destructor_drains Nat.one_pos _ σ run stop _ _ own⟩

end LearnC.Thread.ThreadPool
