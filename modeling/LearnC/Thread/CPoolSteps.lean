import LearnC.Thread.CPool

/-! What each step of the thread pool has seen, and what it does. -/

namespace LearnC.Thread.CPool

section
variable {n : Nat} {U : Type} {σ σ' : Sys n U} {w : Fin n}

/-- The steps of `thread_routine`, with what each branch has seen. -/
inductive Turn (σ : Sys n U) (w : Fin n) : WorkerAct → Sys n U → Prop
  | lock (pc : σ.pc w = .outside ∨ σ.pc w = .woken) (free : σ.lock = none) :
      Turn σ w .lock { σ.go w .locked with lock := some w }
  | waits (pc : σ.pc w = .locked) : Turn σ w .test (σ.go w .waits)
  | passes (pc : σ.pc w = .locked)
      (seen : σ.pool.curQueueSize ≠ 0 ∨ σ.pool.shutdown = true) : Turn σ w .test (σ.go w .passed)
  | wait (pc : σ.pc w = .waits) : Turn σ w .wait { σ.go w .blocked with lock := none }
  | wake (pc : σ.pc w = .blocked) : Turn σ w .wake (σ.go w .woken)
  | exits (pc : σ.pc w = .passed) : Turn σ w .check { σ.go w .exited with lock := none }
  | works (pc : σ.pc w = .passed) (seen : ¬ σ.pool.shutdown = true) :
      Turn σ w .check (σ.go w .working)
  | take {p : Pool} {a : Addr} {t : Task} (pc : σ.pc w = .working)
      (ret : σ.pool.take = .ok (p, a)) (task : p.task a = some t) :
      Turn σ w .take { σ.go w (.took a) with pool := p, lock := none, log := σ.log.dequeue t }
  | run {a : Addr} {t : Task} (pc : σ.pc w = .took a) (task : σ.pool.task a = some t) :
      Turn σ w .run { σ.go w (.running a) with log := σ.log.execute t }
  | finish {a : Addr} {p : Pool} (pc : σ.pc w = .running a) (ret : σ.pool.free a = .ok p) :
      Turn σ w .finish { σ.go w .outside with pool := p }

theorem worker_turn {act : WorkerAct} (step : σ.worker w act = some σ') : Turn σ w act σ' := by
  cases act with
  | lock =>
    simp only [Sys.worker, Option.ite_none_right_eq_some, Option.some.injEq] at step
    obtain ⟨⟨pc, free, _⟩, rfl⟩ := step
    exact .lock pc free
  | test =>
    simp only [Sys.worker, Option.ite_none_right_eq_some] at step
    obtain ⟨pc, step⟩ := step
    split at step
    · cases step
      exact .waits pc
    · next seen =>
      cases step
      exact .passes pc (by simpa [or_iff_not_imp_left] using seen)
  | wait =>
    simp only [Sys.worker, Option.ite_none_right_eq_some, Option.some.injEq] at step
    obtain ⟨pc, rfl⟩ := step
    exact .wait pc
  | wake =>
    simp only [Sys.worker, Option.ite_none_right_eq_some, Option.some.injEq] at step
    obtain ⟨pc, rfl⟩ := step
    exact .wake pc
  | check =>
    simp only [Sys.worker, Option.ite_none_right_eq_some] at step
    obtain ⟨pc, step⟩ := step
    split at step
    · cases step
      exact .exits pc
    · next seen =>
      cases step
      exact .works pc seen
  | take =>
    simp only [Sys.worker, Option.ite_none_right_eq_some] at step
    obtain ⟨pc, step⟩ := step
    split at step
    · next p a ret =>
      obtain ⟨t, task, rfl⟩ := Option.map_eq_some_iff.mp step
      exact .take pc ret task
    · cases step
  | run =>
    simp only [Sys.worker] at step
    split at step
    · next a pc =>
      obtain ⟨t, task, rfl⟩ := Option.map_eq_some_iff.mp step
      exact .run pc task
    · cases step
  | finish =>
    simp only [Sys.worker] at step
    split at step
    · next a pc =>
      simp only [Option.ite_none_right_eq_some] at step
      obtain ⟨_, step⟩ := step
      split at step
      · next p ret =>
        cases step
        exact .finish pc ret
      · cases step
    · cases step

/-- A worker moves itself only, and is blocked by its wait only. -/
theorem Turn.frame {act : WorkerAct} (turn : Turn σ w act σ') :
    ∃ pc, σ'.pc = Function.update σ.pc w pc ∧ (pc = .blocked ↔ act = .wait) ∧
      σ'.adding = σ.adding ∧ σ'.destroy = σ.destroy := by
  cases turn <;> exact ⟨_, rfl, by simp, rfl, rfl⟩

/-- A signal wakes one blocked worker at most. -/
theorem notify_cases {target : Option (Fin n)} (ret : σ.notify target = some σ') :
    σ' = σ ∨ ∃ w, σ.pc w = .blocked ∧ σ' = σ.go w .woken := by
  cases target with
  | none =>
    simp only [Sys.notify, Option.ite_none_right_eq_some, Option.some.injEq] at ret
    exact .inl ret.2.symm
  | some w =>
    simp only [Sys.notify, Option.ite_none_right_eq_some, Option.some.injEq] at ret
    exact .inr ⟨w, ret.1, ret.2.symm⟩

variable [DecidableEq U]

/-- The steps of all threads, with what each branch has seen. -/
inductive Move (σ : Sys n U) : Act n U → Sys n U → Prop
  | worker {w : Fin n} {act : WorkerAct} {σ' : Sys n U} (turn : Turn σ w act σ') :
      Move σ (.worker w act) σ'
  | call {c : Caller n U} {a process arg : Addr} (idle : σ.adding c = .idle)
      (new : a ∉ σ.pool.heap) :
      Move σ (.call c a process arg) { σ.add c (.built a) with
        pool := σ.pool.build a ⟨σ.log.submitted.length, process, arg⟩
        log := σ.log.submit ⟨σ.log.submitted.length, process, arg⟩ }
  | link {c : Caller n U} {a : Addr} {p : Pool} {t : Task} (built : σ.adding c = .built a)
      (free : σ.lock = none) (undone : σ.destroy ≠ .done) (ret : σ.pool.append a = .ok p)
      (task : p.task a = some t) :
      Move σ (.link c) { σ.add c .linked with pool := p, log := σ.log.enqueue t }
  | signal {c : Caller n U} {target : Option (Fin n)} {σ' : Sys n U}
      (linked : σ.adding c = .linked) (ret : σ.notify target = some σ') :
      Move σ (.signal c target) (σ'.add c .idle)
  | refused : Move σ .destroy σ
  | destroy (idle : σ.destroy = .idle) :
      Move σ .destroy { σ with pool := { σ.pool with shutdown := true }, destroy := .set }
  | broadcast (set : σ.destroy = .set) :
      Move σ .broadcast { σ.wakeAll with destroy := .joining 0 }
  | join {i : Nat} (lt : i < n) (joining : σ.destroy = .joining i)
      (exited : σ.pc ⟨i, lt⟩ = .exited) : Move σ .join { σ with destroy := .joining (i + 1) }
  | joined {i : Nat} (le : n ≤ i) (joining : σ.destroy = .joining i) :
      Move σ .join { σ with destroy := .freeing }
  | free {head : Addr} {p : Pool} {t : Task} (freeing : σ.destroy = .freeing)
      (first : σ.pool.queueHead = some head) (ret : σ.pool.drop head = .ok (p, t)) :
      Move σ .free { σ with pool := p, log := σ.log.discard t }
  | freed (freeing : σ.destroy = .freeing) (empty : σ.pool.queueHead = none) :
      Move σ .free { σ with destroy := .done }

theorem step_move {act : Act n U} (step : Step σ act σ') : Move σ act σ' := by
  cases act with
  | worker w act => exact .worker (worker_turn step)
  | call c a process arg =>
    simp only [Step, Sys.step, Option.ite_none_right_eq_some, Option.some.injEq] at step
    obtain ⟨⟨idle, _, new⟩, rfl⟩ := step
    exact .call idle new
  | link c =>
    simp only [Step, Sys.step] at step
    split at step
    · next a built =>
      simp only [Option.ite_none_right_eq_some] at step
      obtain ⟨⟨free, undone⟩, step⟩ := step
      split at step
      · next p ret =>
        obtain ⟨t, task, rfl⟩ := Option.map_eq_some_iff.mp step
        exact .link built free undone ret task
      · cases step
    · cases step
  | signal c target =>
    simp only [Step, Sys.step, Option.ite_none_right_eq_some] at step
    obtain ⟨⟨linked, _⟩, step⟩ := step
    obtain ⟨σ₁, ret, rfl⟩ := Option.map_eq_some_iff.mp step
    exact .signal linked ret
  | destroy =>
    simp only [Step, Sys.step, Option.ite_none_right_eq_some] at step
    obtain ⟨idle, step⟩ := step
    split at step <;> cases step
    · exact .refused
    · exact .destroy idle
  | broadcast =>
    simp only [Step, Sys.step, Option.ite_none_right_eq_some, Option.some.injEq] at step
    obtain ⟨set, rfl⟩ := step
    exact .broadcast set
  | join =>
    simp only [Step, Sys.step] at step
    split at step
    · next i joining =>
      split at step
      · next lt =>
        simp only [Option.ite_none_right_eq_some, Option.some.injEq] at step
        obtain ⟨exited, rfl⟩ := step
        exact .join lt joining exited
      · next ge =>
        cases step
        exact .joined (Nat.le_of_not_lt ge) joining
    · cases step
  | free =>
    simp only [Step, Sys.step, Option.ite_none_right_eq_some] at step
    obtain ⟨freeing, step⟩ := step
    split at step
    · next head first =>
      split at step
      · next p t ret =>
        cases step
        exact .free freeing first ret
      · cases step
    · next empty =>
      cases step
      exact .freed freeing empty

end

end LearnC.Thread.CPool
