import LearnC.Machine.Monitor

/-! Threads that print under a lock: `printVal` of `1.thread_mutex.c`, `Func1` and `Func3` of
`2.thread_mutex_CXX.cpp`, and `thread` of `semaphore.c`. -/

namespace LearnC.Thread.Printing

/-- A mutex, or a semaphore with its value. -/
inductive Lock where
  | mutex (locked : Bool)
  | semaphore (value : Nat)

namespace Lock

/-- `lock` or `sem_wait`; none where it blocks. -/
def enter : Lock → Option Lock
  | mutex false => some (mutex true)
  | mutex true => none
  | semaphore (value + 1) => some (semaphore value)
  | semaphore 0 => none

/-- `unlock` or `sem_post`. -/
def leave : Lock → Lock
  | mutex _ => mutex false
  | semaphore value => semaphore (value + 1)

/-- How many threads it lets in. -/
def room : Lock → Nat
  | mutex locked => if locked then 0 else 1
  | semaphore value => value

end Lock

/-- Where a thread stands: before the lock; behind it, with so much printed; behind the unlock. -/
inductive Pc where
  | outside
  | inside (printed : Nat)
  | done
  deriving DecidableEq

structure Sys (T α : Type) where
  lock : Lock
  thread : T → Pc
  output : List α

section
variable {T α : Type} [DecidableEq T]

def Sys.go (σ : Sys T α) (t : T) (pc : Pc) : Sys T α :=
  { σ with thread := Function.update σ.thread t pc }

/-- The next step of a thread that prints the pieces of its block between lock and unlock. -/
def Sys.step (block : T → List α) (σ : Sys T α) (t : T) : Option (Sys T α) :=
  match σ.thread t with
  | .outside => σ.lock.enter.map fun lock => { σ.go t (.inside 0) with lock := lock }
  | .inside printed =>
    match (block t)[printed]? with
    | some piece => some { σ.go t (.inside (printed + 1)) with output := σ.output ++ [piece] }
    | none => some { σ.go t .done with lock := σ.lock.leave }
  | .done => none

def Step (block : T → List α) (σ : Sys T α) (t : T) (σ' : Sys T α) : Prop :=
  σ.step block t = some σ'

def start (lock : Lock) : Sys T α := ⟨lock, fun _ => .outside, []⟩

end

/-! ## The threads of the programs -/

/-- `printVal(num)`, in the thread `self`. -/
def printVal (num : Nat) (self : String) : List String :=
  ("============== I am thread " ++ toString num ++ " ==============\n") ::
    List.replicate 10 ("tid is: " ++ self ++ " \n")

/-- `run_1` and `run_2`, the threads of `1.thread_mutex.c`. -/
def runs (self : Bool → String) (second : Bool) : List String :=
  printVal (if second then 2 else 1) (self second)

/-- What `Func1` and `Func3` send to `cout`. -/
def enterAndLeave (self : String) : List String :=
  ["Enter thread: ", self, "\n", "Leave thread: ", self, "\n"]

/-- The threads of `Test1`, which lock the mutex and unlock it. -/
def func1 (self : Fin 10 → String) (t : Fin 10) : List String := enterAndLeave (self t)

/-- The threads of `Test3`, which hold the mutex in a `unique_lock`. -/
def func3 (self : Fin 10 → String) (t : Fin 10) : List String := enterAndLeave (self t)

/-- `thread`, which `semaphore.c` starts twice. -/
def thread (_ : Bool) : List String := ["\nEntered..\n", "\nJust Exiting...\n"]

/-! ## Whole blocks -/

section
variable {T α : Type} {block : T → List α} {σ σ' : Sys T α} {lock lock' : Lock}
  {finished : List T} {t : T} {k : Nat}

theorem enter_room (ret : lock.enter = some lock') : lock'.room + 1 = lock.room := by
  cases lock with
  | mutex locked =>
    cases locked with
    | false =>
      cases ret
      rfl
    | true => cases ret
  | semaphore value =>
    cases value with
    | zero => cases ret
    | succ value =>
      cases ret
      rfl

theorem enter_isSome (room : lock.room = 1) : lock.enter.isSome = true := by
  cases lock with
  | mutex locked =>
    cases locked with
    | false => rfl
    | true => cases room
  | semaphore value =>
    obtain rfl : value = 1 := room
    rfl

theorem leave_room (full : lock.room = 0) : lock.leave.room = 1 := by
  cases lock with
  | mutex locked => rfl
  | semaphore value =>
    obtain rfl : value = 0 := full
    rfl

/-- Either nobody is behind the lock, and the output is the blocks of the threads that have
left it, or one thread is, and a part of its block follows. -/
inductive Phase (block : T → List α) (σ : Sys T α) (finished : List T) : Prop
  | idle (room : σ.lock.room = 1) (nobody : ∀ t k, σ.thread t ≠ .inside k)
      (output : σ.output = finished.flatMap block)
  | busy {t : T} {k : Nat} (room : σ.lock.room = 0) (here : σ.thread t = .inside k)
      (alone : ∀ u k, σ.thread u = .inside k → u = t) (le : k ≤ (block t).length)
      (output : σ.output = finished.flatMap block ++ (block t).take k)

/-- The threads that have left the lock, in that order, and what is printed besides. -/
structure Whole (block : T → List α) (σ : Sys T α) (finished : List T) : Prop where
  nodup : finished.Nodup
  done : ∀ t, t ∈ finished ↔ σ.thread t = .done
  phase : Phase block σ finished

theorem Phase.of_inside (phase : Phase block σ finished) (pc : σ.thread t = .inside k) :
    σ.lock.room = 0 ∧ (∀ u k, σ.thread u = .inside k → u = t) ∧ k ≤ (block t).length ∧
      σ.output = finished.flatMap block ++ (block t).take k := by
  cases phase with
  | idle _ nobody _ => exact absurd pc (nobody t k)
  | @busy u l room here alone le output =>
    obtain rfl := alone t k pc
    cases here.symm.trans pc
    exact ⟨room, alone, le, output⟩

variable [DecidableEq T]

/-- The steps, with what each branch has seen. -/
inductive Move (block : T → List α) (σ : Sys T α) (t : T) : Sys T α → Prop
  | enter {lock : Lock} (pc : σ.thread t = .outside) (ret : σ.lock.enter = some lock) :
      Move block σ t { σ.go t (.inside 0) with lock := lock }
  | print {k : Nat} {piece : α} (pc : σ.thread t = .inside k) (next : (block t)[k]? = some piece) :
      Move block σ t { σ.go t (.inside (k + 1)) with output := σ.output ++ [piece] }
  | leave {k : Nat} (pc : σ.thread t = .inside k) (stop : (block t)[k]? = none) :
      Move block σ t { σ.go t .done with lock := σ.lock.leave }

theorem step_move (step : Step block σ t σ') : Move block σ t σ' := by
  unfold Step Sys.step at step
  split at step
  · next pc =>
    obtain ⟨lock, ret, rfl⟩ := Option.map_eq_some_iff.mp step
    exact .enter pc ret
  · next k pc =>
    split at step
    · next next =>
      cases step
      exact .print pc next
    · next stop =>
      cases step
      exact .leave pc stop
  · cases step

theorem Whole.move (W : Whole block σ finished) (move : Move block σ t σ') :
    ∃ finished', Whole block σ' finished' := by
  have away {u : T} {pc : Pc} (ne : u ≠ t) : (σ.go t pc).thread u = σ.thread u := by
    simp [Sys.go, ne]
  have here {pc : Pc} : (σ.go t pc).thread t = pc := by simp [Sys.go]
  cases move with
  | @enter lock pc ret =>
    have more := enter_room ret
    have outside : t ∉ finished := fun mem => by cases pc.symm.trans ((W.done t).mp mem)
    refine ⟨finished, W.nodup, fun u => ?_, ?_⟩
    · by_cases eq : u = t
      · rw [eq]
        exact iff_of_false outside (by simp [here])
      · rw [W.done]
        simp only [away eq]
    · cases W.phase with
      | idle room nobody output =>
        have full : lock.room = 0 := by omega
        refine .busy (t := t) (k := 0) full here (fun u l pc' => ?_) (Nat.zero_le _) ?_
        · by_contra ne
          simp only [away ne] at pc'
          exact nobody u l pc'
        · simp [Sys.go, output]
      | busy room _ _ _ _ => omega
  | @print k piece pc next =>
    obtain ⟨room, alone, le, output⟩ := W.phase.of_inside pc
    refine ⟨finished, W.nodup, fun u => ?_, .busy (t := t) (k := k + 1) room here ?_ ?_ ?_⟩
    · rw [W.done]
      by_cases eq : u = t
      · rw [eq]
        exact iff_of_false (by simp [pc]) (by simp [here])
      · simp only [away eq]
    · intro u l pc'
      by_contra ne
      simp only [away ne] at pc'
      exact ne (alone u l pc')
    · exact (List.getElem?_eq_some_iff.mp next).1
    · obtain ⟨lt, rfl⟩ := List.getElem?_eq_some_iff.mp next
      rw [output, List.append_assoc, List.take_append_getElem lt]
  | @leave k pc stop =>
    obtain ⟨room, alone, le, output⟩ := W.phase.of_inside pc
    have inside : t ∉ finished := fun mem => by cases pc.symm.trans ((W.done t).mp mem)
    refine ⟨finished ++ [t], ?_, fun u => ?_, .idle (leave_room room) ?_ ?_⟩
    · exact List.nodup_append.mpr ⟨W.nodup, List.nodup_singleton t, by
        rintro u mem v last rfl
        exact inside (List.mem_singleton.mp last ▸ mem)⟩
    · rw [List.mem_append, List.mem_singleton, W.done]
      by_cases eq : u = t
      · rw [eq]
        exact iff_of_true (.inr rfl) here
      · simp only [away eq, eq, or_false]
    · intro u l pc'
      by_cases eq : u = t
      · rw [eq] at pc'
        simp only [here] at pc'
        cases pc'
      · simp only [away eq] at pc'
        exact eq (alone u l pc')
    · have all : (block t).length ≤ k := List.getElem?_eq_none_iff.mp stop
      simp [output, List.take_of_length_le all, Sys.go]

theorem run_whole {acts : List T} (one : lock.room = 1)
    (run : Run (Step block) (start lock) acts σ) : ∃ finished, Whole block σ finished := by
  apply run.invariant (I := fun σ => ∃ finished, Whole block σ finished)
  · exact ⟨[], List.nodup_nil, by simp [start], .idle one (by simp [start]) rfl⟩
  · rintro s t s' ⟨finished, W⟩ step
    exact W.move (step_move step)

/-! ## Every thread gets its turn -/

/-- How many steps a thread has left that prints `n` pieces. -/
def Pc.work (n : Nat) : Pc → Nat
  | .outside => n + 2
  | .inside k => n + 1 - k
  | .done => 0

def Sys.work [Fintype T] (block : T → List α) (σ : Sys T α) : Nat :=
  total (fun x : Nat × Pc => x.2.work x.1) fun t => ((block t).length, σ.thread t)

theorem go_work [Fintype T] {pc : Pc} (threads : σ'.thread = Function.update σ.thread t pc)
    (less : pc.work (block t).length + 1 = (σ.thread t).work (block t).length) :
    σ'.work block + 1 = σ.work block := by
  have moved : (fun u => ((block u).length, σ'.thread u)) =
      Function.update (fun u => ((block u).length, σ.thread u)) t ((block t).length, pc) := by
    funext u
    by_cases eq : u = t
    · subst eq
      simp [threads]
    · simp [threads, eq]
  rw [Sys.work, Sys.work, moved]
  exact total_step (a := 1) (b := 0) less

theorem Whole.work [Fintype T] (W : Whole block σ finished) (move : Move block σ t σ') :
    σ'.work block + 1 = σ.work block := by
  cases move with
  | enter pc _ => exact go_work rfl (by simp [pc, Pc.work])
  | print pc next =>
    have lt := (List.getElem?_eq_some_iff.mp next).1
    exact go_work rfl (by simp only [pc, Pc.work]; omega)
  | leave pc stop =>
    have all := List.getElem?_eq_none_iff.mp stop
    have le := (W.phase.of_inside pc).2.2.1
    exact go_work rfl (by simp only [pc, Pc.work]; omega)

theorem Whole.steps (W : Whole block σ finished) (going : σ.thread t ≠ .done) :
    ∃ u, (σ.step block u).isSome = true := by
  cases W.phase with
  | idle room nobody _ =>
    have outside : σ.thread t = .outside := by
      cases pc : σ.thread t with
      | outside => rfl
      | inside k => exact absurd pc (nobody t k)
      | done => exact absurd pc going
    exact ⟨t, by simpa [Sys.step, outside] using enter_isSome room⟩
  | @busy u k _ here _ _ _ =>
    refine ⟨u, ?_⟩
    cases next : (block u)[k]? <;> simp [Sys.step, here, next]

theorem run_work [Fintype T] {acts : List T} (one : lock.room = 1)
    (run : Run (Step block) (start lock) acts σ) :
    acts.length + σ.work block = ∑ t, ((block t).length + 2) := by
  induction run with
  | nil => simp [Sys.work, total, start, Pc.work]
  | snoc run step ih =>
    obtain ⟨finished, W⟩ := run_whole one run
    have less := W.work (step_move step)
    rw [List.length_append, List.length_singleton]
    omega

end

/-- In every order of steps the output is whole blocks of the threads that have left the lock,
one after another, and behind them a part of the block of the one thread that is inside; until
every thread has left there is a next step, and each run to that end has the same length. -/
theorem prints_whole {T α : Type} [Fintype T] [DecidableEq T] (block : T → List α) (lock : Lock)
    (one : lock.room = 1) (acts : List T) (σ : Sys T α)
    (run : Run (Step block) (start lock) acts σ) :
    (∃ finished, Whole block σ finished) ∧
    acts.length + σ.work block = ∑ t, ((block t).length + 2) ∧
    ∀ t, σ.thread t ≠ .done → ∃ u, (σ.step block u).isSome = true := by
  obtain ⟨finished, W⟩ := run_whole one run
  exact ⟨⟨finished, W⟩, run_work one run, fun t going => W.steps going⟩

/-- The first thread has printed a line when the second comes to the lock. -/
theorem firstLine_whole : ∃ σ,
    Run (Step (runs toString)) (start (.mutex false)) [false, false] σ ∧
    ∃ finished, Whole (runs toString) σ finished := by
  have ran : (execute (Sys.step (runs toString)) (start (.mutex false)) [false, false]).isSome =
      true := by decide
  obtain ⟨σ, ret⟩ := Option.isSome_iff_exists.mp ran
  have run : Run (Step (runs toString)) (start (.mutex false)) [false, false] σ :=
    execute_run (fun _ _ _ step => step) ret
  exact ⟨σ, run, (prints_whole (runs toString) (.mutex false) rfl _ σ run).1⟩

end LearnC.Thread.Printing
