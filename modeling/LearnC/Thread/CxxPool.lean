import Mathlib.Data.Fintype.Sum
import LearnC.Machine.Run

/-! The `ThreadPool` of `2.thread_pool_CXX` over its `SafeQueue`: the workers, the threads
and tasks that call `submit`, and the thread that calls `shutdown`. A method of
`SafeQueue` holds the queue's own mutex throughout, and is one step. -/

namespace LearnC.Thread.CxxPool

structure SafeQueue (T : Type) where
  mQueue : List T

namespace SafeQueue

variable {T : Type}

def empty (q : SafeQueue T) : Bool := q.mQueue.isEmpty

def enqueue (q : SafeQueue T) (t : T) : SafeQueue T := ⟨q.mQueue ++ [t]⟩

/-- The task taken out; none where the method returns `false`. -/
def dequeue (q : SafeQueue T) : SafeQueue T × Option T :=
  match q.mQueue with
  | [] => (q, none)
  | t :: rest => (⟨rest⟩, some t)

end SafeQueue

/-- Where a worker stands in `operator()`: before the test of `m_shutdown`; before the
lock; before `empty`; before, in and behind the wait; before `dequeue`; before the end of
the block; in its task; returned. -/
inductive Pc (F : Type) where
  | top
  | entering
  | locked
  | waits
  | blocked
  | woken
  | ready
  | leaving (func : Option F)
  | running (func : F)
  | exited
  deriving DecidableEq

def Pc.isBlocked {F : Type} : Pc F → Bool
  | .blocked => true
  | _ => false

def Pc.isExited {F : Type} : Pc F → Bool
  | .exited => true
  | _ => false

/-- Where a caller stands in `submit`: outside; before `enqueue`; before `notify_one`. -/
inductive Submit (F : Type) where
  | idle
  | wrapped (func : F)
  | enqueued
  deriving DecidableEq

/-- Where `shutdown` stands: not called; before `notify_all`; before the join of a thread;
returned. -/
inductive Shutdown where
  | idle
  | set
  | joining (i : Nat)
  | done
  deriving DecidableEq

/-- A worker, through the task it runs, or another thread. -/
abbrev Caller (n : Nat) (U : Type) : Type := Fin n ⊕ U

/-- The pool with `n` workers and other threads `U`, and who holds `m_conditional_mutex`. -/
structure Sys (n : Nat) (U F : Type) where
  mQueue : SafeQueue F
  mShutdown : Bool
  lock : Option (Fin n)
  pc : Fin n → Pc F
  submit : Caller n U → Submit F
  shutdown : Shutdown

inductive WorkerAct where
  | loop
  | lock
  | test
  | wait
  | wake
  | dequeue
  | unlock
  | finish
  deriving DecidableEq

inductive Act (n : Nat) (U F : Type) where
  | worker (w : Fin n) (act : WorkerAct)
  | submit (c : Caller n U) (func : F)
  | enqueue (c : Caller n U)
  | notifyOne (c : Caller n U) (target : Option (Fin n))
  | shutdown
  | notifyAll
  | join

namespace Sys

section
variable {n : Nat} {U F : Type}

def go (σ : Sys n U F) (w : Fin n) (pc : Pc F) : Sys n U F :=
  { σ with pc := Function.update σ.pc w pc }

/-- A step of `operator()`. A thread may leave its wait without a notification. -/
def worker (σ : Sys n U F) (w : Fin n) : WorkerAct → Option (Sys n U F)
  | .loop =>
    match σ.pc w with
    | .top => some (σ.go w (if σ.mShutdown then .exited else .entering))
    | _ => none
  | .lock =>
    if σ.lock = none then
      match σ.pc w with
      | .entering => some { σ.go w .locked with lock := some w }
      | .woken => some { σ.go w .ready with lock := some w }
      | _ => none
    else none
  | .test =>
    match σ.pc w with
    | .locked => some (σ.go w (if σ.mQueue.empty then .waits else .ready))
    | _ => none
  | .wait =>
    match σ.pc w with
    | .waits => some { σ.go w .blocked with lock := none }
    | _ => none
  | .wake => if (σ.pc w).isBlocked then some (σ.go w .woken) else none
  | .dequeue =>
    match σ.pc w with
    | .ready =>
      let (q, func) := σ.mQueue.dequeue
      some { σ.go w (.leaving func) with mQueue := q }
    | _ => none
  | .unlock =>
    match σ.pc w with
    | .leaving (some func) => some { σ.go w (.running func) with lock := none }
    | .leaving none => some { σ.go w .top with lock := none }
    | _ => none
  | .finish =>
    match σ.pc w, σ.submit (.inl w) with
    | .running _, .idle => some (σ.go w .top)
    | _, _ => none

/-- A worker calls `submit` from its task only. -/
def mayCall (σ : Sys n U F) : Caller n U → Bool
  | .inl w =>
    match σ.pc w with
    | .running _ => true
    | _ => false
  | .inr _ => true

/-- What `notify_one` does to the worker it chose, or to none where none waits. -/
def notify (σ : Sys n U F) : Option (Fin n) → Option (Sys n U F)
  | some w => if (σ.pc w).isBlocked then some (σ.go w .woken) else none
  | none => if ∀ w, (σ.pc w).isBlocked = false then some σ else none

def wakeAll (σ : Sys n U F) : Sys n U F :=
  { σ with pc := fun w => if (σ.pc w).isBlocked then .woken else σ.pc w }

variable [DecidableEq U]

def call (σ : Sys n U F) (c : Caller n U) (pc : Submit F) : Sys n U F :=
  { σ with submit := Function.update σ.submit c pc }

def step (σ : Sys n U F) : Act n U F → Option (Sys n U F)
  | .worker w act => σ.worker w act
  | .submit c func =>
    match σ.submit c with
    | .idle => if σ.mayCall c then some (σ.call c (.wrapped func)) else none
    | _ => none
  | .enqueue c =>
    match σ.submit c with
    | .wrapped func => some { σ.call c .enqueued with mQueue := σ.mQueue.enqueue func }
    | _ => none
  | .notifyOne c target =>
    match σ.submit c with
    | .enqueued => (σ.notify target).map (·.call c .idle)
    | _ => none
  | .shutdown =>
    if σ.shutdown = .idle then some { σ with mShutdown := true, shutdown := .set } else none
  | .notifyAll =>
    if σ.shutdown = .set then some { σ.wakeAll with shutdown := .joining 0 } else none
  | .join =>
    match σ.shutdown with
    | .joining i =>
      if h : i < n then
        if (σ.pc ⟨i, h⟩).isExited then some { σ with shutdown := .joining (i + 1) } else none
      else some { σ with shutdown := .done }
    | _ => none

/-- Every `submit` has returned, the queue is not empty, and every worker is blocked: the
first task of the queue does not run. -/
def Lost (σ : Sys n U F) : Prop :=
  σ.mShutdown = false ∧ (∀ c, σ.submit c = .idle) ∧ σ.mQueue.mQueue ≠ [] ∧
    ∀ w, σ.pc w = .blocked

end

end Sys

instance {n : Nat} {U F : Type} [Fintype U] [DecidableEq F] (σ : Sys n U F) :
    Decidable σ.Lost :=
  inferInstanceAs (Decidable (_ ∧ _ ∧ _ ∧ _))

/-- While a task is in the queue, `notify_one` is not called with every worker between its
test of the queue and its wait. -/
def Heard {n : Nat} {U F : Type} (σ : Sys n U F) : Act n U F → Prop
  | .notifyOne _ _ => σ.mShutdown = false → σ.mQueue.mQueue ≠ [] → ∃ w, σ.pc w ≠ .waits
  | _ => True

section
variable {n : Nat} {U F : Type}

def Step [DecidableEq U] (σ : Sys n U F) (act : Act n U F) (σ' : Sys n U F) : Prop :=
  σ.step act = some σ'

/-- What the constructor and `init` leave; the threads have not yet begun. -/
def start : Sys n U F where
  mQueue := ⟨[]⟩
  mShutdown := false
  lock := none
  pc := fun _ => .top
  submit := fun _ => .idle
  shutdown := .idle

/-- The worker comes back to the queue by itself. -/
def Pc.isAwake : Pc F → Bool
  | .waits | .blocked | .exited => false
  | _ => true

/-- The worker holds `m_conditional_mutex`. -/
def Pc.holds : Pc F → Bool
  | .locked | .waits | .ready | .leaving _ => true
  | _ => false

/-- What the mutex and the flag of the pool say of where the threads are. -/
structure Inv (σ : Sys n U F) : Prop where
  held : ∀ w, (σ.pc w).holds = true → σ.lock = some w
  exited : ∀ w, σ.pc w = .exited → σ.mShutdown = true
  flag : σ.shutdown ≠ .idle → σ.mShutdown = true

/-- While a task is in the queue, a notification is to come or a worker is awake. -/
def Attended (σ : Sys n U F) : Prop :=
  σ.mShutdown = false → σ.mQueue.mQueue ≠ [] →
    (∃ c, σ.submit c = .enqueued) ∨ ∃ w, (σ.pc w).isAwake = true

variable {σ σ' : Sys n U F} {acts : List (Act n U F)} {w : Fin n}

theorem start_inv : Inv (start : Sys n U F) := ⟨nofun, nofun, fun h => absurd rfl h⟩

/-- Only one worker can be between its test and its wait: it holds the mutex. -/
theorem Inv.heard (I : Inv σ) (two : 2 ≤ n) (act : Act n U F) : Heard σ act := by
  cases act with
  | notifyOne c target =>
    intro _ _
    by_contra none
    rw [not_exists] at none
    have lock (w : Fin n) : σ.lock = some w :=
      I.held w (by rw [not_not.mp (none w)]; rfl)
    have same := (lock ⟨0, by omega⟩).symm.trans (lock ⟨1, by omega⟩)
    cases Option.some.inj same
  | _ => trivial

theorem Attended.not_lost (A : Attended σ) : ¬ σ.Lost := by
  rintro ⟨up, idle, queued, blocked⟩
  rcases A up queued with ⟨c, pending⟩ | ⟨w, awake⟩
  · cases (idle c).symm.trans pending
  · rw [blocked w] at awake
    cases awake

/-! ## What the steps do -/

/-- A step of worker `w`: where it leaves the worker, the mutex and the queue. -/
structure Worked (σ : Sys n U F) (w : Fin n) (pc : Pc F) (σ' : Sys n U F) : Prop where
  pcs : σ'.pc = Function.update σ.pc w pc
  submit : σ'.submit = σ.submit
  mShutdown : σ'.mShutdown = σ.mShutdown
  shutdown : σ'.shutdown = σ.shutdown
  lock : σ'.lock = if pc.holds then some w else if (σ.pc w).holds then none else σ.lock
  free : (σ.pc w).holds = false → pc.holds = true → σ.lock = none
  queue : σ.mQueue.mQueue = [] → σ'.mQueue.mQueue = []
  exits : pc = .exited → σ.mShutdown = true
  awake : (σ.pc w).isAwake = true → pc.isAwake = true ∨ σ.mShutdown = true ∨
    σ'.mQueue.mQueue = []

theorem isBlocked_iff {pc : Pc F} : pc.isBlocked = true ↔ pc = .blocked := by
  cases pc <;> simp [Pc.isBlocked]

theorem worked {act : WorkerAct} (held : (σ.pc w).holds = true → σ.lock = some w)
    (step : σ.worker w act = some σ') : ∃ pc, Worked σ w pc σ' := by
  cases act with
  | loop =>
    simp only [Sys.worker] at step
    split at step <;> cases step
    rename_i pc
    refine ⟨_, ⟨rfl, rfl, rfl, rfl, ?_, ?_, id, ?_, ?_⟩⟩
    all_goals cases up : σ.mShutdown <;> simp [pc, up, Pc.holds, Pc.isAwake, Sys.go]
  | test =>
    simp only [Sys.worker] at step
    split at step <;> cases step
    rename_i pc
    have lock := held (by simp [pc, Pc.holds])
    refine ⟨_, ⟨rfl, rfl, rfl, rfl, ?_, ?_, id, ?_, ?_⟩⟩
    all_goals cases queue : σ.mQueue.mQueue <;>
      simp [pc, queue, lock, SafeQueue.empty, Pc.holds, Pc.isAwake, Sys.go]
  | lock =>
    simp only [Sys.worker, Option.ite_none_right_eq_some] at step
    obtain ⟨free, step⟩ := step
    split at step <;> cases step <;>
      exact ⟨_, ⟨rfl, rfl, rfl, rfl, rfl, fun _ _ => free, id, nofun, fun _ => .inl rfl⟩⟩
  | wait =>
    simp only [Sys.worker] at step
    split at step <;> cases step
    rename_i pc
    exact ⟨_, ⟨rfl, rfl, rfl, rfl, by simp [pc, Pc.holds], nofun, id, nofun,
      by simp [pc, Pc.isAwake]⟩⟩
  | wake =>
    simp only [Sys.worker, Option.ite_none_right_eq_some, Option.some.injEq] at step
    obtain ⟨blocked, rfl⟩ := step
    have pc := isBlocked_iff.mp blocked
    exact ⟨_, ⟨rfl, rfl, rfl, rfl, by simp [pc, Pc.holds, Sys.go], nofun, id, nofun,
      fun _ => .inl rfl⟩⟩
  | dequeue =>
    simp only [Sys.worker] at step
    split at step <;> cases step
    rename_i pc
    refine ⟨_, ⟨rfl, rfl, rfl, rfl, held (by simp [pc, Pc.holds]), by simp [pc, Pc.holds], ?_,
      nofun, fun _ => .inl rfl⟩⟩
    intro queue
    simp [SafeQueue.dequeue, queue]
  | unlock =>
    simp only [Sys.worker] at step
    split at step <;> cases step <;> rename_i pc <;>
      exact ⟨_, ⟨rfl, rfl, rfl, rfl, by simp [pc, Pc.holds], nofun, id, nofun,
        fun _ => .inl rfl⟩⟩
  | finish =>
    simp only [Sys.worker] at step
    split at step <;> cases step
    rename_i pc _
    exact ⟨_, ⟨rfl, rfl, rfl, rfl, by simp [pc, Pc.holds, Sys.go], nofun, id, nofun,
      fun _ => .inl rfl⟩⟩

variable [DecidableEq U]

/-- The steps of the threads that call `submit` and of the one that calls `shutdown`. -/
inductive Moves (σ : Sys n U F) : Act n U F → Sys n U F → Prop
  | worker {w : Fin n} {act : WorkerAct} {σ' : Sys n U F} :
      σ.worker w act = some σ' → Moves σ (.worker w act) σ'
  | submit {c : Caller n U} {func : F} :
      σ.submit c = .idle → Moves σ (.submit c func) (σ.call c (.wrapped func))
  | enqueue {c : Caller n U} {func : F} :
      σ.submit c = .wrapped func →
        Moves σ (.enqueue c) { σ.call c .enqueued with mQueue := σ.mQueue.enqueue func }
  | wakeOne {c : Caller n U} {w : Fin n} :
      σ.submit c = .enqueued → σ.pc w = .blocked →
        Moves σ (.notifyOne c (some w)) ((σ.go w .woken).call c .idle)
  | wakeNone {c : Caller n U} :
      σ.submit c = .enqueued → (∀ w, σ.pc w ≠ .blocked) →
        Moves σ (.notifyOne c none) (σ.call c .idle)
  | shutdown :
      σ.shutdown = .idle → Moves σ .shutdown { σ with mShutdown := true, shutdown := .set }
  | notifyAll :
      σ.shutdown = .set → Moves σ .notifyAll { σ.wakeAll with shutdown := .joining 0 }
  | join {i : Nat} {s : Shutdown} :
      σ.shutdown = .joining i → s ≠ .idle → Moves σ .join { σ with shutdown := s }

theorem step_moves {act : Act n U F} (step : Step σ act σ') : Moves σ act σ' := by
  cases act with
  | worker w act => exact .worker step
  | submit c func =>
    simp only [Step, Sys.step] at step
    split at step
    · rename_i idle
      simp only [Option.ite_none_right_eq_some, Option.some.injEq] at step
      obtain ⟨_, rfl⟩ := step
      exact .submit idle
    · cases step
  | enqueue c =>
    simp only [Step, Sys.step] at step
    split at step <;> cases step
    rename_i wrapped
    exact .enqueue wrapped
  | notifyOne c target =>
    simp only [Step, Sys.step] at step
    split at step
    · rename_i enqueued
      obtain ⟨σ₁, ret, rfl⟩ := Option.map_eq_some_iff.mp step
      cases target with
      | some w =>
        simp only [Sys.notify, isBlocked_iff, Option.ite_none_right_eq_some,
          Option.some.injEq] at ret
        obtain ⟨blocked, rfl⟩ := ret
        exact .wakeOne enqueued blocked
      | none =>
        simp only [Sys.notify, Option.ite_none_right_eq_some, Option.some.injEq] at ret
        obtain ⟨nobody, rfl⟩ := ret
        refine .wakeNone enqueued fun w blocked => ?_
        cases (nobody w).symm.trans (isBlocked_iff.mpr blocked)
    · cases step
  | shutdown =>
    simp only [Step, Sys.step, Option.ite_none_right_eq_some, Option.some.injEq] at step
    obtain ⟨idle, rfl⟩ := step
    exact .shutdown idle
  | notifyAll =>
    simp only [Step, Sys.step, Option.ite_none_right_eq_some, Option.some.injEq] at step
    obtain ⟨set, rfl⟩ := step
    exact .notifyAll set
  | join =>
    simp only [Step, Sys.step] at step
    split at step
    · rename_i i joining
      split at step
      · simp only [Option.ite_none_right_eq_some, Option.some.injEq] at step
        obtain ⟨_, rfl⟩ := step
        exact .join joining nofun
      · cases step
        exact .join joining nofun
    · cases step

/-! ## The invariants -/

theorem step_inv {act : Act n U F} (I : Inv σ) (step : Step σ act σ') : Inv σ' := by
  cases step_moves step with
  | @worker w act _ step =>
    obtain ⟨pc, W⟩ := worked (I.held w) step
    refine ⟨?_, ?_, by rw [W.shutdown, W.mShutdown]; exact I.flag⟩
    · intro v holds
      rw [W.lock]
      by_cases eq : v = w
      · rw [W.pcs, eq, Function.update_self] at holds
        rw [if_pos holds, eq]
      · rw [W.pcs, Function.update_of_ne eq] at holds
        have lock := I.held v holds
        -- the mutex is with `v`, so `w` neither had it nor got it
        have out : (σ.pc w).holds = false := by
          by_contra inside
          have := I.held w (by simpa using inside)
          exact eq (Option.some.inj (lock.symm.trans this))
        have stays : pc.holds = false := by
          by_contra inside
          have := W.free out (by simpa using inside)
          cases lock.symm.trans this
        simp [out, stays, lock]
    · intro v exited
      rw [W.mShutdown]
      by_cases eq : v = w
      · rw [W.pcs, eq, Function.update_self] at exited
        exact W.exits exited
      · rw [W.pcs, Function.update_of_ne eq] at exited
        exact I.exited v exited
  | submit | enqueue | wakeNone => exact ⟨I.held, I.exited, I.flag⟩
  | @wakeOne c w =>
    refine ⟨?_, ?_, I.flag⟩
    all_goals
      intro v at_v
      by_cases eq : v = w
      · simp [Sys.call, Sys.go, eq, Pc.holds] at at_v
      · simp only [Sys.call, Sys.go, Function.update_of_ne eq] at at_v
        first | exact I.held v at_v | exact I.exited v at_v
  | shutdown => exact ⟨I.held, fun _ _ => rfl, fun _ => rfl⟩
  | notifyAll set =>
    have up := I.flag (by simp [set])
    refine ⟨?_, fun _ _ => up, fun _ => up⟩
    intro v holds
    refine I.held v ?_
    simp only [Sys.wakeAll] at holds
    split at holds
    · cases holds
    · exact holds
  | join joining _ => exact ⟨I.held, I.exited, fun _ => I.flag (by simp [joining])⟩

/-- With a task in the queue an awake worker stays awake; where a notification reaches
nobody, no worker is blocked, and one that is not about to wait is awake. -/
theorem step_attended {act : Act n U F} (I : Inv σ) (A : Attended σ) (heard : Heard σ act)
    (step : Step σ act σ') : Attended σ' := by
  intro up queued
  cases step_moves step with
  | @worker w act _ step =>
    obtain ⟨pc, W⟩ := worked (I.held w) step
    rw [W.mShutdown] at up
    rw [W.submit]
    refine (A up (mt W.queue queued)).imp id ?_
    rintro ⟨v, awake⟩
    refine ⟨v, ?_⟩
    by_cases eq : v = w
    · subst eq
      rw [W.pcs, Function.update_self]
      rcases W.awake awake with awake | down | empty
      · exact awake
      · cases up.symm.trans down
      · exact absurd empty queued
    · rwa [W.pcs, Function.update_of_ne eq]
  | @submit c func idle =>
    refine (A up queued).imp_left ?_
    rintro ⟨d, enqueued⟩
    refine ⟨d, ?_⟩
    have ne : d ≠ c := by
      rintro rfl
      cases idle.symm.trans enqueued
    simpa [Sys.call, ne] using enqueued
  | @enqueue c func => exact .inl ⟨c, by simp [Sys.call]⟩
  | @wakeOne c w => exact .inr ⟨w, by simp [Sys.call, Sys.go, Pc.isAwake]⟩
  | wakeNone _ nobody =>
    obtain ⟨w, ne⟩ := heard up queued
    refine .inr ⟨w, ?_⟩
    have stays : σ.pc w ≠ .exited := fun exited => by
      cases up.symm.trans (I.exited w exited)
    change (σ.pc w).isAwake = true
    cases pc : σ.pc w with
    | waits => exact absurd pc ne
    | blocked => exact absurd pc (nobody w)
    | exited => exact absurd pc stays
    | _ => rfl
  | shutdown => cases up
  | notifyAll set => cases up.symm.trans (I.flag (by simp [set]))
  | join joining _ => cases up.symm.trans (I.flag (by simp [joining]))

theorem run_inv (run : Run Step (start : Sys n U F) acts σ) : Inv σ :=
  run.invariant start_inv fun _ _ _ I step => step_inv I step

theorem run_attended (run : Run (When Heard Step) (start : Sys n U F) acts σ) :
    Inv σ ∧ Attended σ := by
  refine run_when_invariant (I := fun σ => Inv σ ∧ Attended σ)
    ⟨start_inv, fun _ queued => absurd rfl queued⟩ ?_ run
  exact fun _ _ _ I heard step => ⟨step_inv I.1 step, step_attended I.1 I.2 heard step⟩

/-- Two workers hear every notification. -/
theorem run_heard (two : 2 ≤ n) (run : Run Step (start : Sys n U F) acts σ) :
    Run (When Heard Step) start acts σ := by
  induction run with
  | nil => exact .nil
  | snoc run step ih => exact ih.snoc ⟨(run_inv run).heard two _, step⟩

/-! ## Losing a task -/

/-- The callers in `submit` are finitely many. -/
theorem run_callers (run : Run Step (start : Sys n U F) acts σ) :
    ∃ cs : List (Caller n U), ∀ c, σ.submit c ≠ .idle → c ∈ cs := by
  refine (run.invariant (I := fun σ => Inv σ ∧
    ∃ cs : List (Caller n U), ∀ c, σ.submit c ≠ .idle → c ∈ cs)
    ⟨start_inv, [], fun _ busy => absurd rfl busy⟩ ?_).2
  rintro σ act σ' ⟨I, cs, all⟩ step
  refine ⟨step_inv I step, ?_⟩
  have more (c : Caller n U) (s : Submit F) : ∀ d, Function.update σ.submit c s d ≠ .idle →
      d ∈ c :: cs := by
    intro d busy
    by_cases eq : d = c
    · exact eq ▸ List.mem_cons_self
    · rw [Function.update_of_ne eq] at busy
      exact List.mem_cons_of_mem _ (all d busy)
  cases step_moves step with
  | @worker w _ _ step =>
    obtain ⟨_, W⟩ := worked (I.held w) step
    exact ⟨cs, by rwa [W.submit]⟩
  | submit | enqueue | wakeOne | wakeNone => exact ⟨_, more _ _⟩
  | shutdown | notifyAll | join => exact ⟨cs, all⟩

/-- What a run leaves alone in which callers go on while no worker is blocked. -/
structure Still (σ τ : Sys n U F) : Prop where
  pc : τ.pc = σ.pc
  mShutdown : τ.mShutdown = σ.mShutdown
  queued : σ.mQueue.mQueue ≠ [] → τ.mQueue.mQueue ≠ []

omit [DecidableEq U] in
theorem Still.trans {ρ τ : Sys n U F} (h : Still σ ρ) (h' : Still ρ τ) : Still σ τ :=
  ⟨h'.pc.trans h.pc, h'.mShutdown.trans h.mShutdown, h'.queued ∘ h.queued⟩

theorem notify_nobody {c : Caller n U} (enqueued : σ.submit c = .enqueued)
    (nobody : ∀ w, σ.pc w ≠ .blocked) : Step σ (.notifyOne c none) (σ.call c .idle) := by
  have none_waits : ∀ w, (σ.pc w).isBlocked = false := by
    intro w
    rw [← Bool.not_eq_true, isBlocked_iff]
    exact nobody w
  simp [Step, Sys.step, enqueued, Sys.notify, none_waits]

theorem enqueue_step {c : Caller n U} {func : F} (wrapped : σ.submit c = .wrapped func) :
    Step σ (.enqueue c) { σ.call c .enqueued with mQueue := σ.mQueue.enqueue func } := by
  simp [Step, Sys.step, wrapped]

/-- A caller brings its `submit` to the end. -/
theorem submit_returns (c : Caller n U) (nobody : ∀ w, σ.pc w ≠ .blocked) :
    ∃ acts τ, Run Step σ acts τ ∧ Still σ τ ∧ τ.submit = Function.update σ.submit c .idle := by
  cases at_c : σ.submit c with
  | idle => exact ⟨[], σ, .nil, ⟨rfl, rfl, id⟩, by rw [← at_c, Function.update_eq_self]⟩
  | enqueued => exact ⟨_, _, .snoc .nil (notify_nobody at_c nobody), ⟨rfl, rfl, id⟩, rfl⟩
  | wrapped func =>
    have enqueue := enqueue_step at_c
    have notify := notify_nobody (c := c)
      (σ := { σ.call c .enqueued with mQueue := σ.mQueue.enqueue func }) (by simp [Sys.call]) nobody
    refine ⟨_, _, .snoc (.snoc .nil enqueue) notify, ⟨rfl, rfl, fun _ => ?_⟩, ?_⟩
    · simp [Sys.call, SafeQueue.enqueue]
    · simp [Sys.call]

theorem submits_return (cs : List (Caller n U)) (all : ∀ c, σ.submit c ≠ .idle → c ∈ cs)
    (nobody : ∀ w, σ.pc w ≠ .blocked) :
    ∃ acts τ, Run Step σ acts τ ∧ Still σ τ ∧ ∀ c, τ.submit c = .idle := by
  induction cs generalizing σ with
  | nil =>
    refine ⟨[], σ, .nil, ⟨rfl, rfl, id⟩, fun c => ?_⟩
    by_contra busy
    cases all c busy
  | cons c cs ih =>
    obtain ⟨acts, ρ, run, still, submit⟩ := submit_returns c nobody
    have rest : ∀ d, ρ.submit d ≠ .idle → d ∈ cs := by
      intro d busy
      rw [submit] at busy
      by_cases eq : d = c
      · simp [eq] at busy
      · rw [Function.update_of_ne eq] at busy
        exact (List.mem_cons.mp (all d busy)).resolve_left eq
    obtain ⟨more, τ, run', still', idle⟩ := ih rest (by rwa [still.pc])
    exact ⟨acts ++ more, τ, run.append run', still.trans still', idle⟩

/-- Where every worker is about to wait, the task in the queue can be lost: every `submit`
returns, and then the worker waits. -/
theorem waits_lose (I : Inv σ) (cs : List (Caller n U)) (all : ∀ c, σ.submit c ≠ .idle → c ∈ cs)
    (up : σ.mShutdown = false) (queued : σ.mQueue.mQueue ≠ []) (waits : ∀ w, σ.pc w = .waits) :
    ∃ acts τ, Run Step σ acts τ ∧ τ.Lost := by
  obtain ⟨acts, τ, run, still, idle⟩ := submits_return cs all fun w => by rw [waits w]; nofun
  have queued' := still.queued queued
  by_cases some_worker : ∃ w : Fin n, True
  · obtain ⟨w, _⟩ := some_worker
    have alone : ∀ v, v = w := fun v =>
      Option.some.inj ((I.held v (by rw [waits]; rfl)).symm.trans (I.held w (by rw [waits]; rfl)))
    have wait : Step τ (.worker w .wait) { τ.go w .blocked with lock := none } := by
      simp [Step, Sys.step, Sys.worker, still.pc, waits]
    refine ⟨_, _, run.snoc wait, still.mShutdown.trans up, idle, queued', fun v => ?_⟩
    rw [alone v]
    simp [Sys.go]
  · exact ⟨acts, τ, run, still.mShutdown.trans up, idle, queued',
      fun w => absurd ⟨w, trivial⟩ some_worker⟩

/-- A notification that is not heard leaves a state from which the task can be lost. -/
theorem unheard_lose {act : Act n U F} (run : Run Step (start : Sys n U F) acts σ)
    (step : Step σ act σ') (unheard : ¬ Heard σ act) :
    ∃ more τ, Run Step σ' more τ ∧ τ.Lost := by
  have I := run_inv run
  obtain ⟨cs, all⟩ := run_callers (run.snoc step)
  cases step_moves step with
  | wakeNone =>
    simp only [Heard, Classical.not_imp, not_exists, not_not] at unheard
    obtain ⟨up, queued, waits⟩ := unheard
    exact waits_lose (step_inv I step) cs all up queued waits
  | @wakeOne _ w _ blocked =>
    simp only [Heard, Classical.not_imp, not_exists, not_not] at unheard
    cases blocked.symm.trans (unheard.2.2 w)
  | _ => exact absurd trivial unheard

/-- Every worker of a pool of one, or of none, can stand between its test and its wait. -/
theorem waits_reached (few : n < 2) : ∃ acts, ∃ σ : Sys n U F,
    Run Step start acts σ ∧ σ.mShutdown = false ∧ (∀ w, σ.pc w = .waits) ∧
      ∀ c, σ.submit c = .idle := by
  obtain rfl | rfl : n = 0 ∨ n = 1 := by omega
  · exact ⟨[], start, .nil, rfl, fun w => w.elim0, fun _ => rfl⟩
  · have ran : ∃ σ, execute Sys.step (start : Sys 1 U F)
        [.worker 0 .loop, .worker 0 .lock, .worker 0 .test] = some σ ∧ σ.mShutdown = false ∧
        σ.pc 0 = .waits ∧ ∀ c, σ.submit c = .idle :=
      ⟨_, rfl, rfl, rfl, fun _ => rfl⟩
    obtain ⟨σ, ret, up, waits, idle⟩ := ran
    refine ⟨_, σ, execute_run (fun _ _ _ step => step) ret, up, fun w => ?_, idle⟩
    rw [Fin.fin_one_eq_zero w, waits]

/-- In a run whose notifications are all heard no task is lost; one that is not heard can
lead to a lost task; and each pool with two or more workers, and no other, hears them all. -/
theorem tasks_heard_iff (u : U) (func : F) :
    (∀ acts, ∀ σ : Sys n U F, Run (When Heard Step) start acts σ → ¬ σ.Lost) ∧
    (∀ acts act, ∀ σ σ' : Sys n U F, Run Step start acts σ → Step σ act σ' → ¬ Heard σ act →
      ∃ more τ, Run Step σ' more τ ∧ τ.Lost) ∧
    ((∀ acts, ∀ σ : Sys n U F, Run Step start acts σ → ¬ σ.Lost) ↔ 2 ≤ n) := by
  refine ⟨fun acts σ run => (run_attended run).2.not_lost,
    fun acts act σ σ' run step unheard => unheard_lose run step unheard, ?_, ?_⟩
  · intro never
    by_contra few
    obtain ⟨acts, σ, run, up, waits, idle⟩ := waits_reached (U := U) (F := F) (not_le.mp few)
    have submit : Step σ (.submit (.inr u) func) (σ.call (.inr u) (.wrapped func)) := by
      simp [Step, Sys.step, idle, Sys.mayCall]
    have wrapped : (σ.call (.inr u) (.wrapped func)).submit (.inr u) = .wrapped func := by
      simp [Sys.call]
    have run' := (run.snoc submit).snoc (enqueue_step wrapped)
    obtain ⟨cs, all⟩ := run_callers run'
    have queued : (σ.mQueue.enqueue func).mQueue ≠ [] := by simp [SafeQueue.enqueue]
    obtain ⟨more, τ, run'', lost⟩ := waits_lose (run_inv run') cs all up queued waits
    exact never _ τ (run'.append run'') lost
  · intro two acts σ run
    exact (run_attended (run_heard two run)).2.not_lost

end

/-- The worker has found the queue empty, and waits after the notification. -/
theorem notify_before_wait : ∃ acts σ, Run Step (start : Sys 1 Unit Nat) acts σ ∧ σ.Lost := by
  have ran : (execute Sys.step (start : Sys 1 Unit Nat) [.worker 0 .loop, .worker 0 .lock,
      .worker 0 .test, .submit (.inr ()) 7, .enqueue (.inr ()), .notifyOne (.inr ()) none,
      .worker 0 .wait]).map (fun σ => decide σ.Lost) = some true := by
    decide
  obtain ⟨σ, ret, lost⟩ := Option.map_eq_some_iff.mp ran
  exact ⟨_, σ, execute_run (fun _ _ _ step => step) ret, of_decide_eq_true lost⟩

end LearnC.Thread.CxxPool
