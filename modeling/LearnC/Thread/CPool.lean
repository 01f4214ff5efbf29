import LearnC.Machine.Chain
import LearnC.Machine.Memory
import LearnC.Machine.Run
import LearnC.Machine.TaskQueue

/-! The thread pool of `1.thread_pool.c`: its worker threads, the threads and tasks that
call `pool_add_worker`, and the thread that calls `pool_destroy`. -/

namespace LearnC.Thread.CPool

/-- The callback and its argument, and the number of the call that brought them. -/
structure Task where
  call : Nat
  process : Addr
  arg : Addr
  deriving DecidableEq

structure CThreadWorker where
  task : Task
  next : Option Addr

/-- The live list nodes, and the fields of the pool that the functions share. -/
structure Pool where
  heap : Finmap fun _ : Addr => CThreadWorker
  queueHead : Option Addr
  curQueueSize : Int
  shutdown : Bool

/-- Why a section has no result: a failed `assert`, an access to a node that is not live,
an `int` that overflows, or a loop that never reaches `NULL`. -/
inductive Stop where
  | assertion
  | outside
  | overflow
  | diverges
  deriving DecidableEq

namespace Pool

def next (p : Pool) (a : Addr) : Option Addr := (p.heap.lookup a).bind CThreadWorker.next
def task (p : Pool) (a : Addr) : Option Task := (p.heap.lookup a).map CThreadWorker.task

def node (p : Pool) (a : Addr) : Except Stop CThreadWorker :=
  match p.heap.lookup a with
  | some w => .ok w
  | none => .error .outside

def setNext (p : Pool) (a : Addr) (next : Option Addr) : Except Stop Pool := do
  let w ← p.node a
  .ok { p with heap := p.heap.insert a { w with next := next } }

/-- `malloc`, and the three fields of `newworker`. -/
def build (p : Pool) (newworker : Addr) (t : Task) : Pool :=
  { p with heap := p.heap.insert newworker ⟨t, none⟩ }

/-- A list of more nodes than are live is a ring. -/
def fuel (p : Pool) : Nat := p.heap.keys.card

/-- The loop of `pool_add_worker` to the last member. -/
def last (p : Pool) : Nat → Addr → Except Stop Addr
  | 0, _ => .error .diverges
  | fuel + 1, member => do
    let w ← p.node member
    match w.next with
    | none => .ok member
    | some next => p.last fuel next

def link (p : Pool) (newworker : Addr) : Except Stop Pool :=
  match p.queueHead with
  | some head => do
    let member ← p.last p.fuel head
    p.setNext member (some newworker)
  | none => .ok { p with queueHead := some newworker }

/-- The section under `queue_lock` in `pool_add_worker`. -/
def append (p : Pool) (newworker : Addr) : Except Stop Pool := do
  let p ← p.link newworker
  if p.queueHead = none then .error .assertion
  else if p.curQueueSize + 1 < 2 ^ 31 then .ok { p with curQueueSize := p.curQueueSize + 1 }
  else .error .overflow

/-- The section under `queue_lock` in `thread_routine`, from its asserts on. -/
def take (p : Pool) : Except Stop (Pool × Addr) :=
  if p.curQueueSize = 0 then .error .assertion
  else
    match p.queueHead with
    | none => .error .assertion
    | some worker => do
      let w ← p.node worker
      .ok ({ p with curQueueSize := p.curQueueSize - 1, queueHead := w.next }, worker)

def free (p : Pool) (a : Addr) : Except Stop Pool :=
  if a ∈ p.heap then .ok { p with heap := p.heap.erase a } else .error .outside

/-- A round of the loop in `pool_destroy` that frees the queue, with the task it frees. -/
def drop (p : Pool) (head : Addr) : Except Stop (Pool × Task) := do
  let w ← p.node head
  let p ← { p with queueHead := w.next }.free head
  .ok (p, w.task)

end Pool

/-- Where a worker stands in `thread_routine`: before `pthread_mutex_lock`; before the
test of the inner loop; before, in and behind `pthread_cond_wait`; before the test of
`shutdown`; before the asserts; with a node; in its callback; behind `pthread_exit`. -/
inductive Pc where
  | outside
  | locked
  | waits
  | blocked
  | woken
  | passed
  | working
  | took (worker : Addr)
  | running (worker : Addr)
  | exited
  deriving DecidableEq

/-- Where a caller stands in `pool_add_worker`: outside; before the lock; before
`pthread_cond_signal`. -/
inductive Adding where
  | idle
  | built (newworker : Addr)
  | linked
  deriving DecidableEq

/-- Where `pool_destroy` stands: not called; before the broadcast; before the join of a
thread; before a round of the last loop; returned. -/
inductive Destroy where
  | idle
  | set
  | joining (i : Nat)
  | freeing
  | done
  deriving DecidableEq

/-- A worker, through the callback it runs, or another thread. -/
abbrev Caller (n : Nat) (U : Type) : Type := Fin n ⊕ U

/-- The pool with `n` workers and other threads `U`: who holds `queue_lock`, where each
thread stands, and what has happened to the tasks. -/
structure Sys (n : Nat) (U : Type) where
  pool : Pool
  lock : Option (Fin n)
  pc : Fin n → Pc
  adding : Caller n U → Adding
  destroy : Destroy
  log : TaskLog Task

inductive WorkerAct where
  | lock
  | test
  | wait
  | wake
  | check
  | take
  | run
  | finish
  deriving DecidableEq

inductive Act (n : Nat) (U : Type) where
  | worker (w : Fin n) (act : WorkerAct)
  | call (c : Caller n U) (newworker process arg : Addr)
  | link (c : Caller n U)
  | signal (c : Caller n U) (target : Option (Fin n))
  | destroy
  | broadcast
  | join
  | free

namespace Sys

section
variable {n : Nat} {U : Type}

def go (σ : Sys n U) (w : Fin n) (pc : Pc) : Sys n U := { σ with pc := Function.update σ.pc w pc }

/-- A step of `thread_routine`. A thread may leave its wait without a signal. -/
def worker (σ : Sys n U) (w : Fin n) : WorkerAct → Option (Sys n U)
  | .lock =>
    if (σ.pc w = .outside ∨ σ.pc w = .woken) ∧ σ.lock = none ∧ σ.destroy ≠ .done then
      some { σ.go w .locked with lock := some w }
    else none
  | .test =>
    if σ.pc w = .locked then
      if σ.pool.curQueueSize = 0 ∧ σ.pool.shutdown = false then some (σ.go w .waits)
      else some (σ.go w .passed)
    else none
  | .wait => if σ.pc w = .waits then some { σ.go w .blocked with lock := none } else none
  | .wake => if σ.pc w = .blocked then some (σ.go w .woken) else none
  | .check =>
    if σ.pc w = .passed then
      if σ.pool.shutdown then some { σ.go w .exited with lock := none }
      else some (σ.go w .working)
    else none
  | .take =>
    if σ.pc w = .working then
      match σ.pool.take with
      | .ok (p, a) =>
        (p.task a).map fun t =>
          { σ.go w (.took a) with pool := p, lock := none, log := σ.log.dequeue t }
      | .error _ => none
    else none
  | .run =>
    match σ.pc w with
    | .took a => (σ.pool.task a).map fun t => { σ.go w (.running a) with log := σ.log.execute t }
    | _ => none
  | .finish =>
    match σ.pc w with
    | .running a =>
      if σ.adding (.inl w) = .idle then
        match σ.pool.free a with
        | .ok p => some { σ.go w .outside with pool := p }
        | .error _ => none
      else none
    | _ => none

/-- A worker calls `pool_add_worker` from a callback only. -/
def mayCall (σ : Sys n U) : Caller n U → Bool
  | .inl w =>
    match σ.pc w with
    | .running _ => true
    | _ => false
  | .inr _ => true

/-- What `pthread_cond_signal` does to the worker it chose, or to none where none waits. -/
def notify (σ : Sys n U) : Option (Fin n) → Option (Sys n U)
  | some w => if σ.pc w = .blocked then some (σ.go w .woken) else none
  | none => if ∀ w, σ.pc w ≠ .blocked then some σ else none

def wakeAll (σ : Sys n U) : Sys n U :=
  { σ with pc := fun w => if σ.pc w = .blocked then .woken else σ.pc w }

variable [DecidableEq U]

def add (σ : Sys n U) (c : Caller n U) (pc : Adding) : Sys n U :=
  { σ with adding := Function.update σ.adding c pc }

/-- One step. Behind the end of `pool_destroy` the pool may not be touched. -/
def step (σ : Sys n U) : Act n U → Option (Sys n U)
  | .worker w act => σ.worker w act
  | .call c newworker process arg =>
    if σ.adding c = .idle ∧ σ.mayCall c = true ∧ newworker ∉ σ.pool.heap then
      let t : Task := ⟨σ.log.submitted.length, process, arg⟩
      some { σ.add c (.built newworker) with
        pool := σ.pool.build newworker t
        log := σ.log.submit t }
    else none
  | .link c =>
    match σ.adding c with
    | .built newworker =>
      if σ.lock = none ∧ σ.destroy ≠ .done then
        match σ.pool.append newworker with
        | .ok p =>
          (p.task newworker).map fun t =>
            { σ.add c .linked with pool := p, log := σ.log.enqueue t }
        | .error _ => none
      else none
    | _ => none
  | .signal c target =>
    if σ.adding c = .linked ∧ σ.destroy ≠ .done then (σ.notify target).map (·.add c .idle)
    else none
  | .destroy =>
    if σ.destroy = .idle then
      if σ.pool.shutdown then some σ
      else some { σ with pool := { σ.pool with shutdown := true }, destroy := .set }
    else none
  | .broadcast =>
    if σ.destroy = .set then some { σ.wakeAll with destroy := .joining 0 } else none
  | .join =>
    match σ.destroy with
    | .joining i =>
      if h : i < n then
        if σ.pc ⟨i, h⟩ = .exited then some { σ with destroy := .joining (i + 1) } else none
      else some { σ with destroy := .freeing }
    | _ => none
  | .free =>
    if σ.destroy = .freeing then
      match σ.pool.queueHead with
      | some head =>
        match σ.pool.drop head with
        | .ok (p, t) => some { σ with pool := p, log := σ.log.discard t }
        | .error _ => none
      | none => some { σ with destroy := .done }
    else none

end

end Sys

section
variable {n : Nat} {U : Type} [DecidableEq U]

def Step (σ : Sys n U) (act : Act n U) (σ' : Sys n U) : Prop := σ.step act = some σ'

/-- What `pool_init` leaves; its threads have not yet begun. -/
def start : Sys n U where
  pool := ⟨∅, none, 0, false⟩
  lock := none
  pc := fun _ => .outside
  adding := fun _ => .idle
  destroy := .idle
  log := .empty

end

end LearnC.Thread.CPool
