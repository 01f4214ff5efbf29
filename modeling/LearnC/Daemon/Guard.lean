import LearnC.Machine.Run
import Mathlib.Data.List.Nodup
import Mathlib.Logic.Function.Basic

/-! `daemon_guard.c`: the workers, their child processes, and the loop that waits for
these and starts them again. -/

namespace LearnC.Daemon

structure Worker where
  command : List UInt8
  name : List UInt8
  pid : Int
  maxRestarts : Int
  restartDelay : Int
  restartCount : Int
  lastRestart : Int

inductive Field where
  | command
  | name
  | pid
  | maxRestarts
  | restartDelay
  | restartCount
  | lastRestart
  deriving DecidableEq

/-- A child process that has not been waited for, and the worker that it was started
for. -/
structure Child where
  pid : Int
  owner : Nat
  exited : Bool
  deriving DecidableEq

/-- Whether `waitpid` waits for this child. Only -1 and the pids of children are ever
stored. -/
def Child.answers (c : Child) (pid : Int) : Bool := pid == -1 || c.pid == pid

/-- What `waitpid` with `WNOHANG` finds: no child to wait for, none that has exited, or
one that has. -/
inductive Waited where
  | noChild
  | running
  | reaped (c : Child)

/-- What `waitpid` returns. -/
def Waited.res : Waited → Int
  | .noChild => -1
  | .running => 0
  | .reaped c => c.pid

def Waited.children : Waited → List Child → List Child
  | .reaped c, cs => cs.erase c
  | _, cs => cs

/-- Where it can wait for several children that have exited, it takes the one with the
pid `pick`. -/
def waitpid (cs : List Child) (pid pick : Int) : Option Waited :=
  if cs.all fun c => !c.answers pid then some .noChild
  else if cs.all fun c => !(c.answers pid && c.exited) then some .running
  else (cs.find? fun c => c.answers pid && c.exited && c.pid == pick).map .reaped

/-- Where the guard stands: in the loop of `main` that starts the workers; in
`monitor_workers` before `waitpid` for a worker, behind one that returned `w->pid`, or
before it starts a worker again; behind the loop over the workers. -/
inductive Pc where
  | boot (i : Nat)
  | poll (i : Nat)
  | judge (i : Nat)
  | restart (i : Nat)
  | rest
  deriving DecidableEq

/-- What has happened to the workers: a child was started for worker `i`; the poll of
worker `i` took the exit of `c`, and was (or was not) answered by `w->pid`; worker `i`
was judged, its exit quick or not, and is to be started again or not. -/
inductive Event where
  | started (i : Nat)
  | reaped (i : Nat) (c : Child) (seen : Bool)
  | judged (i : Nat) (quick again : Bool)
  deriving DecidableEq

structure Sys where
  workers : Nat → Worker
  children : List Child
  pc : Pc
  log : List Event

/-- The steps of the guard with what the system answers: the pid from `fork`, none where
it fails; the time. And the exit of a child. -/
inductive Act where
  | fork (pid : Option Int) (now : Int)
  | poll (pick : Int)
  | judge (now : Int)
  | rest
  | exit (pid : Int)

/-- `start_worker`. The system gives the new child a pid that no child has. -/
def Sys.startWorker (σ : Sys) (i : Nat) (pid : Option Int) (now : Int) : Option Sys :=
  match pid with
  | none => some σ
  | some pid =>
    if 0 < pid ∧ ∀ c ∈ σ.children, c.pid ≠ pid then
      some { σ with
        workers := Function.update σ.workers i
          { σ.workers i with pid := pid, lastRestart := now }
        children := σ.children ++ [⟨pid, i, false⟩]
        log := σ.log ++ [.started i] }
    else none

/-- The loop over `n` workers goes on behind worker `i`. -/
def Pc.after (n i : Nat) : Pc := if i + 1 < n then .poll (i + 1) else .rest

/-- The loop of `main` goes on behind worker `i`, and `monitor_workers` begins. -/
def Pc.booted (n i : Nat) : Pc := if i + 1 < n then .boot (i + 1) else .poll 0

/-- A step of the guard with `n` workers. -/
def Sys.step (n : Nat) (σ : Sys) : Act → Option Sys
  | .fork pid now =>
    match σ.pc with
    | .boot i =>
      if i < n then
        (σ.startWorker i pid now).map fun τ => { τ with pc := .booted n i }
      else none
    | .restart i => (σ.startWorker i pid now).map fun τ => { τ with pc := .after n i }
    | _ => none
  | .poll pick =>
    match σ.pc with
    | .poll i =>
      let w := σ.workers i
      (waitpid σ.children w.pid pick).map fun found =>
        let seen := found.res == w.pid
        { σ with
          children := found.children σ.children
          pc := if seen then .judge i else .after n i
          log := σ.log ++ match found with
            | .reaped c => [.reaped i c seen]
            | _ => [] }
    | _ => none
  | .judge now =>
    match σ.pc with
    | .judge i =>
      let w := σ.workers i
      let quick := now - w.lastRestart < w.restartDelay
      let count := if quick then w.restartCount + 1 else 0
      let again := count < w.maxRestarts
      some { σ with
        workers := Function.update σ.workers i { w with restartCount := count }
        pc := if again then .restart i else .after n i
        log := σ.log ++ [.judged i quick again] }
    | _ => none
  | .rest =>
    match σ.pc with
    | .rest => some { σ with pc := .poll 0 }
    | _ => none
  | .exit pid =>
    if ∃ c ∈ σ.children, c.pid = pid ∧ c.exited = false then
      some { σ with
        children := σ.children.map fun c => if c.pid = pid then { c with exited := true } else c }
    else none

def Step (n : Nat) (σ : Sys) (a : Act) (σ' : Sys) : Prop := σ.step n a = some σ'

/-- `parse_args` has returned these workers. -/
def start (workers : Nat → Worker) : Sys where
  workers := fun i => { workers i with pid := -1 }
  children := []
  pc := .boot 0
  log := []

section
variable {n i : Nat} {σ σ' τ : Sys} {cs : List Child} {c : Child} {pid pick now : Int}
  {found : Waited}

/-! ## What a step can do -/

theorem waitpid_cases (h : waitpid cs pid pick = some found) :
    (found = .noChild ∧ ∀ c ∈ cs, c.answers pid = false) ∨
    (found = .running ∧ (∃ c ∈ cs, c.answers pid = true) ∧
      ∀ c ∈ cs, c.answers pid = true → c.exited = false) ∨
    ∃ c ∈ cs, found = .reaped c ∧ c.answers pid = true ∧ c.exited = true := by
  unfold waitpid at h
  split at h
  next none =>
    obtain rfl := Option.some.inj h
    exact .inl ⟨rfl, by simpa using none⟩
  next some =>
    split at h
    next running =>
      obtain rfl := Option.some.inj h
      refine .inr (.inl ⟨rfl, by simpa using some, ?_⟩)
      intro c mem answers
      have := List.all_eq_true.mp running c mem
      simpa [answers] using this
    next =>
      obtain ⟨c, found, rfl⟩ := Option.map_eq_some_iff.mp h
      have mem := List.mem_of_find?_eq_some found
      have props := List.find?_some found
      simp only [Bool.and_eq_true] at props
      exact .inr (.inr ⟨c, mem, rfl, props.1.1, props.1.2⟩)

theorem startWorker_cases {fork : Option Int} (h : σ.startWorker i fork now = some τ) :
    (fork = none ∧ τ = σ) ∨ ∃ pid, fork = some pid ∧ 0 < pid ∧ (∀ c ∈ σ.children, c.pid ≠ pid) ∧
      τ.workers = Function.update σ.workers i
        { σ.workers i with pid := pid, lastRestart := now } ∧
      τ.children = σ.children ++ [⟨pid, i, false⟩] ∧ τ.log = σ.log ++ [.started i] := by
  unfold Sys.startWorker at h
  split at h
  next => exact .inl ⟨rfl, (Option.some.inj h).symm⟩
  next pid =>
    obtain ⟨⟨pos, new⟩, h⟩ := Option.ite_none_right_eq_some.mp h
    obtain rfl := Option.some.inj h
    exact .inr ⟨pid, rfl, pos, new, rfl, rfl, rfl⟩

theorem fork_cases {fork : Option Int} (h : Step n σ (.fork fork now) σ') :
    ∃ i τ, σ.startWorker i fork now = some τ ∧ σ'.workers = τ.workers ∧
      σ'.children = τ.children ∧ σ'.log = τ.log ∧
      (σ.pc = .boot i ∧ i < n ∧ σ'.pc = .booted n i ∨ σ.pc = .restart i ∧ σ'.pc = .after n i) := by
  simp only [Step, Sys.step] at h
  split at h
  next i pc =>
    obtain ⟨lt, h⟩ := Option.ite_none_right_eq_some.mp h
    obtain ⟨τ, started, rfl⟩ := Option.map_eq_some_iff.mp h
    exact ⟨i, τ, started, rfl, rfl, rfl, .inl ⟨pc, lt, rfl⟩⟩
  next i pc =>
    obtain ⟨τ, started, rfl⟩ := Option.map_eq_some_iff.mp h
    exact ⟨i, τ, started, rfl, rfl, rfl, .inr ⟨pc, rfl⟩⟩
  next => cases h

theorem poll_cases (h : Step n σ (.poll pick) σ') :
    ∃ i found, σ.pc = .poll i ∧ waitpid σ.children (σ.workers i).pid pick = some found ∧
      σ' = { σ with
        children := found.children σ.children
        pc := if found.res == (σ.workers i).pid then .judge i else .after n i
        log := σ.log ++ match found with
          | .reaped c => [.reaped i c (found.res == (σ.workers i).pid)]
          | _ => [] } := by
  simp only [Step, Sys.step] at h
  split at h
  next i pc =>
    obtain ⟨found, waited, rfl⟩ := Option.map_eq_some_iff.mp h
    exact ⟨i, found, pc, waited, rfl⟩
  next => cases h

/-- An exit is quick where it is noticed sooner than `restart_delay` after the start. -/
def Sys.Quick (σ : Sys) (i : Nat) (now : Int) : Prop :=
  now - (σ.workers i).lastRestart < (σ.workers i).restartDelay

instance (σ : Sys) (i : Nat) (now : Int) : Decidable (σ.Quick i now) :=
  inferInstanceAs (Decidable (_ < _))

theorem judge_cases (h : Step n σ (.judge now) σ') :
    ∃ i count, σ.pc = .judge i ∧
      count = (if σ.Quick i now then (σ.workers i).restartCount + 1 else 0) ∧
      σ' = { σ with
        workers := Function.update σ.workers i { σ.workers i with restartCount := count }
        pc := if count < (σ.workers i).maxRestarts then .restart i else .after n i
        log := σ.log ++
          [.judged i (σ.Quick i now) (count < (σ.workers i).maxRestarts)] } := by
  simp only [Step, Sys.step] at h
  split at h
  next i pc => exact ⟨i, _, pc, rfl, (Option.some.inj h).symm⟩
  next => cases h

theorem rest_cases (h : Step n σ .rest σ') : σ.pc = .rest ∧ σ' = { σ with pc := .poll 0 } := by
  simp only [Step, Sys.step] at h
  split at h
  next pc => exact ⟨pc, (Option.some.inj h).symm⟩
  next => cases h

theorem exit_cases (h : Step n σ (.exit pid) σ') :
    (∃ c ∈ σ.children, c.pid = pid ∧ c.exited = false) ∧ σ' = { σ with
      children :=
        σ.children.map fun c => if c.pid = pid then { c with exited := true } else c } := by
  simp only [Step, Sys.step] at h
  obtain ⟨running, h⟩ := Option.ite_none_right_eq_some.mp h
  exact ⟨running, (Option.some.inj h).symm⟩

end

end LearnC.Daemon
