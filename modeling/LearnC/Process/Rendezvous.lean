import LearnC.Machine.Run
import Mathlib.Tactic.ByContra

/-! The two processes of `9.semaphore`, which hand over one item after another through a
shared `int`. `demo.c` is the same without the item. -/

namespace LearnC.Process.Rendezvous

/-- Where the producer stands: before it writes, before `sem_post`, before `sem_wait`. -/
inductive Producer where
  | write
  | post
  | wait
  deriving DecidableEq

/-- Where the consumer stands: before `sem_wait`, before it reads, before `sem_post`. -/
inductive Consumer where
  | wait
  | read
  | post
  deriving DecidableEq

inductive Event where
  | produced (item : Int)
  | consumed (item : Int)
  deriving DecidableEq

/-- The semaphores, the shared memory, both loops with their counters, and what happened. -/
structure Sys where
  semProducer : Nat
  semConsumer : Nat
  sharedMem : Int
  prod : Producer
  prodI : Nat
  cons : Consumer
  consI : Nat
  log : List Event

inductive Role where
  | producer
  | consumer
  deriving DecidableEq

/-- The rounds of both loops, and the items that `rand` gives. -/
structure Params where
  rounds : Nat
  item : Nat → Int

/-- The next step of `producer`; none where it is blocked or has returned. -/
def Sys.producer (p : Params) (σ : Sys) : Option Sys :=
  match σ.prod with
  | .write =>
    if σ.prodI < p.rounds then
      some { σ with
        sharedMem := p.item σ.prodI
        prod := .post
        log := σ.log ++ [.produced (p.item σ.prodI)] }
    else none
  | .post => some { σ with semConsumer := σ.semConsumer + 1, prod := .wait }
  | .wait =>
    if 0 < σ.semProducer then
      some { σ with semProducer := σ.semProducer - 1, prod := .write, prodI := σ.prodI + 1 }
    else none

/-- The next step of `consumer`. -/
def Sys.consumer (p : Params) (σ : Sys) : Option Sys :=
  match σ.cons with
  | .wait =>
    if σ.consI < p.rounds ∧ 0 < σ.semConsumer then
      some { σ with semConsumer := σ.semConsumer - 1, cons := .read }
    else none
  | .read => some { σ with cons := .post, log := σ.log ++ [.consumed σ.sharedMem] }
  | .post =>
    some { σ with semProducer := σ.semProducer + 1, cons := .wait, consI := σ.consI + 1 }

def Sys.step (p : Params) (σ : Sys) : Role → Option Sys
  | .producer => σ.producer p
  | .consumer => σ.consumer p

def Step (p : Params) (σ : Sys) (r : Role) (σ' : Sys) : Prop := σ.step p r = some σ'

/-- `sem_open` with `O_CREAT` takes the values that it finds, and so does the shared memory. -/
def started (semProducer semConsumer : Nat) (sharedMem : Int) : Sys where
  semProducer := semProducer
  semConsumer := semConsumer
  sharedMem := sharedMem
  prod := .write
  prodI := 0
  cons := .wait
  consI := 0
  log := []

def Event.item? (produced : Bool) : Event → Option Int
  | .produced item => if produced then some item else none
  | .consumed item => if produced then none else some item

def Sys.produced (σ : Sys) : List Int := σ.log.filterMap (Event.item? true)

def Sys.consumed (σ : Sys) : List Int := σ.log.filterMap (Event.item? false)

/-! ## Accounts -/

/-- The rounds in which the producer has written. -/
def Sys.written (σ : Sys) : Nat := σ.prodI + if σ.prod = .write then 0 else 1

def Sys.posted (σ : Sys) : Nat := σ.prodI + if σ.prod = .wait then 1 else 0

def Sys.waited (σ : Sys) : Nat := σ.consI + if σ.cons = .wait then 0 else 1

/-- The rounds in which the consumer has read. -/
def Sys.taken (σ : Sys) : Nat := σ.consI + if σ.cons = .post then 1 else 0

/-- How often each semaphore has been posted and waited for, from the values `a` and `b`, and
what is in the shared memory. -/
structure Accounts (p : Params) (a b : Nat) (σ : Sys) : Prop where
  consumer : σ.semConsumer + σ.waited = b + σ.posted
  producer : σ.semProducer + σ.prodI = a + σ.consI
  within : σ.written ≤ p.rounds
  rounds : σ.waited ≤ p.rounds
  produced : σ.produced = (List.range σ.written).map p.item
  last : ∀ i, σ.written = i + 1 → σ.sharedMem = p.item i

variable {p : Params} {a b : Nat} {σ σ' : Sys} {r : Role}

/-- The steps, with what each branch has seen. -/
inductive Move (p : Params) (σ : Sys) : Role → Sys → Prop
  | write (pc : σ.prod = .write) (more : σ.prodI < p.rounds) :
      Move p σ .producer { σ with
        sharedMem := p.item σ.prodI
        prod := .post
        log := σ.log ++ [.produced (p.item σ.prodI)] }
  | postP (pc : σ.prod = .post) :
      Move p σ .producer { σ with semConsumer := σ.semConsumer + 1, prod := .wait }
  | waitP (pc : σ.prod = .wait) (some : 0 < σ.semProducer) :
      Move p σ .producer
        { σ with semProducer := σ.semProducer - 1, prod := .write, prodI := σ.prodI + 1 }
  | waitC (pc : σ.cons = .wait) (more : σ.consI < p.rounds) (some : 0 < σ.semConsumer) :
      Move p σ .consumer { σ with semConsumer := σ.semConsumer - 1, cons := .read }
  | read (pc : σ.cons = .read) :
      Move p σ .consumer { σ with cons := .post, log := σ.log ++ [.consumed σ.sharedMem] }
  | postC (pc : σ.cons = .post) :
      Move p σ .consumer
        { σ with semProducer := σ.semProducer + 1, cons := .wait, consI := σ.consI + 1 }

theorem step_move (step : Step p σ r σ') : Move p σ r σ' := by
  cases r with
  | producer =>
    simp only [Step, Sys.step, Sys.producer] at step
    split at step
    · next pc =>
      obtain ⟨more, step⟩ := Option.ite_none_right_eq_some.mp step
      cases step
      exact .write pc more
    · next pc =>
      cases step
      exact .postP pc
    · next pc =>
      obtain ⟨some, step⟩ := Option.ite_none_right_eq_some.mp step
      cases step
      exact .waitP pc some
  | consumer =>
    simp only [Step, Sys.step, Sys.consumer] at step
    split at step
    · next pc =>
      obtain ⟨may, step⟩ := Option.ite_none_right_eq_some.mp step
      cases step
      exact .waitC pc may.1 may.2
    · next pc =>
      cases step
      exact .read pc
    · next pc =>
      cases step
      exact .postC pc

theorem started_accounts (p : Params) (a b : Nat) (shared : Int) :
    Accounts p a b (started a b shared) := by
  constructor <;> simp [started, Sys.waited, Sys.posted, Sys.written, Sys.produced]

theorem step_accounts (A : Accounts p a b σ) (step : Step p σ r σ') : Accounts p a b σ' := by
  obtain ⟨consumer, producer, within, rounds, produced, last⟩ := A
  cases step_move step with
  | write pc more =>
    simp only [Sys.written, Sys.posted, Sys.waited, pc, reduceCtorEq, if_true, if_false,
      Nat.add_zero] at consumer producer within rounds produced last
    constructor
    · simpa [Sys.posted, Sys.waited] using consumer
    · exact producer
    · exact more
    · exact rounds
    · rw [show Sys.written _ = σ.prodI + 1 by simp [Sys.written], List.range_succ, List.map_append,
        ← produced]
      simp [Sys.produced, Event.item?]
    · intro i eq
      obtain rfl : σ.prodI = i := by simpa [Sys.written] using eq
      rfl
  | postP pc =>
    simp only [Sys.written, Sys.posted, pc, reduceCtorEq, if_false, Nat.add_zero]
      at consumer within produced last
    constructor
    · simp only [Sys.waited, Sys.posted, if_true] at consumer ⊢
      omega
    · exact producer
    · simpa [Sys.written] using within
    · exact rounds
    · simpa [Sys.written, Sys.produced] using produced
    · intro i eq
      exact last i (by simpa [Sys.written] using eq)
  | waitP pc some =>
    simp only [Sys.written, Sys.posted, pc, reduceCtorEq, if_true, if_false]
      at consumer within produced last
    constructor
    · simpa [Sys.waited, Sys.posted] using consumer
    · simp only
      omega
    · simpa [Sys.written] using within
    · exact rounds
    · simpa [Sys.written, Sys.produced] using produced
    · intro i eq
      exact last i (by simpa [Sys.written] using eq)
  | waitC pc more some =>
    simp only [Sys.waited, pc, if_true, Nat.add_zero] at consumer rounds
    constructor
    · simp only [Sys.waited, Sys.posted, reduceCtorEq, if_false] at consumer ⊢
      omega
    · exact producer
    · exact within
    · exact more
    · exact produced
    · exact last
  | read pc =>
    simp only [Sys.waited, pc, reduceCtorEq, if_false] at consumer rounds
    constructor
    · simpa [Sys.waited, Sys.posted] using consumer
    · exact producer
    · exact within
    · simpa [Sys.waited] using rounds
    · simpa [Sys.written, Sys.produced, Event.item?] using produced
    · exact last
  | postC pc =>
    simp only [Sys.waited, pc, reduceCtorEq, if_false] at consumer rounds
    constructor
    · simpa [Sys.waited, Sys.posted] using consumer
    · simp only
      omega
    · exact within
    · simpa [Sys.waited] using rounds
    · exact produced
    · exact last

/-! ## What is handed over -/

/-- The values of the semaphores with which the items arrive. -/
def Sound (p : Params) (a b : Nat) : Prop := (b = 0 ∨ p.rounds = 0) ∧ (a = 0 ∨ p.rounds ≤ 1)

/-- When the consumer reads, the item of its round is the last one written. -/
theorem read_last (sound : Sound p a b) (A : Accounts p a b σ) (pc : σ.cons = .read) :
    σ.written = σ.consI + 1 := by
  obtain ⟨consumer, producer, within, rounds, _, _⟩ := A
  obtain ⟨full, ahead⟩ := sound
  have posted : σ.posted ≤ σ.written ∧ σ.written ≤ σ.prodI + 1 := by
    unfold Sys.posted Sys.written
    cases σ.prod <;> simp
  simp only [Sys.waited, pc, reduceCtorEq, if_false] at consumer rounds
  omega

theorem step_consumed (sound : Sound p a b) (A : Accounts p a b σ)
    (order : σ.consumed = (List.range σ.taken).map p.item) (step : Step p σ r σ') :
    σ'.consumed = (List.range σ'.taken).map p.item := by
  cases step_move step with
  | write _ _ => simpa [Sys.consumed, Event.item?, Sys.taken] using order
  | postP _ | waitP _ _ => exact order
  | waitC pc _ _ => simpa [Sys.taken, Sys.consumed, pc] using order
  | read pc =>
    have item := A.last _ (read_last sound A pc)
    simp only [Sys.taken, pc, reduceCtorEq, if_false, Nat.add_zero] at order
    rw [show Sys.taken _ = σ.consI + 1 by simp [Sys.taken], List.range_succ, List.map_append,
      ← order]
    simp [Sys.consumed, Event.item?, item]
  | postC pc => simpa [Sys.taken, Sys.consumed, pc] using order

theorem run_accounts {acts : List Role} {shared : Int}
    (run : Run (Step p) (started a b shared) acts σ) : Accounts p a b σ :=
  run.invariant (started_accounts p a b shared) fun _ _ _ A step => step_accounts A step

theorem run_consumed {acts : List Role} {shared : Int} (sound : Sound p a b)
    (run : Run (Step p) (started a b shared) acts σ) :
    σ.consumed = (List.range σ.taken).map p.item := by
  have both := run.invariant
    (I := fun s => Accounts p a b s ∧ s.consumed = (List.range s.taken).map p.item)
    ⟨started_accounts p a b shared, by simp [started, Sys.consumed, Sys.taken]⟩
    fun _ _ _ both step => ⟨step_accounts both.1 step, step_consumed sound both.1 both.2 step⟩
  exact both.2

theorem taken_le_written (sound : Sound p a b) (A : Accounts p a b σ) : σ.taken ≤ σ.written := by
  obtain ⟨consumer, _, _, rounds, _, _⟩ := A
  have full := sound.1
  have posted : σ.posted ≤ σ.written := by
    unfold Sys.posted Sys.written
    cases σ.prod <;> simp
  have taken : σ.taken ≤ σ.waited := by
    unfold Sys.taken Sys.waited
    cases σ.cons <;> simp
  omega

/-- A consumer that finds its semaphore up reads before anything has been written. -/
theorem reads_early (more : 0 < p.rounds) (up : 0 < b) (shared : Int) :
    ∃ σ, Run (Step p) (started a b shared) [.consumer, .consumer] σ ∧
      σ.consumed = [shared] ∧ σ.produced = [] := by
  have ran : execute (Sys.step p) (started a b shared) [.consumer, .consumer] =
      some { started a b shared with
        semConsumer := b - 1, cons := .post, log := [.consumed shared] } := by
    simp [execute, Sys.step, Sys.consumer, started, more, up]
  exact ⟨_, execute_run (fun _ _ _ step => step) ran, rfl, rfl⟩

/-- A producer that finds its semaphore up writes over its first item. -/
theorem overwrites (more : 1 < p.rounds) (up : 0 < a) (shared : Int) :
    ∃ σ, Run (Step p) (started a b shared)
        [.producer, .producer, .producer, .producer, .consumer, .consumer] σ ∧
      σ.consumed = [p.item 1] ∧ σ.produced = [p.item 0, p.item 1] := by
  have first : 0 < p.rounds := Nat.zero_lt_of_lt more
  have ran : execute (Sys.step p) (started a b shared)
      [.producer, .producer, .producer, .producer, .consumer, .consumer] =
      some { started (a - 1) b (p.item 1) with
        prod := .post, prodI := 1, cons := .post
        log := [.produced (p.item 0), .produced (p.item 1), .consumed (p.item 1)] } := by
    simp [execute, Sys.step, Sys.consumer, Sys.producer, started, more, up, first]
  exact ⟨_, execute_run (fun _ _ _ step => step) ran, rfl, rfl⟩

/-- For `n` rounds and semaphores left at `a` and `b`: whatever the consumer reads it reads in
the order in which it was written, in every run, if and only if the semaphore of the consumer
was at zero and, for more than one round, that of the producer too. -/
theorem items_arrive_iff (n a b : Nat) :
    (∀ (item : Nat → Int) (shared : Int) (acts : List Role) (σ : Sys),
      Run (Step ⟨n, item⟩) (started a b shared) acts σ → σ.consumed <+: σ.produced) ↔
    (b = 0 ∨ n = 0) ∧ (a = 0 ∨ n ≤ 1) := by
  constructor
  · intro arrive
    constructor
    · by_contra no
      obtain ⟨σ, run, consumed, produced⟩ :=
        reads_early (p := ⟨n, fun _ => 0⟩) (a := a) (b := b) (by simp only; omega) (by omega) 0
      have early := arrive _ _ _ σ run
      rw [consumed, produced] at early
      simp at early
    · by_contra no
      obtain ⟨σ, run, consumed, produced⟩ :=
        overwrites (p := ⟨n, fun i => i⟩) (a := a) (b := b) (by simp only; omega) (by omega) 0
      have there := arrive _ _ _ σ run
      rw [consumed, produced] at there
      simp at there
  · intro zero item shared acts σ run
    have sound : Sound ⟨n, item⟩ a b := zero
    have A := run_accounts run
    rw [run_consumed sound run, A.produced]
    obtain ⟨k, eq⟩ := Nat.exists_eq_add_of_le (taken_le_written sound A)
    rw [eq, List.range_add, List.map_append]
    exact List.prefix_append _ _

/-! ## Both processes return -/

def Producer.rank : Producer → Nat
  | .write => 0
  | .post => 1
  | .wait => 2

def Consumer.rank : Consumer → Nat
  | .wait => 0
  | .read => 1
  | .post => 2

/-- The steps of both processes so far. -/
def Sys.steps (σ : Sys) : Nat := 3 * σ.prodI + σ.prod.rank + 3 * σ.consI + σ.cons.rank

/-- Both loops have come to their end. -/
structure Returned (p : Params) (σ : Sys) : Prop where
  prod : σ.prod = .write ∧ σ.prodI = p.rounds
  cons : σ.cons = .wait ∧ σ.consI = p.rounds

theorem step_steps (step : Step p σ r σ') : σ'.steps = σ.steps + 1 := by
  cases step_move step with
  | write pc _ | postP pc | waitP pc _ =>
    simp only [Sys.steps, pc, Producer.rank]
    omega
  | waitC pc _ _ | read pc => simp only [Sys.steps, pc, Consumer.rank]
  | postC pc =>
    simp only [Sys.steps, pc, Consumer.rank]
    omega

theorem run_steps {acts : List Role} {shared : Int}
    (run : Run (Step p) (started a b shared) acts σ) : acts.length = σ.steps := by
  induction run with
  | nil => rfl
  | snoc _ step ih => rw [List.length_append, List.length_singleton, ih, step_steps step]

theorem steps_le (A : Accounts p a b σ) : σ.steps ≤ 6 * p.rounds := by
  obtain ⟨_, _, within, rounds, _, _⟩ := A
  unfold Sys.written at within
  unfold Sys.waited at rounds
  unfold Sys.steps
  cases prod : σ.prod <;> cases cons : σ.cons <;>
    simp only [prod, cons, Producer.rank, Consumer.rank, reduceCtorEq, if_true, if_false] at * <;>
    omega

theorem returned_or_steps (A : Accounts p a b σ) :
    Returned p σ ∨ ∃ r, (σ.step p r).isSome = true := by
  obtain ⟨consumer, producer, within, rounds, _, _⟩ := A
  by_contra stuck
  rw [not_or] at stuck
  obtain ⟨out, none⟩ := stuck
  have noProducer : ¬ (σ.producer p).isSome = true := fun some => none ⟨.producer, some⟩
  have noConsumer : ¬ (σ.consumer p).isSome = true := fun some => none ⟨.consumer, some⟩
  unfold Sys.written at within
  unfold Sys.waited at consumer rounds
  unfold Sys.posted at consumer
  cases cons : σ.cons with
  | read | post => simp [Sys.consumer, cons] at noConsumer
  | wait =>
    cases prod : σ.prod with
    | post => simp [Sys.producer, prod] at noProducer
    | write =>
      simp only [Sys.producer, Sys.consumer, prod, cons, Option.isSome_ite] at noProducer noConsumer
      simp only [prod, cons, reduceCtorEq, if_true, if_false] at consumer within rounds
      refine out ⟨⟨prod, ?_⟩, ⟨cons, ?_⟩⟩ <;> omega
    | wait =>
      simp only [Sys.producer, Sys.consumer, prod, cons, Option.isSome_ite] at noProducer noConsumer
      simp only [prod, cons, reduceCtorEq, if_true, if_false] at consumer within rounds
      omega

/-- Whatever the semaphores were left with, both processes return, after three steps for each
round of each. -/
theorem both_return (p : Params) (a b : Nat) (shared : Int) (acts : List Role) (σ : Sys)
    (run : Run (Step p) (started a b shared) acts σ) :
    acts.length ≤ 6 * p.rounds ∧ (Returned p σ ∨ ∃ r, (σ.step p r).isSome = true) := by
  have A := run_accounts run
  rw [run_steps run]
  exact ⟨steps_le A, returned_or_steps A⟩

/-- The consumer finds its semaphore up. -/
theorem early_returns : ∃ σ, Run (Step ⟨1, fun _ => 9⟩) (started 0 1 7) [.consumer] σ ∧
    [Role.consumer].length ≤ 6 * 1 ∧
    (Returned ⟨1, fun _ => 9⟩ σ ∨ ∃ r, (σ.step ⟨1, fun _ => 9⟩ r).isSome = true) := by
  have ran : execute (Sys.step ⟨1, fun _ => 9⟩) (started 0 1 7) [.consumer] =
      some { started 0 0 7 with cons := .read } := rfl
  have run : Run (Step ⟨1, fun _ => 9⟩) (started 0 1 7) [.consumer] _ :=
    execute_run (fun _ _ _ step => step) ran
  exact ⟨_, run, both_return _ 0 1 7 _ _ run⟩

/-! ## In turns -/

/-- What happens at time `t` when the items are handed over one by one. -/
def turn (p : Params) (t : Nat) : Event :=
  if t % 2 = 0 then .produced (p.item (t / 2)) else .consumed (p.item (t / 2))

/-- Production and consumption take turns, and there is never a choice who is next at the
semaphores and the shared memory. `sleep` and the tests of the loops touch neither. -/
structure InTurns (p : Params) (σ : Sys) : Prop where
  log : σ.log = (List.range σ.log.length).map (turn p)
  one : ∀ r s, (σ.step p r).isSome = true → (σ.step p s).isSome = true → r = s

/-- When the producer writes, everything before has been taken. -/
theorem write_taken (A : Accounts p 0 0 σ) (pc : σ.prod = .write) : σ.taken = σ.prodI := by
  obtain ⟨consumer, producer, _, _, _, _⟩ := A
  have taken : σ.consI ≤ σ.taken ∧ σ.taken ≤ σ.waited := by
    unfold Sys.taken Sys.waited
    cases σ.cons <;> simp
  simp only [Sys.posted, pc, reduceCtorEq, if_false] at consumer
  omega

theorem step_log (A : Accounts p 0 0 σ)
    (log : σ.log = (List.range (σ.written + σ.taken)).map (turn p)) (step : Step p σ r σ') :
    σ'.log = (List.range (σ'.written + σ'.taken)).map (turn p) := by
  have sound : Sound p 0 0 := ⟨.inl rfl, .inl rfl⟩
  -- Only a step that writes or reads lengthens the log.
  have same (log' : σ'.log = σ.log) (written : σ'.written = σ.written)
      (taken : σ'.taken = σ.taken) :
      σ'.log = (List.range (σ'.written + σ'.taken)).map (turn p) := by
    rw [log', written, taken, log]
  have next {e : Event} (log' : σ'.log = σ.log ++ [e])
      (time : σ'.written + σ'.taken = σ.written + σ.taken + 1)
      (event : turn p (σ.written + σ.taken) = e) :
      σ'.log = (List.range (σ'.written + σ'.taken)).map (turn p) := by
    rw [log', time, List.range_succ, List.map_append, ← log, List.map_singleton, event]
  cases step_move step with
  | write pc _ =>
    have taken := write_taken A pc
    have written : σ.written = σ.prodI := by simp [Sys.written, pc]
    refine next rfl (by simp [Sys.written, Sys.taken, pc]; omega) ?_
    rw [taken, written, turn, if_pos (by omega)]
    congr 2
    omega
  | postP pc | waitP pc _ => exact same rfl (by simp [Sys.written, pc]) rfl
  | waitC pc _ _ | postC pc => exact same rfl rfl (by simp [Sys.taken, pc])
  | read pc =>
    have written := read_last sound A pc
    have taken : σ.taken = σ.consI := by simp [Sys.taken, pc]
    refine next rfl (by simp [Sys.written, Sys.taken, pc]; omega) ?_
    rw [A.last _ written, taken, written, turn, if_neg (by omega)]
    congr 2
    omega

theorem steps_one (A : Accounts p 0 0 σ) (producer : (σ.producer p).isSome = true)
    (consumer : (σ.consumer p).isSome = true) : False := by
  obtain ⟨countC, countP, _, _, _, _⟩ := A
  cases prod : σ.prod <;> cases cons : σ.cons <;>
    simp only [Sys.producer, Sys.consumer, Sys.waited, Sys.posted, prod, cons, Option.isSome_ite,
      reduceCtorEq, if_true, if_false] at * <;>
    omega

/-- With both semaphores at zero production and consumption take turns, and at any time one
process at most can make its next access to the semaphores and the shared memory. -/
theorem items_alternate (p : Params) (shared : Int) (acts : List Role) (σ : Sys)
    (run : Run (Step p) (started 0 0 shared) acts σ) : InTurns p σ := by
  have both := run.invariant
    (I := fun s => Accounts p 0 0 s ∧ s.log = (List.range (s.written + s.taken)).map (turn p))
    ⟨started_accounts p 0 0 shared, by simp [started, Sys.written, Sys.taken]⟩
    fun _ _ _ both step => ⟨step_accounts both.1 step, step_log both.1 both.2 step⟩
  obtain ⟨A, log⟩ := both
  constructor
  · have time : σ.log.length = σ.written + σ.taken := by simp [log]
    rw [time]
    exact log
  · intro r s first second
    cases r <;> cases s
    · rfl
    · exact (steps_one A first second).elim
    · exact (steps_one A second first).elim
    · rfl

/-- One item goes through. -/
def oneItem : List Role := [.producer, .producer, .consumer, .consumer, .consumer, .producer]

theorem oneItem_in_turns : ∃ σ, Run (Step ⟨1, fun _ => 9⟩) (started 0 0 7) oneItem σ ∧
    InTurns ⟨1, fun _ => 9⟩ σ := by
  have ran : execute (Sys.step ⟨1, fun _ => 9⟩) (started 0 0 7) oneItem =
      some { started 0 0 9 with prodI := 1, consI := 1, log := [.produced 9, .consumed 9] } := rfl
  have run : Run (Step ⟨1, fun _ => 9⟩) (started 0 0 7) oneItem _ :=
    execute_run (fun _ _ _ step => step) ran
  exact ⟨_, run, items_alternate _ 7 _ _ run⟩

end LearnC.Process.Rendezvous
