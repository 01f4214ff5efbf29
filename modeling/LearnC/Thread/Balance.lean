import LearnC.Machine.Monitor

/-! `gcc_demo/demo.c`: threads that add to a counter and take from it in turn, and what `main`
does with the counter behind them. -/

namespace LearnC.Thread.Balance

/-- Which operation of `thread_func_arithmetic` a thread comes to, in which round. -/
inductive Pc where
  | fetchAndAdd (i : Nat)
  | fetchAndSub (i : Nat)
  | addAndFetch (i : Nat)
  | subAndFetch (i : Nat)
  | returned
  deriving DecidableEq

/-- Where `main` stands: before the joins; in `cas_demo`; in `spinlock_demo` before the lock,
behind it, and before the release. -/
inductive Main where
  | joining
  | comparing
  | spinning
  | inside
  | releasing
  | done
  deriving DecidableEq

/-- The shared variables, the threads, the final value that `main` prints, and whether the
comparison has succeeded. -/
structure Sys (T : Type) where
  counter : BitVec 32
  lock : BitVec 32
  thread : T → Pc
  main : Main
  final : Option (BitVec 32)
  success : Option Bool

section
variable {T : Type} [Fintype T]

def Sys.stepMain (σ : Sys T) : Option (Sys T) :=
  match σ.main with
  | .joining =>
    if ∀ t, σ.thread t = .returned then
      some { σ with main := .comparing, final := some σ.counter }
    else none
  | .comparing =>
    if σ.counter = 0 then
      some { σ with main := .spinning, counter := 1, success := some true }
    else some { σ with main := .spinning, success := some false }
  | .spinning =>
    if σ.lock = 0 then some { σ with main := .inside, lock := 1 } else some { σ with lock := 1 }
  | .inside => some { σ with main := .releasing, counter := σ.counter + 1 }
  | .releasing => some { σ with main := .done, lock := 0 }
  | .done => none

variable [DecidableEq T]

/-- The thread goes on, and the counter has a new value. -/
def Sys.go (σ : Sys T) (t : T) (pc : Pc) (counter : BitVec 32) : Sys T :=
  { σ with thread := Function.update σ.thread t pc, counter := counter }

def Sys.stepThread (rounds : Nat) (σ : Sys T) (t : T) : Option (Sys T) :=
  match σ.thread t with
  | .fetchAndAdd i =>
    if i < rounds then some (σ.go t (.fetchAndSub i) (σ.counter + 1))
    else some (σ.go t .returned σ.counter)
  | .fetchAndSub i => some (σ.go t (.addAndFetch i) (σ.counter - 1))
  | .addAndFetch i => some (σ.go t (.subAndFetch i) (σ.counter + 1))
  | .subAndFetch i => some (σ.go t (.fetchAndAdd (i + 1)) (σ.counter - 1))
  | .returned => none

def Sys.step (rounds : Nat) (σ : Sys T) : Option T → Option (Sys T)
  | none => σ.stepMain
  | some t => σ.stepThread rounds t

def Step (rounds : Nat) (σ : Sys T) (a : Option T) (σ' : Sys T) : Prop :=
  σ.step rounds a = some σ'

end

def start {T : Type} : Sys T where
  counter := 0
  lock := 0
  thread := fun _ => .fetchAndAdd 0
  main := .joining
  final := none
  success := none

/-! ## What the counter counts -/

/-- Behind an addition and before the subtraction that goes with it. -/
def Pc.between : Pc → Bool
  | .fetchAndSub _ => true
  | .subAndFetch _ => true
  | _ => false

/-- What `main` has added itself. -/
def Main.added : Main → Nat
  | .joining => 0
  | .comparing => 0
  | .spinning => 1
  | .inside => 1
  | .releasing => 2
  | .done => 2

/-- `spinlock_demo` holds the lock. -/
def Main.locks : Main → Bool
  | .inside => true
  | .releasing => true
  | _ => false

structure Balanced {T : Type} [Fintype T] (σ : Sys T) : Prop where
  counter : σ.counter = BitVec.ofNat 32 (count Pc.between σ.thread + σ.main.added)
  joined : σ.main ≠ .joining → ∀ t, σ.thread t = .returned
  final : σ.main ≠ .joining → σ.final = some 0
  success : 0 < σ.main.added → σ.success = some true
  lock : σ.lock = if σ.main.locks then 1 else 0

section
variable {T : Type} [Fintype T] {σ σ' : Sys T} {t : T} {rounds : Nat} {a : Option T} {pc : Pc}
  {x : BitVec 32}

theorem start_balanced : Balanced (start (T := T)) := by
  have none : count Pc.between (fun _ : T => Pc.fetchAndAdd 0) = 0 := count_eq_zero.mpr fun _ => rfl
  constructor <;> simp [start, none, Main.added, Main.locks]

/-- Nobody is between two operations when all have returned. -/
theorem between_returned (all : ∀ t, σ.thread t = .returned) : count Pc.between σ.thread = 0 :=
  count_eq_zero.mpr fun t => by rw [all t]; rfl

theorem Balanced.main (B : Balanced σ) (step : σ.stepMain = some σ') : Balanced σ' := by
  have counter := B.counter
  have lock := B.lock
  unfold Sys.stepMain at step
  split at step
  · next pc =>
    obtain ⟨all, step⟩ := Option.ite_none_right_eq_some.mp step
    cases step
    rw [pc, between_returned all] at counter
    rw [pc] at lock
    refine ⟨?_, fun _ => all, fun _ => by rw [counter]; rfl, by simp [Main.added], lock⟩
    rw [counter, between_returned all]
    rfl
  · next pc =>
    have all := B.joined (by simp [pc])
    have final := B.final (by simp [pc])
    rw [pc, between_returned all] at counter
    rw [pc] at lock
    have zero : σ.counter = 0 := counter
    rw [if_pos zero] at step
    cases step
    refine ⟨?_, fun _ => all, fun _ => final, fun _ => rfl, lock⟩
    rw [between_returned all]
    rfl
  · next pc =>
    have all := B.joined (by simp [pc])
    have final := B.final (by simp [pc])
    have success := B.success (by simp [pc, Main.added])
    rw [pc] at counter lock
    have free : σ.lock = 0 := lock
    rw [if_pos free] at step
    cases step
    exact ⟨counter, fun _ => all, fun _ => final, fun _ => success, rfl⟩
  · next pc =>
    have all := B.joined (by simp [pc])
    have final := B.final (by simp [pc])
    have success := B.success (by simp [pc, Main.added])
    rw [pc, between_returned all] at counter
    rw [pc] at lock
    cases step
    refine ⟨?_, fun _ => all, fun _ => final, fun _ => success, lock⟩
    rw [counter, between_returned all]
    rfl
  · next pc =>
    have all := B.joined (by simp [pc])
    have final := B.final (by simp [pc])
    have success := B.success (by simp [pc, Main.added])
    rw [pc] at counter
    cases step
    exact ⟨counter, fun _ => all, fun _ => final, fun _ => success, rfl⟩
  · cases step

variable [DecidableEq T]

/-- A thread that has not returned finds `main` before the joins. -/
theorem Balanced.go (B : Balanced σ) (here : σ.thread t ≠ .returned) (before after : Nat)
    (change : pc.between.toNat + before = (σ.thread t).between.toNat + after)
    (counter : x + BitVec.ofNat 32 before = σ.counter + BitVec.ofNat 32 after) :
    Balanced (σ.go t pc x) := by
  have joining : σ.main = .joining := by
    by_contra ne
    exact here (B.joined ne t)
  have moved := count_step (p := Pc.between) (f := σ.thread) change
  have old := B.counter
  have lock := B.lock
  simp only [joining, Main.added, Nat.add_zero] at old
  refine ⟨?_, fun ne => absurd joining ne, fun ne => absurd joining ne, ?_, lock⟩
  · simp only [Sys.go, joining, Main.added, Nat.add_zero]
    rw [old, ← BitVec.ofNat_add, ← moved, BitVec.ofNat_add] at counter
    exact (BitVec.add_left_inj _).mp counter
  · simp only [Sys.go, joining, Main.added]
    exact fun pos => absurd pos (Nat.lt_irrefl 0)

theorem Balanced.thread (B : Balanced σ) (step : σ.stepThread rounds t = some σ') :
    Balanced σ' := by
  unfold Sys.stepThread at step
  split at step
  · next i pc =>
    split at step <;> cases step
    · exact B.go (by simp [pc]) 0 1 (by simp [pc, Pc.between]) (by simp)
    · exact B.go (by simp [pc]) 0 0 (by simp [pc, Pc.between]) (by simp)
  · next i pc =>
    cases step
    exact B.go (by simp [pc]) 1 0 (by simp [pc, Pc.between])
      ((BitVec.sub_add_cancel _ _).trans (BitVec.add_zero _).symm)
  · next i pc =>
    cases step
    exact B.go (by simp [pc]) 0 1 (by simp [pc, Pc.between]) (by simp)
  · next i pc =>
    cases step
    exact B.go (by simp [pc]) 1 0 (by simp [pc, Pc.between])
      ((BitVec.sub_add_cancel _ _).trans (BitVec.add_zero _).symm)
  · cases step

theorem Balanced.step (B : Balanced σ) (step : Step rounds σ a σ') : Balanced σ' := by
  cases a with
  | none => exact B.main step
  | some t => exact B.thread step

end

/-! ## The program ends -/

/-- What a thread has still to do. -/
def Pc.work (rounds : Nat) : Pc → Nat
  | .fetchAndAdd i => 4 * (rounds - i) + 1
  | .fetchAndSub i => 4 * (rounds - i)
  | .addAndFetch i => 4 * (rounds - i) - 1
  | .subAndFetch i => 4 * (rounds - i) - 2
  | .returned => 0

def Main.work : Main → Nat
  | .joining => 5
  | .comparing => 4
  | .spinning => 3
  | .inside => 2
  | .releasing => 1
  | .done => 0

/-- A thread stays in its rounds. -/
def Pc.Within (rounds : Nat) : Pc → Prop
  | .fetchAndAdd i => i ≤ rounds
  | .fetchAndSub i => i < rounds
  | .addAndFetch i => i < rounds
  | .subAndFetch i => i < rounds
  | .returned => True

section
variable {T : Type} {σ σ' : Sys T} {t : T} {rounds : Nat} {a : Option T}

/-- A step of a thread is one of those that were left to it. -/
theorem thread_step [DecidableEq T] (within : (σ.thread t).Within rounds)
    (step : σ.stepThread rounds t = some σ') :
    ∃ pc x, σ' = σ.go t pc x ∧ pc.Within rounds ∧
      pc.work rounds + 1 = (σ.thread t).work rounds := by
  unfold Sys.stepThread at step
  split at step
  · next i here =>
    rw [here] at within ⊢
    simp only [Pc.Within] at within
    split at step <;> cases step
    · next lt =>
      refine ⟨_, _, rfl, lt, ?_⟩
      rfl
    · next all =>
      refine ⟨_, _, rfl, trivial, ?_⟩
      simp only [Pc.work]
      omega
  · next i here =>
    rw [here] at within ⊢
    simp only [Pc.Within] at within
    cases step
    refine ⟨_, _, rfl, within, ?_⟩
    simp only [Pc.work]
    omega
  · next i here =>
    rw [here] at within ⊢
    simp only [Pc.Within] at within
    cases step
    refine ⟨_, _, rfl, within, ?_⟩
    simp only [Pc.work]
    omega
  · next i here =>
    rw [here] at within ⊢
    simp only [Pc.Within] at within
    cases step
    refine ⟨_, _, rfl, within, ?_⟩
    simp only [Pc.work]
    omega
  · cases step

variable [Fintype T]

def Sys.work (rounds : Nat) (σ : Sys T) : Nat := total (Pc.work rounds) σ.thread + σ.main.work

theorem main_step (B : Balanced σ) (step : σ.stepMain = some σ') :
    σ'.thread = σ.thread ∧ σ'.main.work + 1 = σ.main.work := by
  have lock := B.lock
  unfold Sys.stepMain at step
  split at step
  · next pc =>
    obtain ⟨_, step⟩ := Option.ite_none_right_eq_some.mp step
    cases step
    simp [pc, Main.work]
  · next pc => split at step <;> cases step <;> simp [pc, Main.work]
  · next pc =>
    rw [pc] at lock
    have free : σ.lock = 0 := lock
    rw [if_pos free] at step
    cases step
    simp [pc, Main.work]
  · next pc =>
    cases step
    simp [pc, Main.work]
  · next pc =>
    cases step
    simp [pc, Main.work]
  · cases step

variable [DecidableEq T]

/-- What every step keeps besides the balance. -/
theorem Balanced.work (B : Balanced σ) (within : ∀ t, (σ.thread t).Within rounds)
    (step : Step rounds σ a σ') :
    (∀ t, (σ'.thread t).Within rounds) ∧ σ'.work rounds + 1 = σ.work rounds := by
  cases a with
  | none =>
    obtain ⟨same, less⟩ := main_step B step
    rw [Sys.work, Sys.work, same]
    exact ⟨within, by omega⟩
  | some t =>
    obtain ⟨pc, x, rfl, within', less⟩ := thread_step (within t) step
    have moved := total_step (g := Pc.work rounds) (f := σ.thread) (i := t) (x := pc) (a := 1)
      (b := 0) less
    simp only [Sys.work, Sys.go]
    refine ⟨fun u => ?_, by omega⟩
    by_cases eq : u = t
    · subst eq
      rw [Function.update_self]
      exact within'
    · rw [Function.update_of_ne eq]
      exact within u

theorem steps (rounds : Nat) (going : σ.main ≠ .done) :
    ∃ a, (σ.step rounds a).isSome = true := by
  by_cases all : ∀ t, σ.thread t = .returned
  · refine ⟨none, ?_⟩
    simp only [Sys.step, Sys.stepMain]
    cases pc : σ.main with
    | joining => simp [all]
    | comparing | spinning =>
      simp only []
      split <;> rfl
    | inside | releasing => rfl
    | done => exact absurd pc going
  · obtain ⟨t, more⟩ := not_forall.mp all
    refine ⟨some t, ?_⟩
    simp only [Sys.step, Sys.stepThread]
    cases pc : σ.thread t with
    | fetchAndAdd i =>
      simp only []
      split <;> rfl
    | fetchAndSub i | addAndFetch i | subAndFetch i => rfl
    | returned => exact absurd pc more

/-- In every order of steps the counter is the number of threads between an addition and its
subtraction, with what `main` has added; so `main` prints 0, its comparison succeeds, and it ends
with the lock free and the counter at 2. -/
theorem counter_balanced (rounds : Nat) (acts : List (Option T)) (σ : Sys T)
    (run : Run (Step rounds) start acts σ) :
    Balanced σ ∧
    (σ.main = .done → σ.final = some 0 ∧ σ.success = some true ∧ σ.counter = 2 ∧ σ.lock = 0) ∧
    acts.length + σ.work rounds = Fintype.card T * (4 * rounds + 1) + 5 ∧
    (σ.main ≠ .done → ∃ a, (σ.step rounds a).isSome = true) := by
  have all : Balanced σ ∧ (∀ t, (σ.thread t).Within rounds) ∧
      acts.length + σ.work rounds = Fintype.card T * (4 * rounds + 1) + 5 := by
    induction run with
    | nil =>
      refine ⟨start_balanced, fun _ => Nat.zero_le _, ?_⟩
      simp [Sys.work, start, total, Pc.work, Main.work]
    | snoc _ step ih =>
      obtain ⟨B, within, length⟩ := ih
      obtain ⟨within', less⟩ := B.work within step
      refine ⟨B.step step, within', ?_⟩
      rw [List.length_append, List.length_singleton]
      omega
  obtain ⟨B, _, length⟩ := all
  refine ⟨B, fun pc => ?_, length, steps rounds⟩
  have returned := B.joined (by simp [pc])
  have counter := B.counter
  have lock := B.lock
  rw [pc, between_returned returned] at counter
  rw [pc] at lock
  exact ⟨B.final (by simp [pc]), B.success (by simp [pc, Main.added]), counter, lock⟩

end

/-- Both threads have added when the first goes on. -/
theorem two_between : ∃ σ : Sys (Fin 2),
    Run (Step 10000) start [some 0, some 1, some 0] σ ∧ Balanced σ ∧ σ.main ≠ .done := by
  have ran : (execute (Sys.step 10000) (start (T := Fin 2)) [some 0, some 1, some 0]).map
      (fun σ => σ.main) = some .joining := by
    decide
  obtain ⟨σ, ret, pc⟩ := Option.map_eq_some_iff.mp ran
  have run : Run (Step 10000) start [some 0, some 1, some 0] σ :=
    execute_run (fun _ _ _ step => step) ret
  exact ⟨σ, run, (counter_balanced 10000 _ σ run).1, by simp [pc]⟩

end LearnC.Thread.Balance
