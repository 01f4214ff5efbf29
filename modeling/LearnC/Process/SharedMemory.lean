import Mathlib.Data.List.GetD
import Mathlib.Logic.Function.Basic
import Mathlib.Tactic.ByContra
import LearnC.Machine.Run

/-! `2.shm.c`: the parent copies its message into the shared memory byte by byte, and the child
waits for the semaphore before it prints what is there. -/

namespace LearnC.Process.SharedMemory

/-- `SHM_SIZE`. -/
def shmSize : Nat := 1024

/-- Where the parent stands: in `strncpy`, with so many bytes written; before `sem_signal`;
before `wait`; behind it. -/
inductive Parent where
  | copying (k : Nat)
  | signalling
  | waiting
  | done
  deriving DecidableEq

/-- Where the child stands: before `sem_wait`; in `printf`, with so many bytes read; behind it. -/
inductive Child where
  | waiting
  | reading (k : Nat)
  | done
  deriving DecidableEq

/-- The semaphore, the segment, both processes, and what the child has printed of it. -/
structure Sys where
  sem : Nat
  memory : Nat → UInt8
  parent : Parent
  child : Child
  output : List UInt8

inductive Role where
  | parent
  | child
  deriving DecidableEq

namespace Sys

/-- The next step of the parent. `strncpy` fills the segment up with zeros. -/
def stepParent (message : List UInt8) (σ : Sys) : Option Sys :=
  match σ.parent with
  | .copying k =>
    if k < shmSize then
      some { σ with
        memory := Function.update σ.memory k (message.getD k 0)
        parent := .copying (k + 1) }
    else some { σ with parent := .signalling }
  | .signalling => some { σ with sem := σ.sem + 1, parent := .waiting }
  | .waiting => if σ.child = .done then some { σ with parent := .done } else none
  | .done => none

/-- The next step of the child; none also where it would read behind the segment. -/
def stepChild (σ : Sys) : Option Sys :=
  match σ.child with
  | .waiting => if 0 < σ.sem then some { σ with sem := σ.sem - 1, child := .reading 0 } else none
  | .reading k =>
    if k < shmSize then
      if σ.memory k = 0 then some { σ with child := .done }
      else some { σ with output := σ.output ++ [σ.memory k], child := .reading (k + 1) }
    else none
  | .done => none

def step (message : List UInt8) (σ : Sys) : Role → Option Sys
  | .parent => σ.stepParent message
  | .child => σ.stepChild

end Sys

def Step (message : List UInt8) (σ : Sys) (r : Role) (σ' : Sys) : Prop :=
  σ.step message r = some σ'

/-- Behind `fork`: `semctl` has set the semaphore to 0, and the segment may hold anything. -/
def start (garbage : Nat → UInt8) : Sys where
  sem := 0
  memory := garbage
  parent := .copying 0
  child := .waiting
  output := []

/-! ## What is in the segment -/

/-- How many bytes of the segment are written. -/
def Parent.copied : Parent → Nat
  | .copying k => k
  | _ => shmSize

def Parent.posted : Parent → Nat
  | .waiting => 1
  | .done => 1
  | _ => 0

def Child.passed : Child → Nat
  | .waiting => 0
  | _ => 1

/-- How many bytes of a message the child has printed. -/
def Child.printed (length : Nat) : Child → Nat
  | .waiting => 0
  | .reading k => k
  | .done => length

/-- A C string that fits the segment with its terminator. -/
structure Text where
  bytes : List UInt8
  short : bytes.length < shmSize
  clean : 0 ∉ bytes

structure Handed (message : Text) (σ : Sys) : Prop where
  within : σ.parent.copied ≤ shmSize
  memory : ∀ i, i < σ.parent.copied → σ.memory i = message.bytes.getD i 0
  sem : σ.sem + σ.child.passed = σ.parent.posted
  child : σ.child.printed message.bytes.length ≤ message.bytes.length
  output : σ.output = message.bytes.take (σ.child.printed message.bytes.length)
  joined : σ.parent = .done → σ.child = .done

section
variable {message : Text} {σ σ' : Sys} {r : Role} {k : Nat}

theorem Text.getD_ne_zero (lt : k < message.bytes.length) : message.bytes.getD k 0 ≠ 0 := by
  rw [List.getD_eq_getElem _ _ lt]
  intro zero
  exact message.clean (zero ▸ List.getElem_mem lt)

theorem Text.getD_eq_zero (le : message.bytes.length ≤ k) : message.bytes.getD k 0 = 0 :=
  List.getD_eq_default _ _ le

/-- While the child reads, the whole message is there. -/
theorem Handed.all (H : Handed message σ) (reading : σ.child = .reading k) {i : Nat}
    (lt : i < shmSize) : σ.memory i = message.bytes.getD i 0 := by
  have posted := H.sem
  rw [reading] at posted
  apply H.memory
  cases pc : σ.parent with
  | copying j | signalling =>
    rw [pc] at posted
    simp [Child.passed, Parent.posted] at posted
  | waiting | done => exact lt

theorem Handed.parent (H : Handed message σ) (step : σ.stepParent message.bytes = some σ') :
    Handed message σ' := by
  have short := message.short
  have sem := H.sem
  unfold Sys.stepParent at step
  split at step
  · next k pc =>
    have within := H.within
    have memory := H.memory
    simp only [pc, Parent.copied, Parent.posted] at within memory sem
    split at step
    · next lt =>
      cases step
      refine ⟨lt, fun i hi => ?_, sem, H.child, H.output, by simp⟩
      by_cases eq : i = k
      · subst eq
        simp
      · have before : i < k := by
          simp only [Parent.copied] at hi
          omega
        simp only [Function.update_of_ne eq]
        exact memory i before
    · next full =>
      cases step
      have all : k = shmSize := by omega
      subst all
      exact ⟨Nat.le_refl _, memory, sem, H.child, H.output, by simp⟩
  · next pc =>
    have memory := H.memory
    simp only [pc, Parent.copied, Parent.posted] at memory sem
    cases step
    refine ⟨Nat.le_refl _, memory, ?_, H.child, H.output, by simp⟩
    simp only [Parent.posted]
    omega
  · next pc =>
    have memory := H.memory
    simp only [pc, Parent.copied, Parent.posted] at memory sem
    obtain ⟨child, step⟩ := Option.ite_none_right_eq_some.mp step
    cases step
    exact ⟨Nat.le_refl _, memory, sem, H.child, H.output, fun _ => child⟩
  · cases step

theorem Handed.child_step (H : Handed message σ) (step : σ.stepChild = some σ') :
    Handed message σ' := by
  have short := message.short
  have sem := H.sem
  have child := H.child
  have output := H.output
  have alive {c : Child} (pc : σ.child = c) (ne : c ≠ .done) : σ.parent ≠ .done :=
    fun done => ne (pc.symm.trans (H.joined done))
  unfold Sys.stepChild at step
  split at step
  · next pc =>
    obtain ⟨pos, step⟩ := Option.ite_none_right_eq_some.mp step
    cases step
    simp only [pc, Child.passed, Child.printed] at sem output
    refine ⟨H.within, H.memory, ?_, Nat.zero_le _, output, fun done => ?_⟩
    · simp only [Child.passed]
      omega
    · exact absurd done (alive pc (by simp))
  · next k pc =>
    simp only [pc, Child.passed, Child.printed] at sem child output
    split at step
    · next lt =>
      have here := H.all pc lt
      split at step
      · next zero =>
        have last : k = message.bytes.length := by
          by_contra ne
          exact Text.getD_ne_zero (by omega) (here.symm.trans zero)
        cases step
        exact ⟨H.within, H.memory, sem, Nat.le_refl _, last ▸ output, fun _ => rfl⟩
      · next some =>
        have more : k < message.bytes.length := by
          by_contra beyond
          exact some (here.trans (Text.getD_eq_zero (Nat.le_of_not_lt beyond)))
        cases step
        refine ⟨H.within, H.memory, sem, more, ?_, fun done => absurd done (alive pc (by simp))⟩
        simp only [Child.printed]
        rw [output, here, List.getD_eq_getElem _ _ more, List.take_append_getElem more]
    · cases step
  · cases step

theorem start_handed (garbage : Nat → UInt8) : Handed message (start garbage) := by
  constructor <;> simp [start, Parent.copied, Parent.posted, Child.passed, Child.printed]

theorem Handed.step (H : Handed message σ) (step : Step message.bytes σ r σ') :
    Handed message σ' := by
  cases r with
  | parent => exact H.parent step
  | child => exact H.child_step step

/-! ## Both come to their end -/

def Parent.work : Parent → Nat
  | .copying k => shmSize - k + 3
  | .signalling => 2
  | .waiting => 1
  | .done => 0

def Child.work (length : Nat) : Child → Nat
  | .waiting => length + 2
  | .reading k => length + 1 - k
  | .done => 0

def Sys.work (message : Text) (σ : Sys) : Nat :=
  σ.parent.work + σ.child.work message.bytes.length

/-- Each step is one of those that were left. -/
theorem Handed.work (H : Handed message σ) (step : Step message.bytes σ r σ') :
    σ'.work message + 1 = σ.work message := by
  cases r with
  | parent =>
    have step : σ.stepParent message.bytes = some σ' := step
    unfold Sys.stepParent at step
    split at step
    · next k pc =>
      have within := H.within
      simp only [pc, Parent.copied] at within
      split at step <;> cases step <;> simp only [Sys.work, pc, Parent.work] <;> omega
    · next pc =>
      cases step
      simp only [Sys.work, pc, Parent.work]
      omega
    · next pc =>
      obtain ⟨_, step⟩ := Option.ite_none_right_eq_some.mp step
      cases step
      simp only [Sys.work, pc, Parent.work]
      omega
    · cases step
  | child =>
    have after := (H.child_step step).child
    have step : σ.stepChild = some σ' := step
    have child := H.child
    unfold Sys.stepChild at step
    split at step
    · next pc =>
      obtain ⟨_, step⟩ := Option.ite_none_right_eq_some.mp step
      cases step
      simp only [Sys.work, pc, Child.work]
      omega
    · next k pc =>
      simp only [pc, Child.printed] at child
      split at step
      · next lt =>
        split at step
        · next zero =>
          have last : k = message.bytes.length := by
            by_contra ne
            exact Text.getD_ne_zero (by omega) ((H.all pc lt).symm.trans zero)
          cases step
          simp only [Sys.work, pc, Child.work]
          omega
        · cases step
          simp only [Child.printed] at after
          simp only [Sys.work, pc, Child.work]
          omega
      · cases step
    · cases step

theorem Handed.steps (H : Handed message σ)
    (going : ¬ (σ.parent = .done ∧ σ.child = .done)) :
    ∃ r, (σ.step message.bytes r).isSome = true := by
  have short := message.short
  have sem := H.sem
  cases pc : σ.parent with
  | copying k =>
    refine ⟨.parent, ?_⟩
    simp only [Sys.step, Sys.stepParent, pc]
    split <;> rfl
  | signalling => exact ⟨.parent, by simp [Sys.step, Sys.stepParent, pc]⟩
  | waiting =>
    cases child : σ.child with
    | waiting =>
      have pos : 0 < σ.sem := by
        simp only [pc, child, Child.passed, Parent.posted] at sem
        omega
      exact ⟨.child, by simp [Sys.step, Sys.stepChild, child, pos]⟩
    | reading k =>
      have le := H.child
      simp only [child, Child.printed] at le
      have inside : k < shmSize := by omega
      refine ⟨.child, ?_⟩
      simp only [Sys.step, Sys.stepChild, child, inside, ↓reduceIte]
      split <;> rfl
    | done => exact ⟨.parent, by simp [Sys.step, Sys.stepParent, pc, child]⟩
  | done => exact absurd ⟨pc, H.joined pc⟩ going

end

/-- Whatever was in the segment, the child prints a prefix of the message at any time and all
of it in the end, in every order of steps; until both have ended one of them has a next step,
and each run to that end has the same length. -/
theorem message_handed_over (message : Text) (garbage : Nat → UInt8) (acts : List Role) (σ : Sys)
    (run : Run (Step message.bytes) (start garbage) acts σ) :
    (σ.output <+: message.bytes ∧ (σ.child = .done → σ.output = message.bytes)) ∧
    acts.length + σ.work message = shmSize + message.bytes.length + 5 ∧
    (¬ (σ.parent = .done ∧ σ.child = .done) →
      ∃ r, (σ.step message.bytes r).isSome = true) := by
  have both : Handed message σ ∧
      acts.length + σ.work message = shmSize + message.bytes.length + 5 := by
    induction run with
    | nil =>
      refine ⟨start_handed garbage, ?_⟩
      simp only [Sys.work, start, Parent.work, Child.work, List.length_nil]
      omega
    | snoc _ step ih =>
      obtain ⟨H, length⟩ := ih
      have less := H.work step
      refine ⟨H.step step, ?_⟩
      rw [List.length_append, List.length_singleton]
      omega
  obtain ⟨H, length⟩ := both
  refine ⟨⟨?_, fun done => ?_⟩, length, H.steps⟩
  · rw [H.output]
    exact List.take_prefix _ _
  · rw [H.output, done, Child.printed, List.take_length]

/-- `Hello from parent!` -/
def hello : Text where
  bytes := [0x48, 0x65, 0x6c, 0x6c, 0x6f, 0x20, 0x66, 0x72, 0x6f, 0x6d, 0x20, 0x70, 0x61, 0x72,
    0x65, 0x6e, 0x74, 0x21]
  short := by decide
  clean := by decide

/-- The child finds the semaphore taken while the parent copies. -/
theorem hello_goes_on : ∃ σ,
    Run (Step hello.bytes) (start fun _ => 0xff) [.parent, .parent] σ ∧
    ∃ r, (σ.step hello.bytes r).isSome = true := by
  have ran : (execute (Sys.step hello.bytes) (start fun _ => 0xff) [.parent, .parent]).map
      (fun σ => σ.parent) = some (.copying 2) := by
    decide
  obtain ⟨σ, ret, pc⟩ := Option.map_eq_some_iff.mp ran
  have run : Run (Step hello.bytes) (start fun _ => 0xff) [.parent, .parent] σ :=
    execute_run (fun _ _ _ step => step) ret
  exact ⟨σ, run, (message_handed_over hello _ _ σ run).2.2 (by simp [pc])⟩

end LearnC.Process.SharedMemory
