import LearnC.Machine.Monitor

/-! `posix` of `8.thread_sem.c`, run by any number of programs at the same time: they share the
semaphore that has the name while they open it. -/

namespace LearnC.Process.NamedSemaphore

/-- Where a parent stands: before `sem_open`; before `fork`; before `sem_post`; before `wait`;
before `sem_unlink`; behind it. -/
inductive Parent where
  | opening
  | forking
  | working
  | waiting
  | unlinking
  | done
  deriving DecidableEq

/-- Where a child stands: before `fork`; before `sem_wait`; behind it. -/
inductive Child where
  | unborn
  | waiting
  | done
  deriving DecidableEq

/-- One run of the program, with the semaphore that `sem` points to. -/
structure Program where
  sem : Nat
  parent : Parent
  child : Child
  deriving DecidableEq

/-- The semaphore of the name, the values of all semaphores, how many there are, and the
programs. -/
structure Sys (I : Type) where
  name : Option Nat
  value : Nat → Nat
  fresh : Nat
  program : I → Program

inductive Role where
  | parent
  | child
  deriving DecidableEq

/-- What is in a semaphore at first. A killed run may have left one, with its value. -/
def before (left : Option Nat) (sem : Nat) : Nat := if sem = 0 then left.getD 0 else 0

/-- Nothing is opened. -/
def start {I : Type} (left : Option Nat) : Sys I where
  name := left.map fun _ => 0
  value := before left
  fresh := left.elim 0 fun _ => 1
  program := fun _ => ⟨0, .opening, .unborn⟩

section
variable {I : Type} [DecidableEq I]

namespace Sys

def go (σ : Sys I) (i : I) (p : Program) : Sys I :=
  { σ with program := Function.update σ.program i p }

def stepParent (σ : Sys I) (i : I) : Option (Sys I) :=
  let p := σ.program i
  match p.parent with
  | .opening =>
    match σ.name with
    | some sem => some (σ.go i { p with sem := sem, parent := .forking })
    | none => some { σ.go i { p with sem := σ.fresh, parent := .forking } with
        name := some σ.fresh
        value := Function.update σ.value σ.fresh 0
        fresh := σ.fresh + 1 }
  | .forking => some (σ.go i { p with parent := .working, child := .waiting })
  | .working => some { σ.go i { p with parent := .waiting } with
      value := Function.update σ.value p.sem (σ.value p.sem + 1) }
  | .waiting => if p.child = .done then some (σ.go i { p with parent := .unlinking }) else none
  | .unlinking => some { σ.go i { p with parent := .done } with name := none }
  | .done => none

def stepChild (σ : Sys I) (i : I) : Option (Sys I) :=
  let p := σ.program i
  match p.child with
  | .unborn => none
  | .waiting =>
    if 0 < σ.value p.sem then
      some { σ.go i { p with child := .done } with
        value := Function.update σ.value p.sem (σ.value p.sem - 1) }
    else none
  | .done => none

def step (σ : Sys I) : I × Role → Option (Sys I)
  | (i, .parent) => σ.stepParent i
  | (i, .child) => σ.stepChild i

end Sys

def Step (σ : Sys I) (a : I × Role) (σ' : Sys I) : Prop := σ.step a = some σ'

end

/-! ## Every post is for one child -/

/-- The parent has called `sem_post`. -/
def Parent.posted : Parent → Bool
  | .opening => false
  | .forking => false
  | .working => false
  | _ => true

/-- A program that has posted to a semaphore. -/
def Program.posts (sem : Nat) (p : Program) : Bool := decide (p.sem = sem) && p.parent.posted

/-- A program whose child has come through `sem_wait` of a semaphore. -/
def Program.passes (sem : Nat) (p : Program) : Bool :=
  decide (p.sem = sem) && decide (p.child = .done)

/-- What one program can look like. -/
structure Program.Sound (fresh : Nat) (p : Program) : Prop where
  opened : p.parent ≠ .opening → p.sem < fresh
  born : p.child = .unborn ↔ p.parent = .opening ∨ p.parent = .forking
  joined : p.parent = .unlinking ∨ p.parent = .done → p.child = .done

/-- A parent that has opened the semaphore and has not unlinked it. -/
def Parent.holds (p : Parent) : Prop := p ≠ .opening ∧ p ≠ .done

structure Shared {I : Type} [Fintype I] (left : Option Nat) (σ : Sys I) : Prop where
  sound : ∀ i, (σ.program i).Sound σ.fresh
  value : ∀ sem, σ.value sem + count (Program.passes sem) σ.program =
    before left sem + count (Program.posts sem) σ.program
  unused : ∀ sem, σ.fresh ≤ sem → before left sem = 0
  name : ∀ sem, σ.name = some sem → sem < σ.fresh
  named : σ.name ≠ none →
    (∀ i, (σ.program i).parent ≠ .done) ∨ ∃ i, (σ.program i).parent.holds

section
variable {I : Type} [Fintype I] {σ σ' : Sys I} {i : I} {a : I × Role} {left : Option Nat}
  {sem fresh : Nat} {p : Program}

theorem Program.Sound.grow (S : p.Sound sem) (le : sem ≤ fresh) : p.Sound fresh :=
  ⟨fun ne => Nat.lt_of_lt_of_le (S.opened ne) le, S.born, S.joined⟩

/-- Nobody has posted to a semaphore that is not there yet, and it is 0. -/
theorem Shared.value_fresh (S : Shared left σ) : σ.value σ.fresh = 0 := by
  have opening (j : I) (here : (σ.program j).sem = σ.fresh) : (σ.program j).parent = .opening := by
    by_contra ne
    exact Nat.lt_irrefl _ (here ▸ (S.sound j).opened ne)
  have posts : count (Program.posts σ.fresh) σ.program = 0 := by
    apply count_eq_zero.mpr
    intro j
    by_cases here : (σ.program j).sem = σ.fresh
    · simp [Program.posts, Parent.posted, opening j here]
    · simp [Program.posts, here]
  have value := S.value σ.fresh
  have unused := S.unused σ.fresh (Nat.le_refl _)
  omega

theorem start_shared (left : Option Nat) : Shared left (start (I := I) left) := by
  have none (sem : Nat) : count (Program.passes sem) (start (I := I) left).program = 0 ∧
      count (Program.posts sem) (start (I := I) left).program = 0 := by
    constructor <;> apply count_eq_zero.mpr <;> intro j <;>
      simp [start, Program.passes, Program.posts, Parent.posted]
  refine ⟨fun i => ⟨fun ne => absurd rfl ne, by simp [start], by simp [start]⟩, fun sem => ?_, ?_,
    ?_, fun _ => Or.inl fun i => by simp [start]⟩
  · rw [(none sem).1, (none sem).2]
    rfl
  · intro sem le
    cases left with
    | none => simp [before]
    | some v =>
      have pos : sem ≠ 0 := Nat.ne_of_gt le
      simp [before, pos]
  · intro sem name
    cases left with
    | none => cases name
    | some v =>
      cases name
      exact Nat.one_pos

variable [DecidableEq I]

/-- A program goes on. What it posts and passes goes into the values. -/
theorem Shared.go (S : Shared left σ) (program : σ'.program = Function.update σ.program i p)
    (sound : p.Sound σ'.fresh) (grows : σ.fresh ≤ σ'.fresh)
    (value : ∀ sem, σ'.value sem + (p.passes sem).toNat + ((σ.program i).posts sem).toNat =
      σ.value sem + ((σ.program i).passes sem).toNat + (p.posts sem).toNat)
    (name : ∀ sem, σ'.name = some sem → sem < σ'.fresh)
    (named : σ'.name = none ∨ p.parent.holds) : Shared left σ' := by
  refine ⟨fun j => ?_, fun sem => ?_, fun sem le => S.unused sem (Nat.le_trans grows le), name,
    fun ne => ?_⟩
  · rw [program]
    by_cases eq : j = i
    · subst eq
      rw [Function.update_self]
      exact sound
    · rw [Function.update_of_ne eq]
      exact (S.sound j).grow grows
  · have old := S.value sem
    have passes := count_step (p := Program.passes sem) (f := σ.program) (i := i) (x := p)
      (Nat.add_comm _ _)
    have posts := count_step (p := Program.posts sem) (f := σ.program) (i := i) (x := p)
      (Nat.add_comm _ _)
    have change := value sem
    rw [program]
    omega
  · refine Or.inr ⟨i, ?_⟩
    rw [program, Function.update_self]
    exact named.resolve_left ne

theorem Shared.parent (S : Shared left σ) (step : σ.stepParent i = some σ') : Shared left σ' := by
  have sound := S.sound i
  have name := S.name
  unfold Sys.stepParent at step
  generalize here : σ.program i = p at step sound
  obtain ⟨sem, parent, child⟩ := p
  simp only at step
  cases parent with
  | opening =>
    have unborn : child = .unborn := sound.born.mpr (Or.inl rfl)
    subst unborn
    cases named : σ.name with
    | some old =>
      rw [named] at step
      cases step
      refine S.go (i := i) rfl ⟨fun _ => name old named, by simp, by simp⟩ (Nat.le_refl _) ?_ name
        (Or.inr ⟨by simp, by simp⟩)
      intro sem
      simp [here, Sys.go, Program.passes, Program.posts, Parent.posted]
    | none =>
      rw [named] at step
      have same : Function.update σ.value σ.fresh 0 = σ.value :=
        Function.update_eq_self_iff.mpr S.value_fresh.symm
      cases step
      refine S.go (i := i) rfl ⟨fun _ => Nat.lt_succ_self _, by simp, by simp⟩ (Nat.le_succ _) ?_ ?_
        (Or.inr ⟨by simp, by simp⟩)
      · intro sem
        simp [here, same, Program.passes, Program.posts, Parent.posted]
      · intro sem eq
        cases eq
        exact Nat.lt_succ_self _
  | forking =>
    have unborn : child = .unborn := sound.born.mpr (Or.inr rfl)
    subst unborn
    cases step
    refine S.go (i := i) rfl ⟨fun _ => sound.opened (by simp), by simp, by simp⟩ (Nat.le_refl _) ?_
      name (Or.inr ⟨by simp, by simp⟩)
    intro sem
    simp [here, Sys.go, Program.passes, Program.posts, Parent.posted]
  | working =>
    have born : child ≠ .unborn := fun eq => by simpa using sound.born.mp eq
    cases step
    refine S.go (i := i) rfl ⟨fun _ => sound.opened (by simp), by simp [born], by simp⟩
      (Nat.le_refl _) ?_ name (Or.inr ⟨by simp, by simp⟩)
    intro other
    by_cases eq : other = sem
    · subst eq
      simp [here, Program.passes, Program.posts, Parent.posted]
      omega
    · simp [here, Program.passes, Program.posts, Ne.symm eq, Function.update_of_ne eq]
  | waiting =>
    obtain ⟨done, step⟩ := Option.ite_none_right_eq_some.mp step
    cases step
    refine S.go (i := i) rfl ⟨fun _ => sound.opened (by simp), by simp [done], fun _ => done⟩
      (Nat.le_refl _) ?_ name (Or.inr ⟨by simp, by simp⟩)
    intro sem
    simp [here, Sys.go, Program.passes, Program.posts, Parent.posted]
  | unlinking =>
    have done := sound.joined (Or.inl rfl)
    cases step
    refine S.go (i := i) rfl ⟨fun _ => sound.opened (by simp), ?_, fun _ => done⟩ (Nat.le_refl _) ?_
      (by simp) (Or.inl rfl)
    · simp only at done
      simp [done]
    · intro sem
      simp [here, Sys.go, Program.passes, Program.posts, Parent.posted]
  | done => cases step

theorem Shared.child (S : Shared left σ) (step : σ.stepChild i = some σ') : Shared left σ' := by
  have sound := S.sound i
  have name := S.name
  unfold Sys.stepChild at step
  generalize here : σ.program i = p at step sound
  obtain ⟨sem, parent, child⟩ := p
  simp only at step
  cases child with
  | unborn => cases step
  | waiting =>
    obtain ⟨pos, step⟩ := Option.ite_none_right_eq_some.mp step
    have born : ¬ (parent = .opening ∨ parent = .forking) := fun eq => by
      simpa using sound.born.mpr eq
    have holds : parent.holds := by
      refine ⟨fun eq => born (Or.inl eq), fun eq => ?_⟩
      simpa using sound.joined (Or.inr eq)
    cases step
    refine S.go (i := i) rfl ⟨sound.opened, ?_, fun _ => rfl⟩ (Nat.le_refl _) ?_ name (Or.inr holds)
    · simpa using born
    · intro other
      by_cases eq : other = sem
      · subst eq
        simp [here, Program.passes, Program.posts]
        omega
      · simp [here, Program.passes, Program.posts, Ne.symm eq, Function.update_of_ne eq]
  | done => cases step

theorem Shared.step (S : Shared left σ) (step : Step σ a σ') : Shared left σ' := by
  obtain ⟨i, role⟩ := a
  cases role with
  | parent => exact S.parent step
  | child => exact S.child step

end

/-! ## Every program ends -/

def Parent.work : Parent → Nat
  | .opening => 5
  | .forking => 4
  | .working => 3
  | .waiting => 2
  | .unlinking => 1
  | .done => 0

def Program.work (p : Program) : Nat := p.parent.work + if p.child = .done then 0 else 1

section
variable {I : Type} [Fintype I]

def Sys.work (σ : Sys I) : Nat := total Program.work σ.program

variable {σ σ' : Sys I} {a : I × Role} {left : Option Nat}

/-- While every parent that has not ended waits, a child that is not through finds a post. -/
theorem Shared.wakes (S : Shared left σ) {i : I} (posted : ∀ j, (σ.program j).parent.posted = true)
    (waiting : (σ.program i).child = .waiting) : 0 < σ.value (σ.program i).sem := by
  have fewer : count (Program.passes (σ.program i).sem) σ.program <
      count (Program.posts (σ.program i).sem) σ.program := by
    apply total_lt (i := i)
    · intro j
      simp only [Program.passes, Program.posts, posted j, Bool.and_true]
      by_cases here : (σ.program j).sem = (σ.program i).sem
      · simp only [here, decide_true, Bool.true_and, Bool.toNat_true]
        exact Bool.toNat_le _
      · simp [here]
    · simp [Program.passes, Program.posts, posted i, waiting]
  have value := S.value (σ.program i).sem
  omega

theorem Shared.ended (S : Shared left σ) (all : ∀ i, (σ.program i).parent = .done) :
    (∀ sem, σ.value sem = before left sem) ∧ (Nonempty I → σ.name = none) := by
  refine ⟨fun sem => ?_, fun ⟨i⟩ => ?_⟩
  · have same : count (Program.passes sem) σ.program = count (Program.posts sem) σ.program := by
      apply total_congr
      intro i
      have done := (S.sound i).joined (Or.inr (all i))
      simp [Program.passes, Program.posts, done, all i, Parent.posted]
    have value := S.value sem
    omega
  · by_contra ne
    rcases S.named ne with going | ⟨j, holds⟩
    · exact going i (all i)
    · exact holds.2 (all j)

variable [DecidableEq I]

/-- A step of a program is one of those that were left to it. -/
theorem work_step (S : Shared left σ) (step : Step σ a σ') : σ'.work + 1 = σ.work := by
  obtain ⟨i, role⟩ := a
  have sound := S.sound i
  suffices moved : ∃ p, σ'.program = Function.update σ.program i p ∧
      p.work + 1 = (σ.program i).work + 0 by
    obtain ⟨p, eq, less⟩ := moved
    rw [Sys.work, eq]
    exact total_step less
  generalize here : σ.program i = p at sound
  obtain ⟨sem, parent, child⟩ := p
  cases role with
  | parent =>
    simp only [Step, Sys.step, Sys.stepParent, here] at step
    cases parent with
    | opening =>
      have unborn : child = .unborn := sound.born.mpr (Or.inl rfl)
      subst unborn
      cases named : σ.name <;> rw [named] at step <;> cases step <;> exact ⟨_, rfl, rfl⟩
    | forking =>
      have unborn : child = .unborn := sound.born.mpr (Or.inr rfl)
      subst unborn
      cases step
      exact ⟨_, rfl, rfl⟩
    | working =>
      cases step
      refine ⟨_, rfl, ?_⟩
      simp only [Program.work, Parent.work]
      omega
    | waiting =>
      obtain ⟨_, step⟩ := Option.ite_none_right_eq_some.mp step
      cases step
      refine ⟨_, rfl, ?_⟩
      simp only [Program.work, Parent.work]
      omega
    | unlinking =>
      cases step
      refine ⟨_, rfl, ?_⟩
      simp only [Program.work, Parent.work]
      omega
    | done => cases step
  | child =>
    simp only [Step, Sys.step, Sys.stepChild, here] at step
    cases child with
    | unborn => cases step
    | waiting =>
      obtain ⟨_, step⟩ := Option.ite_none_right_eq_some.mp step
      cases step
      exact ⟨_, rfl, rfl⟩
    | done => cases step

theorem Shared.steps (S : Shared left σ) (going : ∃ i, (σ.program i).parent ≠ .done) :
    ∃ a, (σ.step a).isSome = true := by
  by_cases all : ∀ j, (σ.program j).parent = .waiting ∨ (σ.program j).parent = .done
  · obtain ⟨i, more⟩ := going
    have waits : (σ.program i).parent = .waiting := (all i).resolve_right more
    cases child : (σ.program i).child with
    | unborn =>
      have born := (S.sound i).born.mp child
      simp [waits] at born
    | waiting =>
      have posted (j : I) : (σ.program j).parent.posted = true := by
        rcases all j with eq | eq <;> rw [eq] <;> rfl
      have pos := S.wakes posted child
      exact ⟨(i, .child), by simp [Sys.step, Sys.stepChild, child, pos]⟩
    | done => exact ⟨(i, .parent), by simp [Sys.step, Sys.stepParent, waits, child]⟩
  · obtain ⟨j, busy⟩ := not_forall.mp all
    rw [not_or] at busy
    refine ⟨(j, .parent), ?_⟩
    simp only [Sys.step, Sys.stepParent]
    cases parent : (σ.program j).parent with
    | opening =>
      simp only []
      split <;> rfl
    | forking | working | unlinking => rfl
    | waiting => exact absurd parent busy.1
    | done => exact absurd parent busy.2

/-- However many programs run at the same time, and in every order of their steps, the children
come through a semaphore at most as often as parents have posted to it, but for what was in it
before; no program hangs, and behind the last one nothing more is in a semaphore than before, and
the name is gone. -/
theorem posts_passed (left : Option Nat) (acts : List (I × Role)) (σ : Sys I)
    (run : Run Step (start left) acts σ) :
    (∀ sem, σ.value sem + count (Program.passes sem) σ.program =
      before left sem + count (Program.posts sem) σ.program) ∧
    acts.length + σ.work = Fintype.card I * 6 ∧
    ((∃ i, (σ.program i).parent ≠ .done) → ∃ a, (σ.step a).isSome = true) ∧
    ((∀ i, (σ.program i).parent = .done) →
      (∀ sem, σ.value sem = before left sem) ∧ (Nonempty I → σ.name = none)) := by
  have both : Shared left σ ∧ acts.length + σ.work = Fintype.card I * 6 := by
    induction run with
    | nil =>
      refine ⟨start_shared left, ?_⟩
      simp [Sys.work, start, total, Program.work, Parent.work]
    | snoc _ step ih =>
      obtain ⟨S, length⟩ := ih
      have less := work_step S step
      refine ⟨S.step step, ?_⟩
      rw [List.length_append, List.length_singleton]
      omega
  exact ⟨both.1.value, both.2, both.1.steps, both.1.ended⟩

end

/-- A killed run has left its post: the child of the next one does not wait for its parent. -/
theorem left_post_passed : ∃ σ : Sys (Fin 2),
    Run Step (start (some 1)) [(0, .parent), (0, .parent), (0, .child)] σ ∧
    (σ.program 0).child = .done ∧ (σ.program 0).parent = .working ∧
    ∃ a, (σ.step a).isSome = true := by
  have ran : (execute Sys.step (start (I := Fin 2) (some 1))
      [(0, .parent), (0, .parent), (0, .child)]).map (fun σ => σ.program 0) =
        some ⟨0, .working, .done⟩ := by
    decide
  obtain ⟨σ, ret, program⟩ := Option.map_eq_some_iff.mp ran
  have run : Run Step (start (I := Fin 2) (some 1)) [(0, .parent), (0, .parent), (0, .child)] σ :=
    execute_run (fun _ _ _ step => step) ret
  exact ⟨σ, run, by rw [program], by rw [program],
    (posts_passed (some 1) _ σ run).2.2.1 ⟨0, by simp [program]⟩⟩

end LearnC.Process.NamedSemaphore
