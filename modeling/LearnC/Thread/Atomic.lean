import LearnC.Machine.Monitor

/-! `libc_demo/demo.c`: threads that count, threads that set a flag, and threads that exchange a
pointer, each group joined before the next one is created. -/

namespace LearnC.Thread.Atomic

/-- Which threads `main` is about to join. -/
inductive Phase where
  | counting
  | flagging
  | exchanging
  | done
  deriving DecidableEq

/-- What a thread of the last group prints: the pointer it found, and the one it left. -/
abbrev Change := BitVec 64 × BitVec 64

/-- The shared variables; for each thread how often it will still add, what the comparison
returned to it, and its exchange; and what `main` has printed. -/
structure Sys (T : Type) where
  phase : Phase
  counter : BitVec 32
  flag : Bool
  sharedPtr : BitVec 64
  left : T → Nat
  isFirst : T → Option Bool
  changed : T → Option Change
  printed : Option (BitVec 32)

section
variable {T : Type} [Fintype T] [DecidableEq T]

namespace Sys

/-- `increment_counter`. -/
def incrementCounter (σ : Sys T) (t : T) : Option (Sys T) :=
  match σ.left t with
  | 0 => none
  | left + 1 => some { σ with
      counter := σ.counter + 1
      left := Function.update σ.left t left }

/-- `set_flag_once`. -/
def setFlagOnce (σ : Sys T) (t : T) : Option (Sys T) :=
  match σ.isFirst t with
  | some _ => none
  | none =>
    if σ.flag = false then
      some { σ with flag := true, isFirst := Function.update σ.isFirst t (some true) }
    else some { σ with isFirst := Function.update σ.isFirst t (some false) }

/-- `exchange_pointer`. -/
def exchangePointer (arg : T → BitVec 64) (σ : Sys T) (t : T) : Option (Sys T) :=
  match σ.changed t with
  | some _ => none
  | none => some { σ with
      sharedPtr := arg t
      changed := Function.update σ.changed t (some (σ.sharedPtr, arg t)) }

/-- `main` behind the last `pthread_join` of a group. -/
def join (σ : Sys T) : Option (Sys T) :=
  match σ.phase with
  | .counting =>
    if ∀ t, σ.left t = 0 then
      some { σ with phase := .flagging, printed := some σ.counter }
    else none
  | .flagging =>
    if ∀ t, (σ.isFirst t).isSome = true then some { σ with phase := .exchanging } else none
  | .exchanging =>
    if ∀ t, (σ.changed t).isSome = true then some { σ with phase := .done } else none
  | .done => none

/-- The next step of a thread, or of `main`. -/
def step (arg : T → BitVec 64) (σ : Sys T) : Option T → Option (Sys T)
  | none => σ.join
  | some t =>
    match σ.phase with
    | .counting => σ.incrementCounter t
    | .flagging => σ.setFlagOnce t
    | .exchanging => σ.exchangePointer arg t
    | .done => none

end Sys

def Step (arg : T → BitVec 64) (σ : Sys T) (a : Option T) (σ' : Sys T) : Prop :=
  σ.step arg a = some σ'

def start (rounds : Nat) : Sys T where
  phase := .counting
  counter := 0
  flag := false
  sharedPtr := 0
  left := fun _ => rounds
  isFirst := fun _ => none
  changed := fun _ => none
  printed := none

/-! ## No addition, no pointer is lost -/

def Finds (v : BitVec 64) (c : Option Change) : Bool := c.any fun c => c.1 = v
def Leaves (v : BitVec 64) (c : Option Change) : Bool := c.any fun c => c.2 = v

/-- Every pointer that was put there is found by one thread, or is there. -/
def Handed (σ : Sys T) : Prop :=
  ∀ v, count (Finds v) σ.changed + (decide (σ.sharedPtr = v)).toNat =
    (decide (0 = v)).toNat + count (Leaves v) σ.changed

structure Exact (rounds : Nat) (arg : T → BitVec 64) (σ : Sys T) : Prop where
  counted : σ.counter + BitVec.ofNat 32 (total id σ.left) =
    BitVec.ofNat 32 (Fintype.card T * rounds)
  seen : ∀ t b, σ.isFirst t = some b → ∃ u, σ.isFirst u = some true
  flag : σ.flag = true ↔ ∃ u, σ.isFirst u = some true
  one : ∀ t u, σ.isFirst t = some true → σ.isFirst u = some true → t = u
  handed : Handed σ
  own : ∀ t c, σ.changed t = some c → c.2 = arg t
  printed : σ.phase ≠ .counting →
    σ.printed = some (BitVec.ofNat 32 (Fintype.card T * rounds)) ∧ ∀ t, σ.left t = 0
  flagged : σ.phase = .exchanging ∨ σ.phase = .done → ∀ t, (σ.isFirst t).isSome = true
  exchanged : σ.phase = .done → ∀ t, (σ.changed t).isSome = true

end

section
variable {T : Type} [Fintype T] {arg : T → BitVec 64} {σ σ' : Sys T} {t : T} {rounds : Nat}
  {a : Option T}

theorem Exact.join (E : Exact rounds arg σ) (step : σ.join = some σ') : Exact rounds arg σ' := by
  have printed := E.printed
  unfold Sys.join at step
  split at step
  · next phase =>
    obtain ⟨all, step⟩ := Option.ite_none_right_eq_some.mp step
    cases step
    have none : total id σ.left = 0 := total_eq_zero.mpr all
    have counted := E.counted
    rw [none, BitVec.add_zero] at counted
    exact ⟨E.counted, E.seen, E.flag, E.one, E.handed, E.own, fun _ => ⟨by rw [counted], all⟩,
      by simp, by simp⟩
  · next phase =>
    obtain ⟨all, step⟩ := Option.ite_none_right_eq_some.mp step
    cases step
    exact ⟨E.counted, E.seen, E.flag, E.one, E.handed, E.own, fun _ => printed (by simp [phase]),
      fun _ => all, by simp⟩
  · next phase =>
    obtain ⟨all, step⟩ := Option.ite_none_right_eq_some.mp step
    cases step
    exact ⟨E.counted, E.seen, E.flag, E.one, E.handed, E.own, fun _ => printed (by simp [phase]),
      fun _ => E.flagged (Or.inl phase), fun _ => all⟩
  · cases step

theorem start_exact (rounds : Nat) (arg : T → BitVec 64) : Exact rounds arg (start rounds) := by
  have none (v : BitVec 64) : count (Finds v) (fun _ : T => none) = 0 ∧
      count (Leaves v) (fun _ : T => none) = 0 :=
    ⟨count_eq_zero.mpr fun _ => rfl, count_eq_zero.mpr fun _ => rfl⟩
  constructor
  case handed =>
    intro v
    simp only [start, none v]
    exact Nat.zero_add _
  all_goals simp [start, total]

variable [DecidableEq T]

theorem Exact.increment (E : Exact rounds arg σ) (phase : σ.phase = .counting)
    (step : σ.incrementCounter t = some σ') : Exact rounds arg σ' := by
  unfold Sys.incrementCounter at step
  split at step
  · cases step
  · next left more =>
    cases step
    have moved : total id (Function.update σ.left t left) + 1 = total id σ.left :=
      total_step (b := 0) (by simp [more])
    have counted := E.counted
    rw [← moved] at counted
    refine ⟨?_, E.seen, E.flag, E.one, E.handed, E.own, fun ne => absurd phase ne,
      E.flagged, E.exchanged⟩
    rw [← counted, BitVec.ofNat_add, BitVec.add_assoc, BitVec.add_comm 1]
    rfl

theorem Exact.setFlag (E : Exact rounds arg σ) (phase : σ.phase = .flagging)
    (step : σ.setFlagOnce t = some σ') : Exact rounds arg σ' := by
  have printed := E.printed
  unfold Sys.setFlagOnce at step
  split at step
  · cases step
  · next fresh =>
    split at step
    · next clear =>
      have nobody (u : T) : σ.isFirst u ≠ some true := fun first => by
        rw [E.flag.mpr ⟨u, first⟩] at clear
        cases clear
      cases step
      have first (u : T) (eq : Function.update σ.isFirst t (some true) u = some true) : u = t := by
        by_contra ne
        rw [Function.update_of_ne ne] at eq
        exact nobody u eq
      have here : ∃ u, Function.update σ.isFirst t (some true) u = some true :=
        ⟨t, Function.update_self ..⟩
      refine ⟨E.counted, fun _ _ _ => here, iff_of_true rfl here, ?_, E.handed, E.own, printed,
        by simp [phase], by simp [phase]⟩
      intro u v hu hv
      rw [first u hu, first v hv]
    · next set =>
      have flag : σ.flag = true := by simpa using set
      obtain ⟨u, first⟩ := E.flag.mp flag
      have ne : u ≠ t := fun eq => by simp [← eq, first] at fresh
      have keep (v : T) : Function.update σ.isFirst t (some false) v = some true ↔
          σ.isFirst v = some true := by
        by_cases eq : v = t
        · subst eq
          simp [fresh]
        · rw [Function.update_of_ne eq]
      cases step
      refine ⟨E.counted, fun _ _ _ => ⟨u, (keep u).mpr first⟩,
        iff_of_true flag ⟨u, (keep u).mpr first⟩, ?_, E.handed, E.own, printed, by simp [phase],
        by simp [phase]⟩
      exact fun v w hv hw => E.one v w ((keep v).mp hv) ((keep w).mp hw)

theorem Exact.exchange (E : Exact rounds arg σ) (phase : σ.phase = .exchanging)
    (step : σ.exchangePointer arg t = some σ') : Exact rounds arg σ' := by
  unfold Sys.exchangePointer at step
  split at step
  · cases step
  · next fresh =>
    cases step
    refine ⟨E.counted, E.seen, E.flag, E.one, fun v => ?_, fun u c changed => ?_, E.printed,
      E.flagged, by simp [phase]⟩
    · have before := E.handed v
      have found := count_step (p := Finds v) (f := σ.changed) (i := t)
        (x := some (σ.sharedPtr, arg t)) (a := 0) (b := (decide (σ.sharedPtr = v)).toNat)
        (by simp [Finds, fresh])
      have left := count_step (p := Leaves v) (f := σ.changed) (i := t)
        (x := some (σ.sharedPtr, arg t)) (a := 0) (b := (decide (arg t = v)).toNat)
        (by simp [Leaves, fresh])
      dsimp only
      omega
    · dsimp only at changed
      by_cases eq : u = t
      · subst eq
        rw [Function.update_self] at changed
        cases changed
        rfl
      · rw [Function.update_of_ne eq] at changed
        exact E.own u c changed

theorem Exact.step (E : Exact rounds arg σ) (step : Step arg σ a σ') : Exact rounds arg σ' := by
  cases a with
  | none => exact E.join step
  | some t =>
    simp only [Step, Sys.step] at step
    split at step
    · next phase => exact E.increment phase step
    · next phase => exact E.setFlag phase step
    · next phase => exact E.exchange phase step
    · cases step

/-! ## Every group is joined -/

def Phase.joins : Phase → Nat
  | .counting => 3
  | .flagging => 2
  | .exchanging => 1
  | .done => 0

def Sys.work (σ : Sys T) : Nat :=
  total id σ.left + count Option.isNone σ.isFirst + count Option.isNone σ.changed + σ.phase.joins

theorem work_step (step : Step arg σ a σ') : σ'.work + 1 = σ.work := by
  cases a with
  | none =>
    simp only [Step, Sys.step, Sys.join] at step
    split at step <;>
      first
      | cases step
      | (next phase =>
          obtain ⟨_, step⟩ := Option.ite_none_right_eq_some.mp step
          cases step
          simp only [Sys.work, phase, Phase.joins])
  | some t =>
    simp only [Step, Sys.step] at step
    split at step
    · unfold Sys.incrementCounter at step
      split at step
      · cases step
      · next left more =>
        cases step
        have moved := total_step (g := id) (f := σ.left) (i := t) (x := left) (a := 1) (b := 0)
          (by simp [more])
        simp only [Sys.work]
        omega
    · unfold Sys.setFlagOnce at step
      split at step
      · cases step
      · next fresh =>
        have moved (b : Bool) := count_step (p := Option.isNone) (f := σ.isFirst) (i := t)
          (x := some b) (a := 1) (b := 0) (by simp [fresh])
        split at step
        · have one := moved true
          cases step
          simp only [Sys.work]
          omega
        · have one := moved false
          cases step
          simp only [Sys.work]
          omega
    · unfold Sys.exchangePointer at step
      split at step
      · cases step
      · next fresh =>
        cases step
        have moved := count_step (p := Option.isNone) (f := σ.changed) (i := t)
          (x := some (σ.sharedPtr, arg t)) (a := 1) (b := 0) (by simp [fresh])
        simp only [Sys.work]
        omega
    · cases step

theorem steps (arg : T → BitVec 64) (going : σ.phase ≠ .done) :
    ∃ a, (σ.step arg a).isSome = true := by
  cases phase : σ.phase with
  | counting =>
    by_cases all : ∀ t, σ.left t = 0
    · exact ⟨none, by simp [Sys.step, Sys.join, phase, all]⟩
    · obtain ⟨t, more⟩ := not_forall.mp all
      obtain ⟨left, eq⟩ := Nat.exists_eq_succ_of_ne_zero more
      exact ⟨some t, by simp [Sys.step, phase, Sys.incrementCounter, eq]⟩
  | flagging =>
    by_cases all : ∀ t, (σ.isFirst t).isSome = true
    · exact ⟨none, by simp [Sys.step, Sys.join, phase, all]⟩
    · obtain ⟨t, fresh⟩ := not_forall.mp all
      refine ⟨some t, ?_⟩
      simp only [Option.not_isSome_iff_eq_none] at fresh
      simp only [Sys.step, phase, Sys.setFlagOnce, fresh]
      split <;> rfl
  | exchanging =>
    by_cases all : ∀ t, (σ.changed t).isSome = true
    · exact ⟨none, by simp [Sys.step, Sys.join, phase, all]⟩
    · obtain ⟨t, fresh⟩ := not_forall.mp all
      simp only [Option.not_isSome_iff_eq_none] at fresh
      exact ⟨some t, by simp [Sys.step, phase, Sys.exchangePointer, fresh]⟩
  | done => exact absurd phase going

omit [DecidableEq T] in
theorem work_done (E : Exact rounds arg σ) (done : σ.phase = .done) : σ.work = 0 := by
  have added : total id σ.left = 0 := total_eq_zero.mpr (E.printed (by simp [done])).2
  have compared : count Option.isNone σ.isFirst = 0 :=
    count_eq_zero.mpr fun t => by simpa using E.flagged (.inr done) t
  have exchanged : count Option.isNone σ.changed = 0 :=
    count_eq_zero.mpr fun t => by simpa using E.exchanged done t
  rw [Sys.work, added, compared, exchanged, done]
  rfl

/-- In every order of steps: `main` prints the sum of all additions, exactly one thread sets the
flag, every pointer that was stored is found by one thread or is left, and the program ends, each
time after the same number of steps. -/
theorem nothing_lost (rounds : Nat) (arg : T → BitVec 64) (acts : List (Option T)) (σ : Sys T)
    (run : Run (Step arg) (start rounds) acts σ) :
    (σ.phase ≠ .counting → σ.printed = some (BitVec.ofNat 32 (Fintype.card T * rounds))) ∧
    (σ.phase = .exchanging ∨ σ.phase = .done → Nonempty T → ∃! t, σ.isFirst t = some true) ∧
    Handed σ ∧ (∀ t c, σ.changed t = some c → c.2 = arg t) ∧
    acts.length + σ.work = Fintype.card T * (rounds + 2) + 3 ∧
    (σ.phase ≠ .done → ∃ a, (σ.step arg a).isSome = true) ∧
    (σ.phase = .done → σ.work = 0) := by
  have E : Exact rounds arg σ :=
    run.invariant (start_exact rounds arg) fun _ _ _ E step => E.step step
  refine ⟨fun later => (E.printed later).1, fun later ⟨t⟩ => ?_, E.handed, E.own, ?_, steps arg,
    work_done E⟩
  · obtain ⟨b, set⟩ := Option.isSome_iff_exists.mp (E.flagged later t)
    obtain ⟨u, first⟩ := E.seen t b set
    exact ⟨u, first, fun v second => E.one v u second first⟩
  · clear E
    induction run with
    | nil =>
      simp [Sys.work, start, total, count, Phase.joins, Nat.mul_add, Nat.mul_two, Nat.add_assoc]
    | snoc _ step ih =>
      have less := work_step step
      rw [List.length_append, List.length_singleton]
      omega

end

/-- The second argument of the third `pthread_create`. -/
def args (t : Fin 4) : BitVec 64 := BitVec.ofNat 64 (t.val + 100)

/-- Each thread has added once when `main` prints. -/
theorem four_threads : ∃ σ : Sys (Fin 4),
    Run (Step args) (start 1) [some 1, some 3, some 0, some 2, none] σ ∧
    σ.printed = some 4 ∧ Handed σ := by
  have ran : (execute (Sys.step args) (start 1) [some 1, some 3, some 0, some 2, none]).map
      (fun σ => σ.phase) = some .flagging := by
    decide
  obtain ⟨σ, ret, phase⟩ := Option.map_eq_some_iff.mp ran
  have run : Run (Step args) (start 1) [some 1, some 3, some 0, some 2, none] σ :=
    execute_run (fun _ _ _ step => step) ret
  obtain ⟨printed, _, handed, _⟩ := nothing_lost 1 _ _ σ run
  exact ⟨σ, run, printed (by simp [phase]), handed⟩

end LearnC.Thread.Atomic
