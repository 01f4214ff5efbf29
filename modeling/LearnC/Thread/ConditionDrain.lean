import LearnC.Thread.Condition

/-! The consumers of `3.cond` use up what the producers have made, and then all of them wait. -/

namespace LearnC.Thread.Condition

/-- How far a consumer is from its next wait, when nothing is left. -/
def Consumer.rank : Consumer → Nat
  | .blocked => 0
  | .waits => 1
  | .passed => 1
  | .locked => 2
  | .top => 3
  | .woken => 3
  | .consumed => 4

/-- How far a producer is from the end of its round, with what its product and its signal
give the consumers to do. -/
def Producer.rank : Producer → Nat
  | .top => 0
  | .notified => 1
  | .produced => 5
  | .locked => 12

section
variable {m n : Nat}

def Sys.work (σ : Sys m n) : Nat :=
  6 * σ.shareVariable.toNat + total Consumer.rank σ.consumer + total Producer.rank σ.producer

/-- Neither does a producer begin a round nor does a consumer wake up by itself. -/
def Settles (σ : Sys m n) : Act m n → Bool
  | .wake _ => false
  | .producer p => σ.producer p ≠ .top
  | _ => true

/-- Every consumer waits, and everything that was made has been used. -/
structure Idle (σ : Sys m n) : Prop where
  producers : ∀ p, σ.producer p = .top
  consumers : ∀ c, σ.consumer c = .blocked
  empty : σ.shareVariable = 0
  used : σ.used = σ.made

/-- A producer is about to count beyond the largest `int`. -/
def Overflows (σ : Sys m n) : Prop :=
  ∃ p, σ.producer p = .locked ∧ ¬ Fits 32 (σ.shareVariable + 1)

variable {σ σ' : Sys m n}

theorem rank_goC (c : Fin m) (pc : Consumer) :
    total Consumer.rank (σ.goC c pc).consumer + (σ.consumer c).rank =
      total Consumer.rank σ.consumer + pc.rank :=
  total_update c pc

theorem rank_goP (p : Fin n) (pc : Producer) :
    total Producer.rank (σ.goP p pc).producer + (σ.producer p).rank =
      total Producer.rank σ.producer + pc.rank :=
  total_update p pc

theorem goC_work {c : Fin m} {pc : Consumer} (pcs : σ'.consumer = (σ.goC c pc).consumer)
    (producer : σ'.producer = σ.producer) (share : σ'.shareVariable = σ.shareVariable)
    (lt : pc.rank < (σ.consumer c).rank) : σ'.work < σ.work := by
  have moved := rank_goC (σ := σ) c pc
  rw [Sys.work, Sys.work, pcs, producer, share]
  omega

theorem goP_work {p : Fin n} {pc : Producer} (pcs : σ'.producer = (σ.goP p pc).producer)
    (consumer : σ'.consumer = σ.consumer) (share : σ'.shareVariable = σ.shareVariable)
    (lt : pc.rank < (σ.producer p).rank) : σ'.work < σ.work := by
  have moved := rank_goP (σ := σ) p pc
  rw [Sys.work, Sys.work, pcs, consumer, share]
  omega

theorem step_work {act : Act m n} (S : Seen σ) (own : Settles σ act = true)
    (step : Step σ act σ') : σ'.work < σ.work := by
  have nonneg := S.nonneg
  cases step_move step with
  | lockC pc _ =>
    refine goC_work rfl rfl rfl ?_
    rcases pc with pc | pc <;> simp [pc, Consumer.rank]
  | waits pc _ | passes pc _ | wait pc | unlockC pc =>
    exact goC_work rfl rfl rfl (by simp [pc, Consumer.rank])
  | @consume c pc =>
    have moved := rank_goC (σ := σ) c .consumed
    have some := S.passed c pc
    simp only [pc, Consumer.rank] at moved
    simp only [Sys.work, Sys.goC] at moved ⊢
    omega
  | wake _ => cases own
  | lockP pc _ => simp [Settles, pc] at own
  | @produce p pc _ =>
    have moved := rank_goP (σ := σ) p .produced
    simp only [pc, Producer.rank] at moved
    simp only [Sys.work, Sys.goP] at moved ⊢
    omega
  | @signal p c pc blocked =>
    have woken := rank_goC (σ := σ) c .woken
    have moved := rank_goP (σ := σ.goC c .woken) p .notified
    have same : (σ.goC c .woken).producer p = .produced := pc
    simp only [blocked, Consumer.rank] at woken
    simp only [same, Producer.rank] at moved
    simp only [Sys.work, Sys.goC, Sys.goP] at moved woken ⊢
    omega
  | unheard pc _ | unlockP pc => exact goP_work rfl rfl rfl (by simp [pc, Producer.rank])

/-! ## There is a next step -/

theorem holder_steps {o : Owner m n} (held : σ.holds o) (S : Seen σ)
    (fits : Fits 32 σ.shareVariable) (ok : ¬ Overflows σ) :
    ∃ act, Settles σ act = true ∧ (σ.step act).isSome = true := by
  cases o with
  | inl c =>
    simp only [Sys.holds] at held
    refine ⟨.consumer c, rfl, ?_⟩
    cases pc : σ.consumer c with
    | locked | waits | consumed => simp [Sys.step, Sys.consume, pc]
    | passed =>
      have less : Fits 32 (σ.shareVariable - 1) := by
        have some := S.passed c pc
        have nonneg := S.nonneg
        rw [fits_int] at fits ⊢
        omega
      simp [Sys.step, Sys.consume, pc, checked, less]
    | top | blocked | woken =>
      rw [pc] at held
      cases held
  | inr p =>
    simp only [Sys.holds] at held
    cases pc : σ.producer p with
    | locked =>
      have more : Fits 32 (σ.shareVariable + 1) := by
        by_contra no
        exact ok ⟨p, pc, no⟩
      exact ⟨.producer p, by simp [Settles, pc], by simp [Sys.step, Sys.produce, pc, checked, more]⟩
    | produced =>
      by_cases waiting : ∃ c, σ.consumer c = .blocked
      · obtain ⟨c, blocked⟩ := waiting
        exact ⟨.signal p (some c), rfl, by
          simp [Sys.step, Sys.signal, pc, isBlocked_iff.mpr blocked]⟩
      · have nobody : ∀ c, (σ.consumer c).isBlocked = false := fun c =>
          Bool.eq_false_iff.mpr fun blocked => waiting ⟨c, isBlocked_iff.mp blocked⟩
        exact ⟨.signal p none, rfl, by simp [Sys.step, Sys.signal, pc, nobody]⟩
    | notified => exact ⟨.producer p, by simp [Settles, pc], by simp [Sys.step, Sys.produce, pc]⟩
    | top =>
      rw [pc] at held
      cases held

/-- Where everybody is outside and every consumer waits, nothing is left. -/
theorem idle_of_blocked (some : 0 < m) (S : Seen σ) (heard : Monitor.Heard σ.monitor)
    (producers : ∀ p, σ.producer p = .top) (consumers : ∀ c, σ.consumer c = .blocked) :
    Idle σ := by
  have waiting : 0 < count Consumer.isBlocked σ.consumer :=
    count_pos.mpr ⟨⟨0, some⟩, by rw [consumers]; rfl⟩
  have le : σ.shareVariable.toNat ≤
      count Consumer.isAwake σ.consumer + count Producer.isNotifying σ.producer :=
    heard (Nat.pos_iff_ne_zero.mp waiting)
  have awake : count Consumer.isAwake σ.consumer = 0 :=
    count_eq_zero.mpr fun c => by rw [consumers]; rfl
  have notifying : count Producer.isNotifying σ.producer = 0 :=
    count_eq_zero.mpr fun p => by rw [producers]; rfl
  have balance := S.balance
  have nonneg := S.nonneg
  exact ⟨producers, consumers, by omega, by omega⟩

theorem settling_steps (some : 0 < m) (C : Control σ) (heard : Monitor.Heard σ.monitor)
    (fits : Fits 32 σ.shareVariable) (ok : ¬ Overflows σ) :
    Idle σ ∨ ∃ act, Settles σ act = true ∧ (σ.step act).isSome = true := by
  cases lock : σ.lock with
  | some o => exact .inr (holder_steps ((C.mutex o).mp lock) C.seen fits ok)
  | none =>
    have mutex := C.mutex
    rw [lock] at mutex
    have unheld (o : Owner m n) : ¬ σ.holds o := fun held => by cases (mutex o).mpr held
    by_cases going : ∃ c, σ.consumer c = .top ∨ σ.consumer c = .woken
    · obtain ⟨c, pc⟩ := going
      refine .inr ⟨.consumer c, rfl, ?_⟩
      rcases pc with pc | pc <;> simp [Sys.step, Sys.consume, pc, lock]
    · refine .inl (idle_of_blocked some C.seen heard (fun p => ?_) fun c => ?_)
      · have out := unheld (.inr p)
        rw [Sys.holds] at out
        cases pc : σ.producer p with
        | top => rfl
        | locked | produced | notified =>
          rw [pc] at out
          exact absurd rfl out
      · have out := unheld (.inl c)
        rw [Sys.holds] at out
        cases pc : σ.consumer c with
        | blocked => rfl
        | top => exact absurd ⟨c, .inl pc⟩ going
        | woken => exact absurd ⟨c, .inr pc⟩ going
        | locked | waits | passed | consumed =>
          rw [pc] at out
          exact absurd rfl out

theorem step_fits {act : Act m n} (S : Seen σ) (fits : Fits 32 σ.shareVariable)
    (step : Step σ act σ') : Fits 32 σ'.shareVariable := by
  cases step_move step with
  | consume pc =>
    have nonneg := S.nonneg
    have some := S.passed _ pc
    rw [fits_int] at fits ⊢
    simp only
    omega
  | produce _ more => exact more
  | lockC _ _ | waits _ _ | passes _ _ | wait _ | unlockC _ | wake _ | lockP _ _ | signal _ _
  | unheard _ _ | unlockP _ => exact fits

end

/-- Once no producer begins another round and nobody wakes up without a signal, the consumers use
up what has been made and then wait, in every order of steps: there are at most `work` more steps,
and as long as somebody has not come to rest there is one, unless a producer overflows the
counter. -/
theorem consumers_drain {m n : Nat} (some : 0 < m) (acts : List (Act m n)) (σ : Sys m n)
    (run : Run Step start acts σ) (later : List (Act m n)) (τ : Sys m n)
    (own : Run (When (fun s act => Settles s act = true) Step) σ later τ) :
    later.length + τ.work ≤ σ.work ∧
      (Idle τ ∨ Overflows τ ∨ ∃ act, Settles τ act = true ∧ (τ.step act).isSome = true) := by
  have C := (run_heard run).1
  have bound : Control τ ∧ later.length + τ.work ≤ σ.work := by
    clear run
    induction own with
    | nil => exact ⟨C, by simp⟩
    | snoc _ step ih =>
      obtain ⟨C, le⟩ := ih
      have less := step_work C.seen step.1 step.2
      refine ⟨step_control C step.2, ?_⟩
      rw [List.length_append, List.length_singleton]
      omega
  have whole := run.append own.of_when
  obtain ⟨C', heard⟩ := run_heard whole
  have fits : Fits 32 τ.shareVariable := by
    have both := whole.invariant (I := fun s => Control s ∧ Fits 32 s.shareVariable)
      ⟨start_control, by simp [start, fits_int]⟩
      fun _ _ _ both step => ⟨step_control both.1 step, step_fits both.1.seen both.2 step⟩
    exact both.2
  refine ⟨bound.2, ?_⟩
  by_cases ok : Overflows τ
  · exact .inr (.inl ok)
  · rcases settling_steps some C' heard fits ok with idle | step
    · exact .inl idle
    · exact .inr (.inr step)

/-- The producer signals, and the consumer has the product to use. -/
theorem oneMade_drains : ∃ σ τ : Sys 1 1, Run Step start (oneMade 0 0) σ ∧
    Run (When (fun s act => Settles s act = true) Step) σ [.signal 0 (some 0)] τ ∧
    ([.signal 0 (some 0)] : List (Act 1 1)).length + τ.work ≤ σ.work ∧
    (Idle τ ∨ Overflows τ ∨ ∃ act, Settles τ act = true ∧ (τ.step act).isSome = true) := by
  have ran : (execute Sys.step (start : Sys 1 1) (oneMade 0 0)).map
      (fun σ => (σ.consumer 0, σ.producer 0)) = some (.blocked, .produced) := by
    decide
  obtain ⟨σ, ret, eq⟩ := Option.map_eq_some_iff.mp ran
  obtain ⟨blocked, produced⟩ := Prod.mk.inj eq
  have run : Run Step start (oneMade 0 0) σ := execute_run (fun _ _ _ step => step) ret
  have own : Run (When (fun s act => Settles s act = true) Step) σ [.signal 0 (some 0)]
      ((σ.goC 0 .woken).goP 0 .notified) :=
    Run.nil.snoc ⟨rfl, by simp [Step, Sys.step, Sys.signal, produced, isBlocked_iff.mpr blocked]⟩
  exact ⟨σ, _, run, own, consumers_drain Nat.one_pos _ σ run _ _ own⟩

end LearnC.Thread.Condition
