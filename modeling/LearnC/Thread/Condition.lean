import LearnC.Machine.Monitor
import LearnC.Machine.Signed

/-! The consumers and producers of `3.cond`: `share_variable` under `g_mutex`, and the
condition variable `g_cond`. -/

namespace LearnC.Thread.Condition

/-- Where a consumer stands: before the lock; before the test of the condition; before, in and
behind the wait; before `--share_variable`; before the unlock. -/
inductive Consumer where
  | top
  | locked
  | waits
  | blocked
  | woken
  | passed
  | consumed
  deriving DecidableEq

/-- Where a producer stands: before the lock; before `++share_variable`; before the signal;
before the unlock. -/
inductive Producer where
  | top
  | locked
  | produced
  | notified
  deriving DecidableEq

def Consumer.isBlocked : Consumer → Bool
  | .blocked => true
  | _ => false

def Consumer.isAwake (pc : Consumer) : Bool := !pc.isBlocked

/-- The producer has yet to signal what it has produced. -/
def Producer.isNotifying : Producer → Bool
  | .produced => true
  | _ => false

def Consumer.holds : Consumer → Bool
  | .locked => true
  | .waits => true
  | .passed => true
  | .consumed => true
  | _ => false

def Producer.holds : Producer → Bool
  | .top => false
  | _ => true

/-- `m` consumers and `n` producers. -/
abbrev Owner (m n : Nat) : Type := Fin m ⊕ Fin n

/-- The variables of the program, and how often `share_variable` has been counted up and down. -/
structure Sys (m n : Nat) where
  shareVariable : Int
  lock : Option (Owner m n)
  consumer : Fin m → Consumer
  producer : Fin n → Producer
  made : Nat
  used : Nat

inductive Act (m n : Nat) where
  | consumer (c : Fin m)
  | wake (c : Fin m)
  | producer (p : Fin n)
  | signal (p : Fin n) (target : Option (Fin m))

namespace Sys

variable {m n : Nat}

def goC (σ : Sys m n) (c : Fin m) (pc : Consumer) : Sys m n :=
  { σ with consumer := Function.update σ.consumer c pc }

def goP (σ : Sys m n) (p : Fin n) (pc : Producer) : Sys m n :=
  { σ with producer := Function.update σ.producer p pc }

/-- The next step of a consumer; none where it is blocked. -/
def consume (σ : Sys m n) (c : Fin m) : Option (Sys m n) :=
  match σ.consumer c with
  | .top | .woken =>
    if σ.lock = none then some { σ.goC c .locked with lock := some (.inl c) } else none
  | .locked => some (σ.goC c (if σ.shareVariable = 0 then .waits else .passed))
  | .waits => some { σ.goC c .blocked with lock := none }
  | .blocked => none
  | .passed =>
    (checked 32 (σ.shareVariable - 1)).map fun v =>
      { σ.goC c .consumed with shareVariable := v, used := σ.used + 1 }
  | .consumed => some { σ.goC c .top with lock := none }

/-- The next step of a producer but the signal. -/
def produce (σ : Sys m n) (p : Fin n) : Option (Sys m n) :=
  match σ.producer p with
  | .top => if σ.lock = none then some { σ.goP p .locked with lock := some (.inr p) } else none
  | .locked =>
    (checked 32 (σ.shareVariable + 1)).map fun v =>
      { σ.goP p .produced with shareVariable := v, made := σ.made + 1 }
  | .produced => none
  | .notified => some { σ.goP p .top with lock := none }

/-- `pthread_cond_signal` wakes a consumer that waits, where there is one. -/
def signal (σ : Sys m n) (p : Fin n) (target : Option (Fin m)) : Option (Sys m n) :=
  match σ.producer p, target with
  | .produced, some c =>
    if (σ.consumer c).isBlocked then some ((σ.goC c .woken).goP p .notified) else none
  | .produced, none =>
    if ∀ c, (σ.consumer c).isBlocked = false then some (σ.goP p .notified) else none
  | _, _ => none

/-- One step. A consumer may leave its wait without a signal. -/
def step (σ : Sys m n) : Act m n → Option (Sys m n)
  | .consumer c => σ.consume c
  | .wake c => if (σ.consumer c).isBlocked then some (σ.goC c .woken) else none
  | .producer p => σ.produce p
  | .signal p target => σ.signal p target

end Sys

section
variable {m n : Nat}

def Step (σ : Sys m n) (act : Act m n) (σ' : Sys m n) : Prop := σ.step act = some σ'

/-- The threads have been created. -/
def start : Sys m n where
  shareVariable := 0
  lock := none
  consumer := fun _ => .top
  producer := fun _ => .top
  made := 0
  used := 0

variable {σ σ' : Sys m n}

@[simp] theorem isBlocked_iff {pc : Consumer} : pc.isBlocked = true ↔ pc = .blocked := by
  cases pc <;> simp [Consumer.isBlocked]

/-- The steps, with what each branch has seen. -/
inductive Move (σ : Sys m n) : Act m n → Sys m n → Prop
  | lockC {c : Fin m} (pc : σ.consumer c = .top ∨ σ.consumer c = .woken) (free : σ.lock = none) :
      Move σ (.consumer c) { σ.goC c .locked with lock := some (.inl c) }
  | waits {c : Fin m} (pc : σ.consumer c = .locked) (zero : σ.shareVariable = 0) :
      Move σ (.consumer c) (σ.goC c .waits)
  | passes {c : Fin m} (pc : σ.consumer c = .locked) (some : σ.shareVariable ≠ 0) :
      Move σ (.consumer c) (σ.goC c .passed)
  | wait {c : Fin m} (pc : σ.consumer c = .waits) :
      Move σ (.consumer c) { σ.goC c .blocked with lock := none }
  | consume {c : Fin m} (pc : σ.consumer c = .passed) :
      Move σ (.consumer c)
        { σ.goC c .consumed with shareVariable := σ.shareVariable - 1, used := σ.used + 1 }
  | unlockC {c : Fin m} (pc : σ.consumer c = .consumed) :
      Move σ (.consumer c) { σ.goC c .top with lock := none }
  | wake {c : Fin m} (pc : σ.consumer c = .blocked) : Move σ (.wake c) (σ.goC c .woken)
  | lockP {p : Fin n} (pc : σ.producer p = .top) (free : σ.lock = none) :
      Move σ (.producer p) { σ.goP p .locked with lock := some (.inr p) }
  | produce {p : Fin n} (pc : σ.producer p = .locked) (fits : Fits 32 (σ.shareVariable + 1)) :
      Move σ (.producer p)
        { σ.goP p .produced with shareVariable := σ.shareVariable + 1, made := σ.made + 1 }
  | signal {p : Fin n} {c : Fin m} (pc : σ.producer p = .produced)
      (blocked : σ.consumer c = .blocked) :
      Move σ (.signal p (some c)) ((σ.goC c .woken).goP p .notified)
  | unheard {p : Fin n} (pc : σ.producer p = .produced) (nobody : ∀ c, σ.consumer c ≠ .blocked) :
      Move σ (.signal p none) (σ.goP p .notified)
  | unlockP {p : Fin n} (pc : σ.producer p = .notified) :
      Move σ (.producer p) { σ.goP p .top with lock := none }

theorem consume_move {c : Fin m} (step : σ.consume c = some σ') : Move σ (.consumer c) σ' := by
  unfold Sys.consume at step
  split at step
  · next pc =>
    obtain ⟨free, step⟩ := Option.ite_none_right_eq_some.mp step
    cases step
    exact .lockC (.inl pc) free
  · next pc =>
    obtain ⟨free, step⟩ := Option.ite_none_right_eq_some.mp step
    cases step
    exact .lockC (.inr pc) free
  · next pc =>
    obtain rfl := Option.some.inj step
    split
    · next zero => exact .waits pc zero
    · next some => exact .passes pc some
  · next pc =>
    cases step
    exact .wait pc
  · cases step
  · next pc =>
    obtain ⟨v, fits, rfl⟩ := Option.map_eq_some_iff.mp step
    obtain ⟨_, rfl⟩ := checked_eq_some.mp fits
    exact .consume pc
  · next pc =>
    cases step
    exact .unlockC pc

theorem produce_move {p : Fin n} (step : σ.produce p = some σ') : Move σ (.producer p) σ' := by
  unfold Sys.produce at step
  split at step
  · next pc =>
    obtain ⟨free, step⟩ := Option.ite_none_right_eq_some.mp step
    cases step
    exact .lockP pc free
  · next pc =>
    obtain ⟨v, value, rfl⟩ := Option.map_eq_some_iff.mp step
    obtain ⟨fits, rfl⟩ := checked_eq_some.mp value
    exact .produce pc fits
  · cases step
  · next pc =>
    cases step
    exact .unlockP pc

theorem step_move {act : Act m n} (step : Step σ act σ') : Move σ act σ' := by
  cases act with
  | consumer c => exact consume_move step
  | wake c =>
    obtain ⟨blocked, step⟩ := Option.ite_none_right_eq_some.mp step
    cases step
    exact .wake (isBlocked_iff.mp blocked)
  | producer p => exact produce_move step
  | signal p target =>
    simp only [Step, Sys.step, Sys.signal] at step
    split at step
    · next pc =>
      obtain ⟨blocked, step⟩ := Option.ite_none_right_eq_some.mp step
      cases step
      exact .signal pc (isBlocked_iff.mp blocked)
    · next pc =>
      obtain ⟨nobody, step⟩ := Option.ite_none_right_eq_some.mp step
      cases step
      refine .unheard pc fun c blocked => ?_
      rw [← isBlocked_iff, nobody c] at blocked
      cases blocked
    · cases step

/-! ## The lock -/

def Sys.holds (σ : Sys m n) : Owner m n → Prop
  | .inl c => (σ.consumer c).holds = true
  | .inr p => (σ.producer p).holds = true

theorem holds_goC {c : Fin m} {pc : Consumer} {o : Owner m n} (ne : o ≠ .inl c) :
    (σ.goC c pc).holds o ↔ σ.holds o := by
  cases o with
  | inl d =>
    have other : d ≠ c := fun eq => ne (by rw [eq])
    simp [Sys.holds, Sys.goC, Function.update_of_ne other]
  | inr p => exact Iff.rfl

theorem holds_goP {p : Fin n} {pc : Producer} {o : Owner m n} (ne : o ≠ .inr p) :
    (σ.goP p pc).holds o ↔ σ.holds o := by
  cases o with
  | inl c => exact Iff.rfl
  | inr q =>
    have other : q ≠ p := fun eq => ne (by rw [eq])
    simp [Sys.holds, Sys.goP, Function.update_of_ne other]

theorem holds_consumer {c : Fin m} {pc : Consumer} :
    (σ.goC c pc).holds (.inl c) ↔ pc.holds = true := by
  simp [Sys.holds, Sys.goC]

theorem holds_producer {p : Fin n} {pc : Producer} :
    (σ.goP p pc).holds (.inr p) ↔ pc.holds = true := by
  simp [Sys.holds, Sys.goP]

theorem sameC {c : Fin m} {pc : Consumer} (same : pc.holds = (σ.consumer c).holds)
    (o : Owner m n) : (σ.goC c pc).holds o ↔ σ.holds o := by
  by_cases eq : o = .inl c
  · rw [eq, holds_consumer, same]
    exact Iff.rfl
  · exact holds_goC eq

theorem sameP {p : Fin n} {pc : Producer} (same : pc.holds = (σ.producer p).holds)
    (o : Owner m n) : (σ.goP p pc).holds o ↔ σ.holds o := by
  by_cases eq : o = .inr p
  · rw [eq, holds_producer, same]
    exact Iff.rfl
  · exact holds_goP eq

theorem move_mutex {act : Act m n} (M : Mutex σ.lock σ.holds) (move : Move σ act σ') :
    Mutex σ'.lock σ'.holds := by
  cases move with
  | lockC _ free =>
    rw [free] at M
    exact M.acquire (holds_consumer.mpr rfl) fun o ne => holds_goC ne
  | waits pc _ | passes pc _ | consume pc | wake pc =>
    exact M.keep fun o => sameC (by rw [pc]; rfl) o
  | @wait c pc | @unlockC c pc =>
    have held : σ.holds (.inl c) := by
      rw [Sys.holds, pc]
      rfl
    exact M.release held (mt holds_consumer.mp (by simp [Consumer.holds])) fun o ne => holds_goC ne
  | @lockP p _ free =>
    have others (o : Owner m n) (ne : o ≠ .inr p) : (σ.goP p .locked).holds o ↔ σ.holds o :=
      holds_goP ne
    rw [free] at M
    exact M.acquire (holds_producer.mpr rfl) others
  | @produce p pc _ =>
    have same (o : Owner m n) : (σ.goP p .produced).holds o ↔ σ.holds o :=
      sameP (by rw [pc]; rfl) o
    exact M.keep same
  | unheard pc _ => exact M.keep fun o => sameP (by rw [pc]; rfl) o
  | @signal p c pc blocked =>
    have woken (o : Owner m n) : (σ.goC c .woken).holds o ↔ σ.holds o :=
      sameC (by rw [blocked]; rfl) o
    have notified (o : Owner m n) :
        ((σ.goC c .woken).goP p .notified).holds o ↔ (σ.goC c .woken).holds o :=
      sameP (by rw [show (σ.goC c .woken).producer p = .produced from pc]; rfl) o
    exact (M.keep woken).keep notified
  | @unlockP p pc =>
    have held : σ.holds (.inr p) := by
      rw [Sys.holds, pc]
      rfl
    have others (o : Owner m n) (ne : o ≠ .inr p) : (σ.goP p .top).holds o ↔ σ.holds o :=
      holds_goP ne
    exact M.release held (mt holds_producer.mp (by simp [Producer.holds])) others

/-! ## What the consumers have seen -/

/-- What is left is what was made and not used, and what a consumer has seen of it under the
lock still holds when it acts on it. -/
structure Seen (σ : Sys m n) : Prop where
  balance : σ.shareVariable + σ.used = σ.made
  nonneg : 0 ≤ σ.shareVariable
  waits : ∀ c, σ.consumer c = .waits → σ.shareVariable = 0
  passed : ∀ c, σ.consumer c = .passed → σ.shareVariable ≠ 0

/-- Whoever holds the lock may change `share_variable`: no consumer is behind a test. -/
theorem alone (M : Mutex σ.lock σ.holds) {o : Owner m n} (held : σ.holds o) {c : Fin m}
    (other : o ≠ .inl c) : (σ.consumer c).holds = false := by
  cases holds : (σ.consumer c).holds with
  | false => rfl
  | true => exact absurd (M.unique held (p := .inl c) holds).symm other

/-- Nothing changes but where one consumer stands. -/
theorem Seen.go {c : Fin m} {pc : Consumer} (S : Seen σ)
    (share : σ'.shareVariable = σ.shareVariable) (made : σ'.made = σ.made) (used : σ'.used = σ.used)
    (pcs : σ'.consumer = Function.update σ.consumer c pc)
    (waits : pc = .waits → σ.shareVariable = 0) (passed : pc = .passed → σ.shareVariable ≠ 0) :
    Seen σ' := by
  constructor
  · rw [share, made, used]
    exact S.balance
  · rw [share]
    exact S.nonneg
  all_goals
    intro d at_d
    rw [share]
    rw [pcs] at at_d
    by_cases eq : d = c
    · subst eq
      rw [Function.update_self] at at_d
      first | exact waits at_d | exact passed at_d
    · rw [Function.update_of_ne eq] at at_d
      first | exact S.waits d at_d | exact S.passed d at_d

theorem move_seen {act : Act m n} (M : Mutex σ.lock σ.holds) (S : Seen σ) (move : Move σ act σ') :
    Seen σ' := by
  cases move with
  | lockC _ _ | wait _ | unlockC _ | wake _ | signal _ _ =>
    exact S.go rfl rfl rfl rfl (by simp) (by simp)
  | waits _ zero => exact S.go rfl rfl rfl rfl (fun _ => zero) (by simp)
  | passes _ some => exact S.go rfl rfl rfl rfl (by simp) fun _ => some
  | lockP _ _ | unheard _ _ | unlockP _ => exact ⟨S.balance, S.nonneg, S.waits, S.passed⟩
  | @consume c pc =>
    have held : σ.holds (.inl c) := by
      rw [Sys.holds, pc]
      rfl
    have some := S.passed c pc
    have nonneg := S.nonneg
    have out (d : Fin m) (inside : (Function.update σ.consumer c .consumed d).holds = true) :
        d = c := by
      by_contra ne
      rw [Function.update_of_ne ne, alone M held fun eq => ne (Sum.inl.inj eq).symm] at inside
      cases inside
    constructor
    · have balance := S.balance
      simp only [Sys.goC]
      omega
    · simp only
      omega
    all_goals
      intro d at_d
      obtain rfl := out d (by simp only [Sys.goC] at at_d; rw [at_d]; rfl)
      simp [Sys.goC] at at_d
  | @produce p pc _ =>
    have held : σ.holds (.inr p) := by
      rw [Sys.holds, pc]
      rfl
    have nonneg := S.nonneg
    constructor
    · have balance := S.balance
      simp only [Sys.goP]
      omega
    · simp only
      omega
    all_goals
      intro d at_d
      have free := alone M held (c := d) (by simp)
      rw [show σ.consumer d = _ from at_d] at free
      cases free

/-! ## The notifications -/

def Sys.monitor (σ : Sys m n) : Monitor where
  blocked := count Consumer.isBlocked σ.consumer
  awake := count Consumer.isAwake σ.consumer
  notifying := count Producer.isNotifying σ.producer
  supply := σ.shareVariable.toNat

/-- A consumer goes on, without being blocked. -/
theorem awake_go {c : Fin m} {pc : Consumer} (awake : σ.consumer c ≠ .blocked)
    (awake' : pc ≠ .blocked) :
    count Consumer.isBlocked (σ.goC c pc).consumer = count Consumer.isBlocked σ.consumer ∧
      count Consumer.isAwake (σ.goC c pc).consumer = count Consumer.isAwake σ.consumer := by
  have same {q : Consumer} (ne : q ≠ .blocked) : q.isBlocked = false :=
    Bool.eq_false_iff.mpr (mt isBlocked_iff.mp ne)
  constructor
  · exact count_same (by rw [same awake, same awake'])
  · exact count_same (by rw [Consumer.isAwake, Consumer.isAwake, same awake, same awake'])

/-- A consumer leaves its wait. -/
theorem woken_go {c : Fin m} (pc : σ.consumer c = .blocked) :
    count Consumer.isBlocked (σ.goC c .woken).consumer + 1 = count Consumer.isBlocked σ.consumer ∧
      count Consumer.isAwake (σ.goC c .woken).consumer = count Consumer.isAwake σ.consumer + 1 := by
  have awake : Consumer.woken.isAwake.toNat + 0 = (σ.consumer c).isAwake.toNat + 1 := by
    rw [pc]
    rfl
  constructor
  · exact count_step (a := 1) (b := 0) (by rw [pc]; rfl)
  · exact count_step awake

theorem notifying_go {p : Fin n} {pc : Producer} {a b : Nat}
    (change : pc.isNotifying.toNat + a = (σ.producer p).isNotifying.toNat + b) :
    count Producer.isNotifying (σ.goP p pc).producer + a =
      count Producer.isNotifying σ.producer + b :=
  count_step change

theorem move_monitor {act : Act m n} (S : Seen σ) (move : Move σ act σ') :
    Monitor.Move σ.monitor σ'.monitor := by
  have stay {c : Fin m} {pc : Consumer} (awake : σ.consumer c ≠ .blocked)
      (awake' : pc ≠ .blocked) : Monitor.Move σ.monitor (σ.goC c pc).monitor :=
    .stay (awake_go awake awake').1 (awake_go awake awake').2 rfl rfl
  cases move with
  | lockC pc _ =>
    refine stay ?_ (by simp)
    rcases pc with pc | pc <;> simp [pc]
  | waits pc _ | passes pc _ | unlockC pc => exact stay (by simp [pc]) (by simp)
  | wait pc => exact .wait (by simp [Sys.monitor, Sys.goC, S.waits _ pc])
  | @consume c pc =>
    have some := S.passed c pc
    have nonneg := S.nonneg
    have here : σ.consumer c ≠ .blocked := by simp [pc]
    have there : Consumer.consumed ≠ .blocked := by simp
    obtain ⟨blocked, awake⟩ := awake_go here there
    exact .take blocked awake rfl (by simp only [Sys.monitor]; omega)
  | wake pc => exact .wake (woken_go pc).1 (woken_go pc).2 rfl rfl
  | lockP pc _ | unlockP pc =>
    exact .stay rfl rfl (notifying_go (a := 0) (b := 0) (by rw [pc]; rfl)) rfl
  | produce pc _ =>
    have nonneg := S.nonneg
    exact .add rfl rfl (notifying_go (a := 0) (b := 1) (by rw [pc]; rfl))
      (by simp only [Sys.monitor]; omega)
  | @signal p c pc blocked =>
    have notified : count Producer.isNotifying ((σ.goC c .woken).goP p .notified).producer + 1 =
        count Producer.isNotifying σ.producer + 0 :=
      notifying_go (σ := σ.goC c .woken) (by
        rw [show (σ.goC c .woken).producer p = .produced from pc]
        rfl)
    exact .notify (woken_go blocked).1 (woken_go blocked).2 notified rfl
  | unheard _ nobody =>
    have none : σ.monitor.blocked = 0 :=
      count_eq_zero.mpr fun c => Bool.eq_false_iff.mpr (mt isBlocked_iff.mp (nobody c))
    exact .unheard none rfl

/-! ## What holds in every run -/

structure Control (σ : Sys m n) : Prop where
  mutex : Mutex σ.lock σ.holds
  seen : Seen σ

theorem start_control : Control (start : Sys m n) := by
  constructor
  · intro o
    cases o <;> simp [start, Sys.holds, Consumer.holds, Producer.holds]
  · constructor <;> simp [start]

theorem step_control {act : Act m n} (C : Control σ) (step : Step σ act σ') : Control σ' :=
  ⟨move_mutex C.mutex (step_move step), move_seen C.mutex C.seen (step_move step)⟩

/-- `share_variable` is what was produced and not consumed, one thread at a time is in a
critical section, and while a consumer is blocked, for each product that is left a consumer is
awake or a producer about to signal. -/
structure Shared (σ : Sys m n) : Prop where
  balance : σ.shareVariable + σ.used = σ.made
  nonneg : 0 ≤ σ.shareVariable
  one : ∀ o p, σ.holds o → σ.holds p → p = o
  heard : (∃ c, σ.consumer c = .blocked) → σ.shareVariable ≤
    (count Consumer.isAwake σ.consumer + count Producer.isNotifying σ.producer : Nat)

theorem run_heard {acts : List (Act m n)} (run : Run Step start acts σ) :
    Control σ ∧ Monitor.Heard σ.monitor := by
  have keep (s : Sys m n) (l : Act m n) (t : Sys m n) (C : Control s) (step : Step s l t) :
      Control t := step_control C step
  have empty : Monitor.Heard (start : Sys m n).monitor := by
    intro _
    simp [Sys.monitor, start]
  refine ⟨run.invariant start_control keep, ?_⟩
  exact Monitor.heard_of_run (J := Control) (f := Sys.monitor) start_control keep empty
    (fun _ _ _ C step => move_monitor C.seen (step_move step)) run

theorem products_shared (m n : Nat) (acts : List (Act m n)) (σ : Sys m n)
    (run : Run Step start acts σ) : Shared σ := by
  obtain ⟨C, heard⟩ := run_heard run
  constructor
  · exact C.seen.balance
  · exact C.seen.nonneg
  · exact fun o p held held' => C.mutex.unique held held'
  · rintro ⟨c, blocked⟩
    have some : 0 < count Consumer.isBlocked σ.consumer :=
      count_pos.mpr ⟨c, by rw [blocked]; rfl⟩
    have le := heard (Nat.pos_iff_ne_zero.mp some)
    simp only [Sys.monitor] at le
    omega

end

/-- A consumer waits, and a producer has made something and not yet signalled. -/
def oneMade (c : Fin m) (p : Fin n) : List (Act m n) :=
  [.consumer c, .consumer c, .consumer c, .producer p, .producer p]

theorem oneMade_shared : ∃ σ : Sys 1 1, Run Step start (oneMade 0 0) σ ∧
    (σ.consumer 0, σ.producer 0) = (.blocked, .produced) ∧ Shared σ := by
  have ran : (execute Sys.step (start : Sys 1 1) (oneMade 0 0)).map
      (fun σ => (σ.consumer 0, σ.producer 0)) = some (.blocked, .produced) := by
    decide
  obtain ⟨σ, ret, eq⟩ := Option.map_eq_some_iff.mp ran
  have run : Run Step start (oneMade 0 0) σ := execute_run (fun _ _ _ step => step) ret
  exact ⟨σ, run, eq, products_shared 1 1 _ σ run⟩

end LearnC.Thread.Condition
