import LearnC.Machine.Monitor
import LearnC.Thread.ThreadPool

/-! What the threads of the `ThreadPool` have seen when they act on it. -/

namespace LearnC.Thread.ThreadPool

/-- The thread stands between the lock of `queue_mutex` and its unlock. -/
def Pc.holds {F : Type} : Pc F → Bool
  | .locked => true
  | .waits => true
  | .passed => true
  | .leaving _ => true
  | _ => false

def Enqueue.holds {F : Type} : Enqueue F → Bool
  | .locked _ => true
  | _ => false

/-- Worker `i` has been joined. -/
def Destroy.Joined : Destroy → Nat → Prop
  | .joining j, i => i < j
  | .done, _ => True
  | _, _ => False

/-- `notify_all` has been called. -/
def Destroy.Notified : Destroy → Prop
  | .joining _ => True
  | .done => True
  | _ => False

theorem Destroy.Notified.begun {d : Destroy} (told : d.Notified) : d ≠ .idle ∧ d ≠ .locked := by
  cases d with
  | joining | done => simp
  | idle | locked | stopped => exact told.elim

section
variable {n : Nat} {U F : Type}

def Sys.holds (σ : Sys n U F) : Owner n U → Prop
  | .worker w => (σ.pc w).holds = true
  | .caller c => (σ.enqueue c).holds = true
  | .destroyer => σ.destroy = .locked

/-- What a worker has seen of the pool under the lock still holds when it acts on it. -/
structure Seen (σ : Sys n U F) : Prop where
  waits : ∀ w, σ.pc w = .waits → σ.stop = false ∧ σ.tasks = []
  passed : ∀ w, σ.pc w = .passed → σ.stop = true ∨ σ.tasks ≠ []
  past : ∀ w, σ.pc w = .leaving none ∨ σ.pc w = .exited → σ.stop = true ∧ σ.tasks = []

/-- How far the destructor is, and what that means for the workers. -/
structure Ended (σ : Sys n U F) : Prop where
  stop : σ.stop = true ↔ σ.destroy ≠ .idle ∧ σ.destroy ≠ .locked
  notified : σ.destroy.Notified → ∀ w, σ.pc w ≠ .blocked
  joined : ∀ w : Fin n, σ.destroy.Joined w → σ.pc w = .exited

structure Control (σ : Sys n U F) : Prop where
  mutex : Mutex σ.lock σ.holds
  seen : Seen σ
  ended : Ended σ

variable {σ σ' : Sys n U F} {w : Fin n} {act : WorkerAct}

/-! ## The lock -/

theorem holds_go {pc : Pc F} {o : Owner n U} (ne : o ≠ .worker w) :
    (σ.go w pc).holds o ↔ σ.holds o := by
  cases o with
  | worker v =>
    have other : v ≠ w := fun eq => ne (by rw [eq])
    simp [Sys.holds, Sys.go, Function.update_of_ne other]
  | caller c => exact Iff.rfl
  | destroyer => exact Iff.rfl

theorem holds_self {pc : Pc F} : (σ.go w pc).holds (.worker w) ↔ pc.holds = true := by
  simp [Sys.holds, Sys.go]

theorem holds_same {pc : Pc F} (same : pc.holds = (σ.pc w).holds) (o : Owner n U) :
    (σ.go w pc).holds o ↔ σ.holds o := by
  by_cases eq : o = .worker w
  · rw [eq, holds_self, same]
    exact Iff.rfl
  · exact holds_go eq

theorem turn_mutex (M : Mutex σ.lock σ.holds) (turn : Turn σ w act σ') :
    Mutex σ'.lock σ'.holds := by
  have held (h : (σ.pc w).holds = true) : σ.holds (.worker w) := h
  cases turn with
  | lock _ free =>
    rw [free] at M
    exact M.acquire (holds_self.mpr rfl) fun o ne => holds_go ne
  | passes pc _ | waits pc _ _ | wake pc | leaves pc _ _ | take pc _ | finish pc _ =>
    exact M.keep fun o => holds_same (by rw [pc]; rfl) o
  | wait pc | exit pc | run pc =>
    exact M.release (held (by rw [pc]; rfl)) (mt holds_self.mp (by simp [Pc.holds]))
      fun o ne => holds_go ne

theorem notify_holds {target : Option (Fin n)} (ret : σ.notify target = some σ')
    (o : Owner n U) : σ'.holds o ↔ σ.holds o := by
  rcases notify_cases ret with ⟨rfl, _⟩ | ⟨w, pc, rfl⟩
  · exact Iff.rfl
  · exact holds_same (by rw [pc]; rfl) o

theorem notify_lock {target : Option (Fin n)} (ret : σ.notify target = some σ') :
    σ'.lock = σ.lock := by
  rcases notify_cases ret with ⟨rfl, _⟩ | ⟨w, pc, rfl⟩ <;> rfl

section
variable [DecidableEq U] {c : Caller n U} {pc : Enqueue F}

theorem holds_call {o : Owner n U} (ne : o ≠ .caller c) : (σ.call c pc).holds o ↔ σ.holds o := by
  cases o with
  | worker v => exact Iff.rfl
  | caller d =>
    have other : d ≠ c := fun eq => ne (by rw [eq])
    simp [Sys.holds, Sys.call, Function.update_of_ne other]
  | destroyer => exact Iff.rfl

theorem holds_called : (σ.call c pc).holds (.caller c) ↔ pc.holds = true := by
  simp [Sys.holds, Sys.call]

theorem call_same (same : pc.holds = (σ.enqueue c).holds) (o : Owner n U) :
    (σ.call c pc).holds o ↔ σ.holds o := by
  by_cases eq : o = .caller c
  · rw [eq, holds_called, same]
    exact Iff.rfl
  · exact holds_call eq

theorem step_mutex {act : Act n U F} (M : Mutex σ.lock σ.holds) (step : Step σ act σ') :
    Mutex σ'.lock σ'.holds := by
  have held {c : Caller n U} {func : F} (locked : σ.enqueue c = .locked func) :
      σ.holds (.caller c) := by
    rw [Sys.holds, locked]
    rfl
  cases step_move step with
  | worker turn => exact turn_mutex M turn
  | enqueue idle _ => exact M.keep fun o => call_same (by rw [idle]; rfl) o
  | @lock c func _ free =>
    have others (o : Owner n U) (ne : o ≠ .caller c) :
        (σ.call c (.locked func)).holds o ↔ σ.holds o := holds_call ne
    rw [free] at M
    exact M.acquire (holds_called.mpr rfl) others
  | @throw c _ locked _ =>
    have others (o : Owner n U) (ne : o ≠ .caller c) : (σ.call c .idle).holds o ↔ σ.holds o :=
      holds_call ne
    exact M.release (held locked) (mt holds_called.mp (by simp [Enqueue.holds])) others
  | @emplace c _ locked _ =>
    have others (o : Owner n U) (ne : o ≠ .caller c) : (σ.call c .emplaced).holds o ↔ σ.holds o :=
      holds_call ne
    exact M.release (held locked) (mt holds_called.mp (by simp [Enqueue.holds])) others
  | @notifyOne c target σ₁ emplaced ret =>
    have same : (Enqueue.idle (F := F)).holds = (σ₁.enqueue c).holds := by
      have kept : σ₁.enqueue = σ.enqueue := by
        rcases notify_cases ret with ⟨rfl, _⟩ | ⟨w, pc, rfl⟩ <;> rfl
      rw [kept, emplaced]
      rfl
    have lock := notify_lock ret
    rw [← lock] at M
    exact (M.keep fun o => notify_holds ret o).keep fun o => call_same same o
  | destroy idle free =>
    rw [free] at M
    apply M.acquire
    · exact rfl
    · intro o ne
      cases o with
      | destroyer => exact absurd rfl ne
      | _ => exact Iff.rfl
  | stop locked =>
    refine M.release (o := .destroyer) locked (by simp [Sys.holds]) fun o ne => ?_
    cases o with
    | destroyer => exact absurd rfl ne
    | _ => exact Iff.rfl
  | notifyAll stopped =>
    refine M.keep fun o => ?_
    cases o with
    | worker v =>
      simp only [Sys.holds, Sys.wakeAll]
      split
      · next blocked =>
        rw [isBlocked_iff.mp blocked]
        rfl
      · exact Iff.rfl
    | caller d => exact Iff.rfl
    | destroyer => simp [Sys.holds, stopped]
  | join _ joining _ | joined _ joining =>
    refine M.keep fun o => ?_
    cases o with
    | destroyer => simp [Sys.holds, joining]
    | _ => exact Iff.rfl

end

/-! ## What the threads have seen -/

/-- Nothing changes for the workers but where one of them stands. -/
theorem Seen.go {pc : Pc F} (S : Seen σ) (stop : σ'.stop = σ.stop) (tasks : σ'.tasks = σ.tasks)
    (pcs : σ'.pc = Function.update σ.pc w pc) (waits : pc = .waits → σ.stop = false ∧ σ.tasks = [])
    (passed : pc = .passed → σ.stop = true ∨ σ.tasks ≠ [])
    (past : pc = .leaving none ∨ pc = .exited → σ.stop = true ∧ σ.tasks = []) : Seen σ' := by
  constructor
  all_goals
    intro v at_v
    rw [stop, tasks]
    rw [pcs] at at_v
    by_cases eq : v = w
    · subst eq
      rw [Function.update_self] at at_v
      first | exact waits at_v | exact passed at_v | exact past at_v
    · rw [Function.update_of_ne eq] at at_v
      first | exact S.waits v at_v | exact S.passed v at_v | exact S.past v at_v

/-- Whoever holds the lock may change the pool: no worker is behind a test. -/
theorem alone (M : Mutex σ.lock σ.holds) {o : Owner n U} (held : σ.holds o) {v : Fin n}
    (other : o ≠ .worker v) : (σ.pc v).holds = false := by
  cases holds : (σ.pc v).holds with
  | false => rfl
  | true => exact absurd (M.unique held (p := .worker v) holds).symm other

theorem turn_seen (M : Mutex σ.lock σ.holds) (S : Seen σ) (turn : Turn σ w act σ') : Seen σ' := by
  cases turn with
  | lock _ _ | wait _ | wake _ | run _ | finish _ _ =>
    exact S.go rfl rfl rfl (by simp) (by simp) (by simp)
  | passes _ seen => exact S.go rfl rfl rfl (by simp) (fun _ => seen) (by simp)
  | waits _ up empty => exact S.go rfl rfl rfl (fun _ => ⟨up, empty⟩) (by simp) (by simp)
  | leaves _ stop empty => exact S.go rfl rfl rfl (by simp) (by simp) fun _ => ⟨stop, empty⟩
  | exit pc => exact S.go rfl rfl rfl (by simp) (by simp) fun _ => S.past w (.inl pc)
  | @take task rest pc first =>
    have held : σ.holds (.worker w) := by
      rw [Sys.holds, pc]
      rfl
    have some : σ.tasks ≠ [] := by simp [first]
    constructor
    all_goals
      intro v at_v
      by_cases eq : v = w
      · subst eq
        simp [Sys.go] at at_v
      · have free := alone M held (v := v) fun h => eq (Owner.worker.inj h).symm
        simp only [Sys.go, Function.update_of_ne eq] at at_v
        first
          | (rw [at_v] at free; cases free)
          | exact absurd (S.past v at_v).2 some

theorem notify_seen {target : Option (Fin n)} (S : Seen σ) (ret : σ.notify target = some σ') :
    Seen σ' := by
  rcases notify_cases ret with ⟨rfl, _⟩ | ⟨w, pc, rfl⟩
  · exact S
  · exact S.go rfl rfl rfl (by simp) (by simp) (by simp)

section
variable [DecidableEq U]

theorem step_seen {act : Act n U F} (M : Mutex σ.lock σ.holds) (S : Seen σ)
    (step : Step σ act σ') : Seen σ' := by
  cases step_move step with
  | worker turn => exact turn_seen M S turn
  | enqueue _ _ | lock _ _ | throw _ _ | destroy _ _ | join _ _ _ | joined _ _ =>
    exact ⟨S.waits, S.passed, S.past⟩
  | @emplace c func locked up =>
    have held : σ.holds (.caller c) := by
      rw [Sys.holds, locked]
      rfl
    constructor
    · intro v pc
      have free := alone M held (v := v) (by simp)
      rw [show σ.pc v = .waits from pc] at free
      cases free
    · exact fun _ _ => .inr (by simp)
    · intro v pc
      cases up.symm.trans (S.past v pc).1
  | notifyOne _ ret =>
    have S' := notify_seen S ret
    exact ⟨S'.waits, S'.passed, S'.past⟩
  | stop locked =>
    have held : σ.holds .destroyer := locked
    constructor
    · intro v pc
      have free := alone M held (v := v) (by simp)
      rw [show σ.pc v = .waits from pc] at free
      cases free
    · exact fun _ _ => .inl rfl
    · exact fun v pc => ⟨rfl, (S.past v pc).2⟩
  | notifyAll _ =>
    have woken (pc : Pc F) : (if pc.isBlocked then .woken else pc) = pc ∨
        (if pc.isBlocked then .woken else pc) = .woken := by
      cases pc <;> simp [Pc.isBlocked]
    constructor
    all_goals
      intro v pc
      rcases woken (σ.pc v) with same | same
      · simp only [Sys.wakeAll, same] at pc
        first | exact S.waits v pc | exact S.passed v pc | exact S.past v pc
      · simp [Sys.wakeAll, same] at pc

end

theorem turn_ended (S : Seen σ) (E : Ended σ) (turn : Turn σ w act σ') : Ended σ' := by
  obtain ⟨stop, notified, joined⟩ := E
  have frame : ∃ pc, σ'.pc = Function.update σ.pc w pc ∧ σ.pc w ≠ .exited ∧
      (pc = .blocked → σ.stop = false) ∧ σ'.stop = σ.stop ∧ σ'.destroy = σ.destroy := by
    cases turn with
    | wait pc => exact ⟨_, rfl, by simp [pc], fun _ => (S.waits w pc).1, rfl, rfl⟩
    | lock pc _ =>
      refine ⟨_, rfl, ?_, by simp, rfl, rfl⟩
      rcases pc with pc | pc <;> simp [pc]
    | passes pc _ | waits pc _ _ | wake pc | leaves pc _ _ | take pc _ | exit pc | run pc
    | finish pc _ => exact ⟨_, rfl, by simp [pc], by simp, rfl, rfl⟩
  obtain ⟨pc, pcs, before, blocks, stop', destroy'⟩ := frame
  constructor
  · rw [stop', destroy']
    exact stop
  · rw [destroy', pcs]
    intro told v
    by_cases eq : v = w
    · subst eq
      rw [Function.update_self]
      intro blocked
      have stopped : σ.stop = true := by
        rw [stop]
        exact told.begun
      cases stopped.symm.trans (blocks blocked)
    · rw [Function.update_of_ne eq]
      exact notified told v
  · rw [destroy', pcs]
    intro v done
    have ne : v ≠ w := by
      rintro rfl
      exact before (joined v done)
    rw [Function.update_of_ne ne]
    exact joined v done

/-- Waking up blocked workers changes nothing for the destructor. -/
theorem Ended.wakes (E : Ended σ)
    (pcs : ∀ w, σ'.pc w = σ.pc w ∨ σ'.pc w = .woken ∧ σ.pc w = .blocked)
    (stop : σ'.stop = σ.stop) (destroy : σ'.destroy = σ.destroy) : Ended σ' := by
  constructor
  · rw [stop, destroy]
    exact E.stop
  · intro told w
    rw [destroy] at told
    rcases pcs w with same | ⟨woken, _⟩
    · rw [same]
      exact E.notified told w
    · simp [woken]
  · intro w done
    rw [destroy] at done
    have exited := E.joined w done
    rcases pcs w with same | ⟨_, blocked⟩
    · rw [same, exited]
    · cases exited.symm.trans blocked

theorem notify_pcs {target : Option (Fin n)} (ret : σ.notify target = some σ') (w : Fin n) :
    σ'.pc w = σ.pc w ∨ σ'.pc w = .woken ∧ σ.pc w = .blocked := by
  rcases notify_cases ret with ⟨rfl, _⟩ | ⟨v, pc, rfl⟩
  · exact .inl rfl
  · by_cases eq : w = v
    · subst eq
      exact .inr ⟨Function.update_self .., pc⟩
    · exact .inl (Function.update_of_ne eq ..)

theorem start_control : Control (start : Sys n U F) := by
  constructor
  · intro o
    cases o <;> simp [start, Sys.holds, Pc.holds, Enqueue.holds]
  · constructor <;> simp [start]
  · constructor <;> simp [start, Destroy.Notified, Destroy.Joined]

section
variable [DecidableEq U]

theorem step_ended {act : Act n U F} (S : Seen σ) (E : Ended σ) (step : Step σ act σ') :
    Ended σ' := by
  cases step_move step with
  | worker turn => exact turn_ended S E turn
  | enqueue _ _ | lock _ _ | throw _ _ | emplace _ _ => exact ⟨E.stop, E.notified, E.joined⟩
  | @notifyOne c target σ₁ _ ret =>
    have frame : σ₁.stop = σ.stop ∧ σ₁.destroy = σ.destroy := by
      rcases notify_cases ret with ⟨rfl, _⟩ | ⟨w, pc, rfl⟩ <;> exact ⟨rfl, rfl⟩
    have E' := E.wakes (notify_pcs ret) frame.1 frame.2
    exact ⟨E'.stop, E'.notified, E'.joined⟩
  | destroy idle _ =>
    have up := E.stop
    constructor
    · simpa [idle] using up
    · exact fun told => told.elim
    · exact fun _ done => done.elim
  | stop locked =>
    constructor
    · simp
    · exact fun told => told.elim
    · exact fun _ done => done.elim
  | notifyAll stopped =>
    have stop : σ.stop = true := by
      rw [E.stop, stopped]
      simp
    constructor
    · simp [Sys.wakeAll, stop]
    · intro _ v
      simp only [Sys.wakeAll]
      split
      · simp
      · next awake => exact fun pc => awake (isBlocked_iff.mpr pc)
    · exact fun v done => absurd done (Nat.not_lt_zero v)
  | @join i lt joining exited =>
    have stop := E.stop
    have notified := E.notified
    have joined := E.joined
    rw [joining] at stop notified joined
    constructor
    · simpa using stop
    · exact fun _ => notified trivial
    · intro v done
      rcases Nat.lt_succ_iff_lt_or_eq.mp done with lt | eq
      · exact joined v lt
      · have same : v = ⟨i, lt⟩ := Fin.ext eq
        exact same ▸ exited
  | joined le joining =>
    have stop := E.stop
    have notified := E.notified
    have joined := E.joined
    rw [joining] at stop notified joined
    constructor
    · simpa using stop
    · exact fun _ => notified trivial
    · exact fun v _ => joined v (Nat.lt_of_lt_of_le v.isLt le)

theorem step_control {act : Act n U F} (C : Control σ) (step : Step σ act σ') : Control σ' :=
  ⟨step_mutex C.mutex step, step_seen C.mutex C.seen step, step_ended C.seen C.ended step⟩

theorem run_control {acts : List (Act n U F)} (run : Run Step start acts σ) : Control σ :=
  run.invariant start_control fun _ _ _ C step => step_control C step

end

end

end LearnC.Thread.ThreadPool
