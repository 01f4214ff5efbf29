import LearnC.Thread.CPoolSteps

/-! What the threads of the pool have seen when they act on it. -/

namespace LearnC.Thread.CPool

namespace Pool

section
variable {p p' : Pool} {a : Addr}

theorem link_fields (ret : p.link a = .ok p') :
    p'.curQueueSize = p.curQueueSize ∧ p'.shutdown = p.shutdown := by
  unfold link at ret
  split at ret
  · obtain ⟨m, _, ret⟩ := ok_of_bind ret
    obtain ⟨w, _, ret⟩ := ok_of_bind ret
    cases ret
    exact ⟨rfl, rfl⟩
  · cases ret
    exact ⟨rfl, rfl⟩

theorem append_fields (ret : p.append a = .ok p') :
    p'.curQueueSize = p.curQueueSize + 1 ∧ p'.shutdown = p.shutdown := by
  obtain ⟨p₁, linked, ret⟩ := ok_of_bind ret
  obtain ⟨size, shutdown⟩ := link_fields linked
  split at ret
  · cases ret
  · split at ret <;> cases ret
    exact ⟨by rw [size], shutdown⟩

theorem take_fields (ret : p.take = .ok (p', a)) :
    p'.curQueueSize = p.curQueueSize - 1 ∧ p'.shutdown = p.shutdown := by
  unfold take at ret
  split at ret
  · cases ret
  · split at ret
    · cases ret
    · obtain ⟨w, _, ret⟩ := ok_of_bind ret
      cases ret
      exact ⟨rfl, rfl⟩

theorem free_fields (ret : p.free a = .ok p') :
    p'.curQueueSize = p.curQueueSize ∧ p'.shutdown = p.shutdown := by
  unfold free at ret
  split at ret <;> cases ret
  exact ⟨rfl, rfl⟩

theorem drop_fields {t : Task} (ret : p.drop a = .ok (p', t)) :
    p'.curQueueSize = p.curQueueSize ∧ p'.shutdown = p.shutdown := by
  obtain ⟨w, _, ret⟩ := ok_of_bind ret
  obtain ⟨p₁, freed, ret⟩ := ok_of_bind ret
  cases ret
  exact free_fields (p := { p with queueHead := w.next }) freed

end

end Pool

/-- The thread holds `queue_lock`. -/
def Pc.holds : Pc → Bool
  | .locked => true
  | .waits => true
  | .passed => true
  | .working => true
  | _ => false

/-- Worker `i` has been joined. -/
def Destroy.Joined : Destroy → Nat → Prop
  | .joining j, i => i < j
  | .freeing, _ => True
  | .done, _ => True
  | _, _ => False

/-- What the workers have seen under the lock still holds when they act on it. -/
structure Control {n : Nat} {U : Type} (σ : Sys n U) : Prop where
  nonneg : 0 ≤ σ.pool.curQueueSize
  holder : ∀ w, σ.lock = some w ↔ (σ.pc w).holds = true
  passed : ∀ w, σ.pc w = .passed → σ.pool.curQueueSize ≠ 0 ∨ σ.pool.shutdown = true
  working : ∀ w, σ.pc w = .working → σ.pool.curQueueSize ≠ 0
  begun : σ.pool.shutdown = true ↔ σ.destroy ≠ .idle
  joined : ∀ w : Fin n, σ.destroy.Joined w → σ.pc w = .exited

section
variable {n : Nat} {U : Type} {σ σ' : Sys n U} {w : Fin n} {pc : Pc}

theorem start_control : Control (start : Sys n U) := by
  constructor <;> simp [start, Pc.holds, Destroy.Joined]

/-- Only the flags, the lock and where the workers stand count. -/
theorem Control.congr (C : Control σ) (size : σ'.pool.curQueueSize = σ.pool.curQueueSize)
    (shutdown : σ'.pool.shutdown = σ.pool.shutdown) (lock : σ'.lock = σ.lock)
    (pcs : σ'.pc = σ.pc) (destroy : σ'.destroy = σ.destroy) : Control σ' := by
  obtain ⟨nonneg, holder, passed, working, begun, joined⟩ := C
  constructor <;> rw [destroy] at * <;> simpa only [size, shutdown, lock, pcs]

/-- A step of worker `w`, which changes the counter under the lock only. -/
theorem Control.turn (C : Control σ) (pcs : σ'.pc = Function.update σ.pc w pc)
    (shutdown : σ'.pool.shutdown = σ.pool.shutdown) (destroy : σ'.destroy = σ.destroy)
    (before : σ.pc w ≠ .exited) (nonneg : 0 ≤ σ'.pool.curQueueSize)
    (lock : pc.holds = true → σ'.lock = some w ∧ (σ.lock = none ∨ σ.lock = some w))
    (unlock : pc.holds = false →
      σ'.lock = none ∧ σ.lock = some w ∨ σ'.lock = σ.lock ∧ σ.lock ≠ some w)
    (size : σ'.pool.curQueueSize = σ.pool.curQueueSize ∨ σ.lock = some w)
    (passed : pc = .passed → σ'.pool.curQueueSize ≠ 0 ∨ σ'.pool.shutdown = true)
    (working : pc = .working → σ'.pool.curQueueSize ≠ 0) : Control σ' := by
  have at_w : σ'.pc w = pc := by rw [pcs, Function.update_self]
  have other (v : Fin n) (ne : v ≠ w) : σ'.pc v = σ.pc v := by rw [pcs, Function.update_of_ne ne]
  -- Another worker that has looked at the counter holds the lock.
  have same (v : Fin n) (ne : v ≠ w) (hv : (σ.pc v).holds = true) :
      σ'.pool.curQueueSize = σ.pool.curQueueSize := by
    rcases size with h | h
    · exact h
    · exact absurd (Option.some.inj (((C.holder v).mpr hv).symm.trans h)) ne
  constructor
  · exact nonneg
  · intro v
    by_cases ne : v = w
    · subst ne
      rw [at_w]
      cases hp : pc.holds with
      | true => simp [lock hp]
      | false =>
        rcases unlock hp with ⟨h, _⟩ | ⟨h, h'⟩
        · simp [h]
        · simp [h, h']
    · have old := C.holder v
      rw [other v ne]
      cases hp : pc.holds with
      | true =>
        obtain ⟨h, h' | h'⟩ := lock hp
        · simpa [h, h', Ne.symm ne] using old
        · simpa [h, h', Ne.symm ne] using old
      | false =>
        rcases unlock hp with ⟨h, h'⟩ | ⟨h, _⟩
        · simpa [h, h', Ne.symm ne] using old
        · rw [h]
          exact old
  · intro v hv
    by_cases ne : v = w
    · subst ne
      exact passed (at_w.symm.trans hv)
    · rw [other v ne] at hv
      rw [same v ne (by rw [hv]; rfl), shutdown]
      exact C.passed v hv
  · intro v hv
    by_cases ne : v = w
    · subst ne
      exact working (at_w.symm.trans hv)
    · rw [other v ne] at hv
      rw [same v ne (by rw [hv]; rfl)]
      exact C.working v hv
  · rw [shutdown, destroy]
    exact C.begun
  · intro v hv
    rw [destroy] at hv
    have exited := C.joined v hv
    have ne : v ≠ w := by
      rintro rfl
      exact before exited
    rw [other v ne, exited]

/-- A step under the lock. -/
theorem Control.under_lock (C : Control σ) (pcs : σ'.pc = Function.update σ.pc w pc)
    (pool : σ'.pool = σ.pool) (destroy : σ'.destroy = σ.destroy) (lock : σ'.lock = σ.lock)
    (before : (σ.pc w).holds = true) (after : pc.holds = true)
    (passed : pc = .passed → σ.pool.curQueueSize ≠ 0 ∨ σ.pool.shutdown = true)
    (working : pc = .working → σ.pool.curQueueSize ≠ 0) : Control σ' := by
  have held := (C.holder w).mpr before
  refine C.turn pcs (by rw [pool]) destroy ?_ (pool ▸ C.nonneg) ?_ ?_ (.inl (by rw [pool])) ?_ ?_
  · intro exited
    rw [exited] at before
    cases before
  · exact fun _ => ⟨lock.trans held, .inr held⟩
  · intro h
    cases after.symm.trans h
  · rwa [pool]
  · rwa [pool]

theorem not_passed_or_working {pc : Pc} (free : pc.holds = false) :
    pc ≠ .passed ∧ pc ≠ .working := by
  constructor <;> rintro rfl <;> cases free

/-- A step that gives the lock back; it may have changed the counter. -/
theorem Control.unlock (C : Control σ) (pcs : σ'.pc = Function.update σ.pc w pc)
    (shutdown : σ'.pool.shutdown = σ.pool.shutdown) (destroy : σ'.destroy = σ.destroy)
    (lock : σ'.lock = none) (before : (σ.pc w).holds = true) (after : pc.holds = false)
    (nonneg : 0 ≤ σ'.pool.curQueueSize) : Control σ' := by
  have held := (C.holder w).mpr before
  obtain ⟨passed, working⟩ := not_passed_or_working after
  refine C.turn pcs shutdown destroy ?_ nonneg ?_ ?_ (.inr held) ?_ ?_
  · intro exited
    rw [exited] at before
    cases before
  · intro h
    cases after.symm.trans h
  · exact fun _ => .inl ⟨lock, held⟩
  · exact fun h => absurd h passed
  · exact fun h => absurd h working

/-- A step without the lock. -/
theorem Control.outside (C : Control σ) (pcs : σ'.pc = Function.update σ.pc w pc)
    (size : σ'.pool.curQueueSize = σ.pool.curQueueSize)
    (shutdown : σ'.pool.shutdown = σ.pool.shutdown) (destroy : σ'.destroy = σ.destroy)
    (lock : σ'.lock = σ.lock) (before : (σ.pc w).holds = false) (going : σ.pc w ≠ .exited)
    (after : pc.holds = false) : Control σ' := by
  obtain ⟨passed, working⟩ := not_passed_or_working after
  refine C.turn pcs shutdown destroy going (size ▸ C.nonneg) ?_ ?_ (.inl size) ?_ ?_
  · intro h
    cases after.symm.trans h
  · refine fun _ => .inr ⟨lock, fun held => ?_⟩
    cases before.symm.trans ((C.holder w).mp held)
  · exact fun h => absurd h passed
  · exact fun h => absurd h working

theorem Control.woken (C : Control σ) (pc : σ.pc w = .blocked) : Control (σ.go w .woken) :=
  C.outside rfl rfl rfl rfl rfl (by rw [pc]; rfl) (by simp [pc]) rfl

/-- What `thread_routine` can do, one step at a time. -/
theorem turn_control {act : WorkerAct} (C : Control σ) (turn : Turn σ w act σ') : Control σ' := by
  cases turn with
  | lock pc free =>
    refine C.turn rfl rfl rfl ?_ C.nonneg (fun _ => ⟨rfl, .inl free⟩) ?_ (.inl rfl) ?_ ?_
    · rcases pc with pc | pc <;> simp [pc]
    · simp [Pc.holds]
    · simp
    · simp
  | waits pc => exact C.under_lock rfl rfl rfl rfl (by rw [pc]; rfl) rfl (by simp) (by simp)
  | passes pc seen =>
    exact C.under_lock rfl rfl rfl rfl (by rw [pc]; rfl) rfl (fun _ => seen) (by simp)
  | wait pc => exact C.unlock rfl rfl rfl rfl (by rw [pc]; rfl) rfl C.nonneg
  | wake pc => exact C.woken pc
  | exits pc => exact C.unlock rfl rfl rfl rfl (by rw [pc]; rfl) rfl C.nonneg
  | works pc down =>
    refine C.under_lock rfl rfl rfl rfl (by rw [pc]; rfl) rfl (by simp) fun _ => ?_
    exact (C.passed w pc).resolve_right down
  | take pc ret _ =>
    obtain ⟨size, shutdown⟩ := Pool.take_fields ret
    refine C.unlock rfl shutdown rfl rfl (by rw [pc]; rfl) rfl ?_
    have nonneg := C.nonneg
    have some := C.working w pc
    simp only [size]
    omega
  | run pc _ => exact C.outside rfl rfl rfl rfl rfl (by rw [pc]; rfl) (by simp [pc]) rfl
  | finish pc ret =>
    obtain ⟨size, shutdown⟩ := Pool.free_fields ret
    exact C.outside rfl size shutdown rfl rfl (by rw [pc]; rfl) (by simp [pc]) rfl

/-- A wake-up moves workers out of their wait only. -/
theorem Control.wakes (C : Control σ) (pool : σ'.pool = σ.pool) (lock : σ'.lock = σ.lock)
    (pcs : ∀ w, σ'.pc w = σ.pc w ∨ σ.pc w = .blocked ∧ σ'.pc w = .woken)
    (begun : σ'.destroy ≠ .idle ↔ σ.destroy ≠ .idle)
    (joined : ∀ w : Fin n, σ'.destroy.Joined w → σ'.pc w = .exited) : Control σ' := by
  constructor
  · rw [pool]
    exact C.nonneg
  · intro w
    rw [lock, C.holder]
    rcases pcs w with h | ⟨h, h'⟩
    · rw [h]
    · rw [h, h']
      exact Iff.rfl
  · intro w hw
    rw [pool]
    rcases pcs w with h | ⟨_, h'⟩
    · exact C.passed w (h ▸ hw)
    · cases h'.symm.trans hw
  · intro w hw
    rw [pool]
    rcases pcs w with h | ⟨_, h'⟩
    · exact C.working w (h ▸ hw)
    · cases h'.symm.trans hw
  · rw [pool, C.begun, begun]
  · exact joined

theorem step_control [DecidableEq U] {act : Act n U} (C : Control σ) (step : Step σ act σ') :
    Control σ' := by
  cases step_move step with
  | worker turn => exact turn_control C turn
  | call _ _ => exact C.congr rfl rfl rfl rfl rfl
  | link _ free _ ret _ =>
    obtain ⟨size, shutdown⟩ := Pool.append_fields ret
    have nonneg := C.nonneg
    have nobody (w : Fin n) {pc : Pc} (h : σ.pc w = pc) (hold : pc.holds = true) : False := by
      cases free.symm.trans ((C.holder w).mpr (h ▸ hold))
    constructor
    · simp only [size]
      omega
    · exact C.holder
    · exact fun w hw => (nobody w hw rfl).elim
    · exact fun w hw => (nobody w hw rfl).elim
    · simp only [shutdown]
      exact C.begun
    · exact C.joined
  | signal _ ret =>
    rcases notify_cases ret with rfl | ⟨w, pc, rfl⟩
    · exact C.congr rfl rfl rfl rfl rfl
    · exact (C.woken pc).congr rfl rfl rfl rfl rfl
  | refused => exact C
  | destroy _ =>
    refine ⟨C.nonneg, C.holder, fun _ _ => .inr rfl, C.working, by simp, ?_⟩
    exact fun _ h => h.elim
  | broadcast set =>
    refine C.wakes rfl rfl ?_ (by simp [set]) ?_
    · intro w
      simp only [Sys.wakeAll]
      split
      · next pc => exact .inr ⟨pc, rfl⟩
      · exact .inl rfl
    · exact fun _ h => absurd h (Nat.not_lt_zero _)
  | @join i lt joining exited =>
    refine C.wakes rfl rfl (fun _ => .inl rfl) (by simp [joining]) ?_
    intro w h
    rcases Nat.lt_or_eq_of_le (Nat.le_of_lt_succ h) with h | h
    · exact C.joined w (by rw [joining]; exact h)
    · have eq : w = ⟨i, lt⟩ := Fin.ext h
      exact (congrArg σ.pc eq).trans exited
  | joined le joining =>
    refine C.wakes rfl rfl (fun _ => .inl rfl) (by simp [joining]) ?_
    intro w _
    apply C.joined w
    rw [joining]
    exact Nat.lt_of_lt_of_le w.isLt le
  | free _ _ ret =>
    obtain ⟨size, shutdown⟩ := Pool.drop_fields ret
    exact C.congr size shutdown rfl rfl rfl
  | freed freeing _ =>
    refine C.wakes rfl rfl (fun _ => .inl rfl) (by simp [freeing]) fun w _ => ?_
    exact C.joined w (by rw [freeing]; trivial)

end

end LearnC.Thread.CPool
