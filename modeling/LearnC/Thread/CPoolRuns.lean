import Mathlib.Data.Fintype.Sum
import LearnC.Thread.CPoolControl
import LearnC.Thread.CPoolQueue

/-! The queue of the thread pool through its runs. -/

namespace LearnC.Thread.CPool

section
variable {n : Nat} {U : Type} {σ σ' : Sys n U} {place : Addr → Place n U} {xs : List Addr}
  {queue : List Task} {a : Addr} {c : Caller n U} {w : Fin n}

/-- Before the pool is being freed no task has been discarded. -/
theorem Inv.nothing_discarded (I : Inv σ place xs queue) (freeing : σ.destroy ≠ .freeing)
    (done : σ.destroy ≠ .done) : σ.log.discarded = [] := by
  by_contra h
  rcases I.kept h with h | h
  · exact freeing h
  · exact done h

theorem Control.working_undestroyed (C : Control σ) (working : σ.pc w = .working) :
    σ.destroy ≠ .freeing ∧ σ.destroy ≠ .done := by
  constructor
  all_goals
    intro h
    have exited := C.joined w (by rw [h]; trivial)
    cases exited.symm.trans working

/-- The asserts of `thread_routine` hold, and the worker gets the first node. -/
theorem Inv.takes (I : Inv σ place xs queue) (C : Control σ) (working : σ.pc w = .working) :
    ∃ b ys t rest, xs = b :: ys ∧ queue = t :: rest ∧ σ.pool.take = .ok
      ({ σ.pool with curQueueSize := σ.pool.curQueueSize - 1, queueHead := σ.pool.next b }, b) := by
  obtain ⟨freeing, done⟩ := C.working_undestroyed working
  have size := I.size
  have some := C.working w working
  rw [I.nothing_discarded freeing done] at size
  have tasks := I.tasks
  cases xs with
  | nil => exact absurd size some
  | cons b ys =>
    cases queue with
    | nil => cases tasks
    | cons t rest =>
      exact ⟨b, ys, t, rest, rfl, rfl,
        Pool.take_spec I.chain (I.placed.on_list List.mem_cons_self) some⟩

/-- The assert of `pool_add_worker` holds, and only the counter may be too large. -/
theorem Inv.appends (I : Inv σ place xs queue) (built : σ.adding c = .built a) :
    if σ.pool.curQueueSize + 1 < 2 ^ 31 then
      ∃ p, σ.pool.append a = .ok p ∧ Pool.Appended σ.pool p xs a
    else σ.pool.append a = .error .overflow := by
  have at_a : place a = .built c := (I.placed.built c a).mpr (by rw [built]; rfl)
  apply Pool.append_spec I.chain (fun b hb => I.placed.on_list hb)
  · intro h
    cases at_a.symm.trans ((I.placed.queued a).mpr h)
  · exact I.ends c a at_a

theorem Inv.woken (I : Inv σ place xs queue) (pc : σ.pc w = .blocked) :
    Inv (σ.go w .woken) place xs queue :=
  I.turn rfl rfl rfl rfl rfl (by rw [pc]; rfl) rfl

/-- `pool_destroy` goes on before its last loop. -/
theorem Inv.destroys (I : Inv σ place xs queue) (heap : σ'.pool.heap = σ.pool.heap)
    (head : σ'.pool.queueHead = σ.pool.queueHead)
    (size : σ'.pool.curQueueSize = σ.pool.curQueueSize) (log : σ'.log = σ.log)
    (adding : σ'.adding = σ.adding)
    (pcs : ∀ w, σ'.pc w = σ.pc w ∨ σ.pc w = .blocked ∧ σ'.pc w = .woken)
    (freeing : σ.destroy ≠ .freeing) (done : σ.destroy ≠ .done) (undone : σ'.destroy ≠ .done) :
    Inv σ' place xs queue := by
  refine I.quiet heap head size log (fun _ => by rw [adding]) ?_ ?_ ?_ fun h => absurd h undone
  · intro w
    rcases pcs w with h | ⟨h, h'⟩
    · rw [h]
    · rw [h, h']
      rfl
  · intro w
    rcases pcs w with h | ⟨h, h'⟩
    · rw [h]
    · rw [h, h']
      rfl
  · exact fun h => absurd (I.nothing_discarded freeing done) h

variable [DecidableEq U]

/-- A caller returns. -/
theorem Inv.returns (I : Inv σ place xs queue) (linked : σ.adding c = .linked) :
    Inv (σ.add c .idle) place xs queue := by
  refine I.quiet rfl rfl rfl rfl ?_ (fun _ => rfl) (fun _ => rfl) I.kept I.emptied
  intro d
  by_cases eq : d = c
  · subst eq
    simp [Sys.add, linked, Adding.node]
  · simp [Sys.add, Function.update_of_ne eq]

theorem turn_inv {act : WorkerAct} (C : Control σ) (I : Inv σ place xs queue)
    (turn : Turn σ w act σ') : ∃ place xs queue, Inv σ' place xs queue := by
  cases turn with
  | lock pc _ =>
    refine ⟨place, xs, queue, I.turn rfl rfl rfl rfl rfl ?_ rfl⟩
    rcases pc with pc | pc <;> rw [pc] <;> rfl
  | waits pc | passes pc _ | wait pc | wake pc | exits pc | works pc _ =>
    exact ⟨place, xs, queue, I.turn rfl rfl rfl rfl rfl (by rw [pc]; rfl) rfl⟩
  | take pc ret task =>
    obtain ⟨b, ys, t, rest, rfl, rfl, first⟩ := I.takes C pc
    obtain ⟨freeing, done⟩ := C.working_undestroyed pc
    cases first.symm.trans ret
    cases task.symm.trans (List.cons.inj I.tasks).1
    exact ⟨_, ys, rest, I.take pc (I.nothing_discarded freeing done) rfl rfl rfl rfl done⟩
  | run pc task => exact ⟨place, xs, queue, I.run pc task rfl rfl rfl rfl rfl⟩
  | finish pc ret =>
    cases (Pool.free_spec (I.placed.of_held (by rw [pc]; rfl))).symm.trans ret
    exact ⟨_, xs, queue, I.finish pc rfl rfl rfl rfl rfl⟩

theorem step_inv {act : Act n U} (C : Control σ) (I : Inv σ place xs queue)
    (step : Step σ act σ') : ∃ place xs queue, Inv σ' place xs queue := by
  cases step_move step with
  | worker turn => exact turn_inv C I turn
  | call idle new => exact ⟨_, xs, queue, I.call idle new rfl rfl rfl rfl rfl rfl⟩
  | link built _ undone ret task =>
    have spec := I.appends built
    split at spec
    · obtain ⟨p, ok, appended⟩ := spec
      cases ok.symm.trans ret
      rw [appended.task] at task
      exact ⟨_, _, _, I.link built task appended rfl rfl rfl rfl undone⟩
    · cases spec.symm.trans ret
  | signal linked ret =>
    rcases notify_cases ret with rfl | ⟨w, pc, rfl⟩
    · exact ⟨place, xs, queue, I.returns linked⟩
    · exact ⟨place, xs, queue, (I.woken pc).returns linked⟩
  | refused => exact ⟨place, xs, queue, I⟩
  | destroy idle =>
    exact ⟨place, xs, queue, I.destroys rfl rfl rfl rfl rfl (fun _ => .inl rfl) (by simp [idle])
      (by simp [idle]) (by simp)⟩
  | broadcast set =>
    refine ⟨place, xs, queue, I.destroys rfl rfl rfl rfl rfl ?_ (by simp [set]) (by simp [set])
      (by simp)⟩
    intro w
    simp only [Sys.wakeAll]
    split
    · next pc => exact .inr ⟨pc, rfl⟩
    · exact .inl rfl
  | join _ joining _ =>
    exact ⟨place, xs, queue, I.destroys rfl rfl rfl rfl rfl (fun _ => .inl rfl)
      (by simp [joining]) (by simp [joining]) (by simp)⟩
  | joined _ joining =>
    exact ⟨place, xs, queue, I.destroys rfl rfl rfl rfl rfl (fun _ => .inl rfl)
      (by simp [joining]) (by simp [joining]) (by simp)⟩
  | free freeing first ret =>
    have chain := I.chain
    have tasks := I.tasks
    cases xs with
    | nil => cases first.symm.trans chain
    | cons b ys =>
      cases queue with
      | nil => cases tasks
      | cons t rest =>
        cases first.symm.trans chain.1
        have live := I.placed.on_list List.mem_cons_self
        cases (Pool.drop_spec live (List.cons.inj tasks).1).symm.trans ret
        exact ⟨_, ys, rest, I.drop freeing rfl rfl rfl rfl rfl⟩
  | freed _ empty =>
    have none : xs = [] := by
      have chain := I.chain
      rw [empty] at chain
      exact chain_none chain
    exact ⟨place, xs, queue, I.quiet rfl rfl rfl rfl (fun _ => rfl) (fun _ => rfl) (fun _ => rfl)
      (fun _ => .inr rfl) fun _ => none⟩

theorem run_inv {acts : List (Act n U)} (run : Run Step start acts σ) :
    Control σ ∧ ∃ place xs queue, Inv σ place xs queue := by
  apply run.invariant (I := fun σ => Control σ ∧ ∃ place xs queue, Inv σ place xs queue)
  · exact ⟨start_control, _, _, _, start_inv⟩
  · rintro σ act σ' ⟨C, _, _, _, I⟩ step
    exact ⟨step_control C step, step_inv C I step⟩

end

/-- The list at `queue_head` holds the tasks that were enqueued and neither dequeued nor
discarded, `cur_queue_size` counts them and what `pool_destroy` has discarded, no assert
fails, and no task is executed or discarded twice. -/
structure Kept {n : Nat} {U : Type} (σ : Sys n U) : Prop where
  list : ∃ xs queue, Chain σ.pool.next σ.pool.queueHead xs ∧
    xs.map σ.pool.task = queue.map some ∧
    σ.log.enqueued = σ.log.dequeued ++ σ.log.discarded ++ queue ∧
    σ.pool.curQueueSize = xs.length + σ.log.discarded.length
  discarded : σ.destroy ≠ .freeing → σ.destroy ≠ .done → σ.log.discarded = []
  adds : ∀ c a, σ.adding c = .built a → (∃ p, σ.pool.append a = .ok p) ∨
    σ.pool.append a = .error .overflow ∧ 2 ^ 31 ≤ σ.pool.curQueueSize + 1
  takes : ∀ w, σ.pc w = .working → ∃ r, σ.pool.take = .ok r
  fifo : σ.log.dequeued <+: σ.log.enqueued
  distinct : σ.log.enqueued.Nodup
  once : (σ.log.executed ++ σ.log.discarded).Nodup

/-- Every task has been executed once or freed unexecuted once, and no node is left. -/
structure Settled {n : Nat} {U : Type} (σ : Sys n U) : Prop where
  once : ∀ t ∈ σ.log.submitted, σ.log.executed.count t + σ.log.discarded.count t = 1
  freed : ∀ a, a ∉ σ.pool.heap

/-- No call of `pool_add_worker` overlaps `pool_destroy` or comes after it. -/
def Orderly {n : Nat} {U : Type} (σ : Sys n U) : Act n U → Prop
  | .call _ _ _ _ => σ.destroy = .idle
  | .destroy => ∀ c, σ.adding c = .idle
  | _ => True

instance {n : Nat} {U : Type} [Fintype U] (σ : Sys n U) (act : Act n U) :
    Decidable (Orderly σ act) :=
  match act with
  | .call _ _ _ _ => inferInstanceAs (Decidable (σ.destroy = .idle))
  | .destroy => inferInstanceAs (Decidable (∀ c, σ.adding c = .idle))
  | .worker _ _ => .isTrue trivial
  | .link _ => .isTrue trivial
  | .signal _ _ => .isTrue trivial
  | .broadcast => .isTrue trivial
  | .join => .isTrue trivial
  | .free => .isTrue trivial

section
variable {n : Nat} {U : Type} {σ σ' : Sys n U} {place : Addr → Place n U} {xs : List Addr}
  {queue : List Task}

theorem Inv.law (I : Inv σ place xs queue) (C : Control σ) : Kept σ := by
  constructor
  · exact ⟨xs, queue, I.chain, I.tasks, I.valid.order, I.size⟩
  · exact I.nothing_discarded
  · intro c a built
    have spec := I.appends built
    split at spec
    · obtain ⟨p, ret, _⟩ := spec
      exact .inl ⟨p, ret⟩
    · exact .inr ⟨spec, by omega⟩
  · intro w working
    obtain ⟨_, _, _, _, _, _, ret⟩ := I.takes C working
    exact ⟨_, ret⟩
  · exact I.valid.fifo
  · exact I.valid.entering.once
  · exact I.valid.once

theorem Inv.settled (I : Inv σ place xs queue) (C : Control σ) (done : σ.destroy = .done)
    (idle : ∀ c, σ.adding c = .idle) : Settled σ := by
  have empty := I.emptied done
  have exited (w : Fin n) : σ.pc w = .exited := C.joined w (by rw [done]; trivial)
  have tasks := I.tasks
  rw [empty] at tasks
  constructor
  · apply I.valid.settled
    · intro c
      simp [Sys.tasks, idle, Adding.node]
    · exact List.map_eq_nil_iff.mp tasks.symm
    · intro w
      simp [Sys.tasks, exited, Pc.due]
  · intro a live
    have at_a := (I.placed.live a).mpr live
    cases h : place a with
    | gone => exact at_a h
    | queued => simpa [empty] using (I.placed.queued a).mp h
    | built c => simpa [idle, Adding.node] using (I.placed.built c a).mp h
    | held w => simpa [exited, Pc.node] using (I.placed.held w a).mp h

variable [DecidableEq U]

/-- Only a call takes a caller into `pool_add_worker`. -/
theorem step_adding {act : Act n U} (step : Step σ act σ') (idle : ∀ c, σ.adding c = .idle)
    (called : ∀ c a process arg, act ≠ .call c a process arg) : ∀ c, σ'.adding c = .idle := by
  cases step_move step with
  | worker turn =>
    obtain ⟨_, _, _, same, _⟩ := turn.frame
    rwa [same]
  | @call c a process arg _ _ => exact absurd rfl (called c a process arg)
  | @link c _ _ _ built _ _ _ _ => cases (idle c).symm.trans built
  | @signal c _ _ linked _ => cases (idle c).symm.trans linked
  | _ => exact idle

/-- `pool_destroy` begins with its own first step. -/
theorem step_undestroyed {act : Act n U} (step : Step σ act σ') (idle : σ.destroy = .idle) :
    act = .destroy ∨ σ'.destroy = .idle := by
  cases step_move step with
  | worker turn =>
    obtain ⟨_, _, _, _, same⟩ := turn.frame
    exact .inr (same.trans idle)
  | call _ _ | link _ _ _ _ _ => exact .inr idle
  | signal _ ret =>
    rcases notify_cases ret with rfl | ⟨_, _, rfl⟩
    · exact .inr idle
    · exact .inr idle
  | refused | destroy _ => exact .inl rfl
  | broadcast set => cases idle.symm.trans set
  | join _ joining _ | joined _ joining => cases idle.symm.trans joining
  | free freeing _ _ | freed freeing _ => cases idle.symm.trans freeing

/-- In an orderly run nobody adds once `pool_destroy` has begun. -/
theorem orderly_adding {acts : List (Act n U)} (run : Run (When Orderly Step) start acts σ) :
    σ.destroy ≠ .idle → ∀ c, σ.adding c = .idle := by
  apply run_when_invariant (I := fun σ : Sys n U => σ.destroy ≠ .idle → ∀ c, σ.adding c = .idle)
    ?_ ?_ run
  · exact fun h => absurd rfl h
  · intro σ act σ' kept orderly step begun
    by_cases idle : σ.destroy = .idle
    · rcases step_undestroyed step idle with rfl | h
      · exact step_adding step orderly (by simp)
      · exact absurd h begun
    · apply step_adding step (kept idle)
      rintro c a process arg rfl
      exact idle orderly

/-- In every run the list, its counter and its asserts hold, tasks come out in the order in
which they went in, and none is executed twice. Where no add overlaps or follows
`pool_destroy`, every task has been executed once or freed once when it returns. -/
theorem tasks_kept (n : Nat) (U : Type) [DecidableEq U] :
    (∀ acts σ, Run Step (start : Sys n U) acts σ → Kept σ) ∧
      ∀ acts σ, Run (When Orderly Step) (start : Sys n U) acts σ → σ.destroy = .done →
        Settled σ := by
  constructor
  · intro acts σ run
    obtain ⟨C, _, _, _, I⟩ := run_inv run
    exact I.law C
  · intro acts σ run done
    obtain ⟨C, _, _, _, I⟩ := run_inv run.of_when
    exact I.settled C done (orderly_adding run (by simp [done]))

end

/-- One worker executes the first of two tasks and exits; `pool_destroy` frees the second. -/
def oneServed : List (Act 1 Unit) :=
  [.call (.inr ()) 1 8 9, .link (.inr ()), .signal (.inr ()) none,
    .call (.inr ()) 2 8 10, .link (.inr ()), .signal (.inr ()) none,
    .worker 0 .lock, .worker 0 .test, .worker 0 .check, .worker 0 .take, .worker 0 .run,
    .destroy, .broadcast, .worker 0 .finish, .worker 0 .lock, .worker 0 .test, .worker 0 .check,
    .join, .join, .free, .free]

theorem one_served_settled : ∃ σ, Run (When Orderly Step) (start : Sys 1 Unit) oneServed σ ∧
    (σ.log.executed, σ.log.discarded) = ([⟨0, 8, 9⟩], [⟨1, 8, 10⟩]) ∧ Settled σ := by
  have ran : (execute (fun σ act => if Orderly σ act then σ.step act else none) start
      oneServed).map (fun σ => (σ.destroy, σ.log.executed, σ.log.discarded)) =
      some (.done, [⟨0, 8, 9⟩], [⟨1, 8, 10⟩]) := by
    decide
  obtain ⟨σ, ret, eq⟩ := Option.map_eq_some_iff.mp ran
  have run : Run (When Orderly Step) (start : Sys 1 Unit) oneServed σ := by
    apply execute_run ?_ ret
    intro s l t step
    exact Option.ite_none_right_eq_some.mp step
  obtain ⟨done, lists⟩ := Prod.mk.inj eq
  exact ⟨σ, run, lists, (tasks_kept 1 Unit).2 _ _ run done⟩

/-- The loop that frees the queue leaves `cur_queue_size` alone. -/
theorem freeing_keeps_counter : ∃ acts σ, Run Step (start : Sys 1 Unit) acts σ ∧
    Chain σ.pool.next σ.pool.queueHead [] ∧ σ.pool.curQueueSize = 1 := by
  have ran : (execute Sys.step (start : Sys 1 Unit) [.call (.inr ()) 1 8 9, .link (.inr ()),
      .destroy, .broadcast, .worker 0 .lock, .worker 0 .test, .worker 0 .check, .join, .join,
      .free]).map (fun σ => (σ.pool.queueHead, σ.pool.curQueueSize)) = some (none, 1) := by
    decide
  obtain ⟨σ, ret, eq⟩ := Option.map_eq_some_iff.mp ran
  obtain ⟨head, size⟩ := Prod.mk.inj eq
  exact ⟨_, σ, execute_run (fun _ _ _ step => step) ret, head, size⟩

end LearnC.Thread.CPool
