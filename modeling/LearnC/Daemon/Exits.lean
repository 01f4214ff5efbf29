import LearnC.Daemon.Guard

/-! Which worker's poll takes the exit of a child. -/

namespace LearnC.Daemon

/-- The workers that have no child where the guard stands here. -/
def Pc.Childless : Pc → Nat → Prop
  | .boot i, j => i ≤ j
  | .judge i, j => i = j
  | .restart i, j => i = j
  | _, _ => False

/-- Each child has a pid of its own, which its worker has stored. -/
structure Kin (σ : Sys) : Prop where
  pids : (σ.children.map Child.pid).Nodup
  pos : ∀ c ∈ σ.children, 0 < c.pid
  own : ∀ c ∈ σ.children, (σ.workers c.owner).pid = c.pid
  childless : ∀ i, σ.pc.Childless i → ∀ c ∈ σ.children, c.owner ≠ i

/-- Each exit has been taken by the poll of the worker that the child was started for,
and seen there. -/
def Attributed (σ : Sys) : Prop :=
  ∀ i c seen, .reaped i c seen ∈ σ.log → c.owner = i ∧ seen = true

/-- No worker polls with -1 while some child has exited, or with the pid of a child that
has exited and is not its own. -/
def Unmistaken (σ : Sys) : Act → Prop
  | .poll _ => ∀ i, σ.pc = .poll i → ∀ c ∈ σ.children, c.exited = true →
      (σ.workers i).pid ≠ -1 ∧ (c.pid = (σ.workers i).pid → c.owner = i)
  | _ => True

section
variable {n i j : Nat} {σ σ' τ : Sys} {a : Act} {c c' : Child} {pid pick now : Int}
  {found : Waited}

theorem answers_iff : c.answers pid = true ↔ pid = -1 ∨ c.pid = pid := by
  simp [Child.answers]

theorem start_kin (workers : Nat → Worker) : Kin (start workers) :=
  ⟨List.nodup_nil, nofun, nofun, nofun⟩

theorem Kin.eq_of_pid (K : Kin σ) (hc : c ∈ σ.children) (hc' : c' ∈ σ.children)
    (same : c.pid = c'.pid) : c = c' := List.inj_on_of_nodup_map K.pids hc hc' same

theorem Kin.of_children (K : Kin σ) (sub : σ'.children.Sublist σ.children)
    (workers : ∀ j, (σ'.workers j).pid = (σ.workers j).pid)
    (childless : ∀ i, σ'.pc.Childless i → ∀ c ∈ σ'.children, c.owner ≠ i) : Kin σ' := by
  refine ⟨K.pids.sublist (sub.map _), fun c hc => K.pos c (sub.mem hc), ?_, childless⟩
  intro c hc
  rw [workers, K.own c (sub.mem hc)]

theorem after_childless : ¬ (Pc.after n i).Childless j := by
  unfold Pc.after
  split <;> exact id

theorem booted_childless (h : (Pc.booted n i).Childless j) : i < j := by
  unfold Pc.booted at h
  split at h
  · exact h
  · exact h.elim

theorem Kin.fork {fork : Option Int} (K : Kin σ) (step : Step n σ (.fork fork now) σ') :
    Kin σ' := by
  obtain ⟨i, τ, started, workers, children, _, at_pc⟩ := fork_cases step
  -- The worker has no child before, and behind it only the later ones have none.
  have before : σ.pc.Childless i := by
    rcases at_pc with ⟨pc, _⟩ | ⟨pc, _⟩ <;> simp [pc, Pc.Childless]
  have behind (j : Nat) (h : σ'.pc.Childless j) : σ.pc.Childless j ∧ i ≠ j := by
    rcases at_pc with ⟨pc, _, pc'⟩ | ⟨_, pc'⟩
    · rw [pc'] at h
      have lt := booted_childless h
      rw [pc]
      exact ⟨Nat.le_of_lt lt, Nat.ne_of_lt lt⟩
    · exact absurd (pc' ▸ h) after_childless
  rcases startWorker_cases started with ⟨_, rfl⟩ | ⟨pid, _, pos, new, workers', children', _⟩
  · apply K.of_children
    · rw [children]
    · simp [workers]
    · intro j hj c hc
      exact K.childless j (behind j hj).1 c (children ▸ hc)
  · rw [workers'] at workers
    rw [children'] at children
    constructor
    · rw [children, List.map_append, List.nodup_append]
      refine ⟨K.pids, List.nodup_singleton _, ?_⟩
      intro p hp q hq
      obtain ⟨c, hc, rfl⟩ := List.mem_map.mp hp
      obtain rfl := List.mem_singleton.mp hq
      exact new c hc
    · rw [children, List.forall_mem_append]
      exact ⟨K.pos, by simpa using pos⟩
    · rw [children, List.forall_mem_append, workers]
      refine ⟨?_, by simp⟩
      intro c hc
      rw [Function.update_of_ne (K.childless i before c hc), K.own c hc]
    · intro j hj
      rw [children, List.forall_mem_append]
      exact ⟨K.childless j (behind j hj).1, by simpa using (behind j hj).2⟩

/-- Where `waitpid` has returned `w->pid`, the worker has no child. -/
theorem Kin.polled (K : Kin σ) (waited : waitpid σ.children (σ.workers i).pid pick = some found)
    (seen : found.res = (σ.workers i).pid) (hc : c ∈ found.children σ.children) :
    c.owner ≠ i := by
  rintro rfl
  rcases waitpid_cases waited with ⟨rfl, none⟩ | ⟨rfl, some, _⟩ | ⟨d, hd, rfl, _⟩
  · have := none c hc
    simp [Child.answers, ← seen, Waited.res] at this
  · have own := K.own c hc
    have pos := K.pos c hc
    simp only [Waited.res] at seen
    omega
  · have same : c = d := K.eq_of_pid (List.mem_of_mem_erase hc) hd
      ((K.own c (List.mem_of_mem_erase hc)).symm.trans seen.symm)
    subst same
    exact (K.pids.of_map _).not_mem_erase hc

theorem children_sublist (found : Waited) (cs : List Child) :
    (found.children cs).Sublist cs := by
  cases found with
  | noChild | running => exact List.Sublist.refl _
  | reaped c => exact List.erase_sublist

theorem Kin.step (K : Kin σ) (step : Step n σ a σ') : Kin σ' := by
  cases a with
  | fork => exact K.fork step
  | poll =>
    obtain ⟨i, found, pc, waited, rfl⟩ := poll_cases step
    refine K.of_children (children_sublist found _) (fun _ => rfl) ?_
    intro j hj c hc
    simp only at hj hc
    split at hj
    next seen =>
      obtain rfl := hj
      exact K.polled waited (by simpa using seen) hc
    next => exact (after_childless hj).elim
  | judge =>
    obtain ⟨i, count, pc, _, rfl⟩ := judge_cases step
    refine K.of_children (List.Sublist.refl _) ?_ ?_
    · intro j
      simp only [Function.update_apply]
      split
      next same => rw [same]
      next => rfl
    · intro j hj
      apply K.childless
      rw [pc]
      simp only at hj
      split at hj
      · exact hj
      · exact (after_childless hj).elim
  | rest =>
    obtain ⟨pc, rfl⟩ := rest_cases step
    exact K.of_children (List.Sublist.refl _) (fun _ => rfl) fun _ hj => hj.elim
  | exit pid =>
    obtain ⟨_, rfl⟩ := exit_cases step
    -- Only `exited` changes.
    have same (c : Child) : (if c.pid = pid then { c with exited := true } else c).pid = c.pid ∧
        (if c.pid = pid then { c with exited := true } else c).owner = c.owner := by
      split <;> exact ⟨rfl, rfl⟩
    constructor
    · rw [List.map_map]
      exact (List.map_congr_left fun c _ => (same c).1) ▸ K.pids
    · simpa [same] using K.pos
    · simpa [same] using K.own
    · simpa [same] using K.childless

/-- Given that all exits so far were taken by their own workers, the next one is just
where no worker can mistake it. -/
theorem step_unmistaken_iff (K : Kin σ) (own : Attributed σ) (step : Step n σ a σ') :
    Unmistaken σ a ↔ Attributed σ' := by
  cases a with
  | fork =>
    refine iff_of_true trivial ?_
    obtain ⟨i, τ, started, _, _, log, _⟩ := fork_cases step
    intro j c seen mem
    rw [log] at mem
    rcases startWorker_cases started with ⟨_, rfl⟩ | ⟨pid, _, _, _, _, _, log'⟩
    · exact own j c seen mem
    · exact own j c seen (by simpa [log'] using mem)
  | judge =>
    refine iff_of_true trivial ?_
    obtain ⟨i, count, pc, _, rfl⟩ := judge_cases step
    intro j c seen mem
    exact own j c seen (by simpa using mem)
  | rest =>
    obtain ⟨_, rfl⟩ := rest_cases step
    exact iff_of_true trivial own
  | exit =>
    obtain ⟨_, rfl⟩ := exit_cases step
    exact iff_of_true trivial own
  | poll =>
    obtain ⟨i, found, pc, waited, rfl⟩ := poll_cases step
    rcases waitpid_cases waited with ⟨rfl, none⟩ | ⟨rfl, _, none⟩ | ⟨d, hd, rfl, answers, exited⟩
    · refine iff_of_true ?_ (by simpa [Attributed] using own)
      intro j hj c hc _
      obtain rfl := Pc.poll.inj (pc.symm.trans hj)
      have not := none c hc
      rw [← Bool.not_eq_true, answers_iff, not_or] at not
      exact ⟨not.1, fun e => absurd e not.2⟩
    · refine iff_of_true ?_ (by simpa [Attributed] using own)
      intro j hj c hc exited
      obtain rfl := Pc.poll.inj (pc.symm.trans hj)
      have not : ¬ c.answers (σ.workers i).pid = true := fun h => by simp [none c hc h] at exited
      rw [answers_iff, not_or] at not
      exact ⟨not.1, fun e => absurd e not.2⟩
    · constructor
      · intro unmistaken
        obtain ⟨set, mine⟩ := unmistaken i pc d hd exited
        have pid := (answers_iff.mp answers).resolve_left set
        intro j c seen mem
        rw [List.mem_append] at mem
        rcases mem with mem | mem
        · exact own j c seen mem
        · simp only [List.mem_singleton, Event.reaped.injEq] at mem
          obtain ⟨rfl, rfl, rfl⟩ := mem
          exact ⟨mine pid, by simpa [Waited.res] using pid⟩
      · intro attributed j hj c hc exited'
        obtain rfl := Pc.poll.inj (pc.symm.trans hj)
        obtain ⟨mine, _⟩ := attributed i d _ (List.mem_append_right _ List.mem_cons_self)
        have pid : (σ.workers i).pid = d.pid := mine ▸ K.own d hd
        have pos := K.pos d hd
        refine ⟨by omega, fun same => ?_⟩
        rw [K.eq_of_pid hc hd (same.trans pid), mine]

end

section
variable {n : Nat} {workers : Nat → Worker} {acts : List Act} {σ : Sys}

/-- The exits are all taken by their own workers in just those runs in which no worker
polls with -1 while a child has exited, or with the pid of another worker's child that
has exited. -/
theorem exits_attributed_iff :
    Run (When Unmistaken (Step n)) (start workers) acts σ ↔
      Run (Into Attributed (Step n)) (start workers) acts σ :=
  run_when_iff_into (start_kin workers) (fun _ _ _ K step => K.step step) nofun
    fun _ _ _ K own step => step_unmistaken_iff K own step

end

/-- A worker with the defaults of `parse_args`. -/
def sample : Worker where
  command := []
  name := []
  pid := -1
  maxRestarts := 3
  restartDelay := 1
  restartCount := 0
  lastRestart := 0

/-- The first worker's `fork` fails, the child of the second exits. -/
def oneForkFails : List Act := [.fork none 0, .fork (some 7) 0, .exit 7, .poll 7, .poll 0]

/-- The first worker's poll takes the exit and passes over it; the second worker's poll
finds no child. -/
theorem exit_swallowed : ∃ σ, Run (Step 2) (start fun _ => sample) oneForkFails σ ∧
    σ.pc = .rest ∧ σ.children = [] ∧ σ.log = [.started 1, .reaped 0 ⟨7, 1, true⟩ false] ∧
      ¬ Attributed σ := by
  have ran : (execute (Sys.step 2) (start fun _ => sample) oneForkFails).map
      (fun σ => (σ.pc, σ.children, σ.log)) =
      some (.rest, [], [.started 1, .reaped 0 ⟨7, 1, true⟩ false]) := rfl
  obtain ⟨σ, ret, eq⟩ := Option.map_eq_some_iff.mp ran
  simp only [Prod.mk.injEq] at eq
  obtain ⟨pc, children, log⟩ := eq
  refine ⟨σ, execute_run (fun _ _ _ step => step) ret, pc, children, log, ?_⟩
  intro own
  cases (own 0 ⟨7, 1, true⟩ false (by simp [log])).2

end LearnC.Daemon
