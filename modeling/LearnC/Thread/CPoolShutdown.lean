import LearnC.Thread.CPoolControl

/-! Whether the workers of the thread pool learn of its shutdown. `pool_destroy` writes
`shutdown` without `queue_lock`, so that its broadcast can fall between a worker's test
and its wait. -/

namespace LearnC.Thread.CPool

def Destroy.Issued : Destroy → Prop
  | .idle => False
  | .set => False
  | _ => True

/-- The broadcast is over, and a worker waits for it. -/
def Sys.Missed {n : Nat} {U : Type} (σ : Sys n U) : Prop :=
  σ.pool.shutdown = true ∧ σ.destroy.Issued ∧ ∃ w, σ.pc w = .blocked

def Prompt {n : Nat} {U : Type} (σ : Sys n U) : Act n U → Prop
  | .worker _ .wait => ¬ σ.destroy.Issued
  | _ => True

section
variable {n : Nat} {U : Type} {σ σ' : Sys n U} {acts : List (Act n U)} {w : Fin n}

theorem Control.missed_iff (C : Control σ) :
    σ.Missed ↔ σ.destroy.Issued ∧ ∃ w, σ.pc w = .blocked := by
  refine ⟨And.right, fun h => ⟨C.begun.mpr ?_, h⟩⟩
  intro idle
  rw [idle] at h
  exact h.1

variable [DecidableEq U]

/-- Only a wait blocks a worker, and behind its broadcast `pool_destroy` stays there. -/
theorem step_blocks {act : Act n U} (step : Step σ act σ') (issued : σ'.destroy.Issued)
    (blocked : σ'.pc w = .blocked) :
    σ.destroy.Issued ∧ (σ.pc w = .blocked ∨ act = .worker w .wait) := by
  cases step_move step with
  | @worker v act _ turn =>
    obtain ⟨pc, pcs, wait, _, destroy⟩ := turn.frame
    rw [destroy] at issued
    rw [pcs, Function.update_apply] at blocked
    split at blocked
    · next eq =>
      rw [wait.mp blocked, eq]
      exact ⟨issued, .inr rfl⟩
    · exact ⟨issued, .inl blocked⟩
  | call _ _ | link _ _ _ _ _ | refused => exact ⟨issued, .inl blocked⟩
  | signal _ ret =>
    rcases notify_cases ret with rfl | ⟨v, pc, rfl⟩
    · exact ⟨issued, .inl blocked⟩
    · refine ⟨issued, .inl ?_⟩
      by_cases eq : w = v
      · exact eq ▸ pc
      · exact (Function.update_of_ne eq ..).symm.trans blocked
  | destroy _ => exact issued.elim
  | broadcast _ =>
    simp only [Sys.wakeAll] at blocked
    split at blocked
    · cases blocked
    · next awake => exact absurd blocked awake
  | join _ joining _ | joined _ joining =>
    refine ⟨?_, .inl blocked⟩
    rw [joining]
    trivial
  | free freeing _ _ | freed freeing _ =>
    refine ⟨?_, .inl blocked⟩
    rw [freeing]
    trivial

theorem step_prompt_iff {act : Act n U} (C : Control σ) (seen : ¬ σ.Missed)
    (step : Step σ act σ') : Prompt σ act ↔ ¬ σ'.Missed := by
  have C' := step_control C step
  rw [C.missed_iff] at seen
  rw [C'.missed_iff]
  constructor
  · rintro prompt ⟨issued, w, blocked⟩
    obtain ⟨before, pc | rfl⟩ := step_blocks step issued blocked
    · exact seen ⟨before, w, pc⟩
    · exact prompt before
  · intro seen'
    cases act with
    | worker w act =>
      cases act with
      | wait =>
        intro issued
        have waited : σ.worker w .wait = some σ' := step
        obtain ⟨pc, pcs, wait, _, destroy⟩ := (worker_turn waited).frame
        refine seen' ⟨destroy ▸ issued, w, ?_⟩
        rw [pcs, Function.update_self, wait.mpr rfl]
      | _ => trivial
    | _ => trivial

/-- The shutdown is missed in no state of a run just where no worker begins to wait
once the broadcast has been issued. -/
theorem shutdown_seen_iff :
    Run (When Prompt Step) (start : Sys n U) acts σ ↔
      Run (Into (fun σ => ¬ σ.Missed) Step) start acts σ := by
  apply run_when_iff_into start_control fun _ _ _ C step => step_control C step
  · rintro ⟨up, _⟩
    cases up
  · exact fun _ _ _ C seen step => step_prompt_iff C seen step

end

/-- The worker has tested `shutdown` before `pool_destroy` writes it, and waits after the
broadcast. -/
theorem broadcast_before_wait : ∃ acts σ, Run Step (start : Sys 1 Unit) acts σ ∧ σ.Missed := by
  have ran : (execute Sys.step (start : Sys 1 Unit) [.worker 0 .lock, .worker 0 .test, .destroy,
      .broadcast, .worker 0 .wait]).map (fun σ => (σ.pool.shutdown, σ.destroy, σ.pc 0)) =
      some (true, .joining 0, .blocked) := by
    decide
  obtain ⟨σ, ret, eq⟩ := Option.map_eq_some_iff.mp ran
  simp only [Prod.mk.injEq] at eq
  obtain ⟨up, joining, blocked⟩ := eq
  refine ⟨_, σ, execute_run (fun _ _ _ step => step) ret, up, ?_, 0, blocked⟩
  rw [joining]
  trivial

end LearnC.Thread.CPool
