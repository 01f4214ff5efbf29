import LearnC.Daemon.Exits
import Mathlib.Data.List.TakeWhile

/-! How often a worker is started again. -/

namespace LearnC.Daemon

/-- How often worker `i` was started. -/
def starts (log : List Event) (i : Nat) : Nat := log.count (.started i)

/-- How many exits of children of worker `i` were taken. -/
def exits (log : List Event) (i : Nat) : Nat :=
  log.countP fun
    | .reaped _ c _ => c.owner == i
    | _ => false

/-- The judgements on worker `i`: whether the exit was quick, and whether the worker is
started again. -/
def outcomes (log : List Event) (i : Nat) : List (Bool × Bool) :=
  log.filterMap fun
    | .judged j quick again => if j = i then some (quick, again) else none
    | _ => none

/-- The exits of worker `i`: which were quick. -/
def Sys.quicks (σ : Sys) (i : Nat) : List Bool := (outcomes σ.log i).map Prod.fst

/-- The number of consecutive quick exits at the end. -/
def streak (quicks : List Bool) : Nat := (quicks.reverse.takeWhile id).length

/-- The starts that are still to come: the first one in `main`, and one after a judgement. -/
def Pc.owed : Pc → Nat → Nat
  | .boot k, i => if k ≤ i then 1 else 0
  | .restart k, i => if k = i then 1 else 0
  | _, _ => 0

/-- The judgement that is still to come after an exit. -/
def Pc.due : Pc → Nat → Nat
  | .judge k, i => if k = i then 1 else 0
  | _, _ => 0

/-- What `max_restarts` promises: every exit is judged; a worker is started again after
an exit that is not quick, and after the first `max_restarts` of consecutive quick ones,
and not after the next; and where it is not started again, there is nothing more. -/
structure Budget (σ : Sys) (i : Nat) : Prop where
  noticed : exits σ.log i = (outcomes σ.log i).length + σ.pc.due i
  decided : ∀ before quick again behind,
    outcomes σ.log i = before ++ (quick, again) :: behind →
      (again = true ↔ quick = false ∨
        (streak (before.map Prod.fst ++ [quick]) : Int) ≤ (σ.workers i).maxRestarts)
  started : starts σ.log i + σ.pc.owed i = 1 + (outcomes σ.log i).countP Prod.snd
  stopped : ∀ before quick behind, outcomes σ.log i = before ++ (quick, false) :: behind →
    behind = []

def Budgeted (n : Nat) (σ : Sys) : Prop := ∀ i < n, Budget σ i

/-- The consecutive quick exits of a worker stay below its `max_restarts`. -/
def Spared (σ : Sys) : Act → Prop
  | .judge now => ∀ i, σ.pc = .judge i → σ.Quick i now →
      (streak (σ.quicks i) + 1 : Int) < (σ.workers i).maxRestarts
  | _ => True

/-- The call of `fork`, if the step is one, succeeds. -/
def Act.Succeeds : Act → Prop
  | .fork none _ => False
  | _ => True

section
variable {log : List Event} {e : Event} {i j : Nat} {quicks : List Bool}

@[simp] theorem streak_quick : streak (quicks ++ [true]) = streak quicks + 1 := by
  simp [streak]

@[simp] theorem streak_slow : streak (quicks ++ [false]) = 0 := by simp [streak]

@[simp] theorem starts_started :
    starts (log ++ [.started j]) i = starts log i + if j = i then 1 else 0 := by
  by_cases same : j = i <;> simp [starts, same, List.count_append]

@[simp] theorem starts_reaped {c : Child} {seen : Bool} :
    starts (log ++ [.reaped j c seen]) i = starts log i := by
  simp [starts, List.count_append]

@[simp] theorem starts_judged {quick again : Bool} :
    starts (log ++ [.judged j quick again]) i = starts log i := by
  simp [starts, List.count_append]

@[simp] theorem exits_started : exits (log ++ [.started j]) i = exits log i := by
  simp [exits, List.countP_append]

@[simp] theorem exits_reaped {c : Child} {seen : Bool} :
    exits (log ++ [.reaped j c seen]) i = exits log i + if c.owner = i then 1 else 0 := by
  by_cases same : c.owner = i <;> simp [exits, same, List.countP_append]

@[simp] theorem exits_judged {quick again : Bool} :
    exits (log ++ [.judged j quick again]) i = exits log i := by
  simp [exits, List.countP_append]

@[simp] theorem outcomes_started : outcomes (log ++ [.started j]) i = outcomes log i := by
  simp [outcomes, List.filterMap_append]

@[simp] theorem outcomes_reaped {c : Child} {seen : Bool} :
    outcomes (log ++ [.reaped j c seen]) i = outcomes log i := by
  simp [outcomes, List.filterMap_append]

@[simp] theorem outcomes_judged {quick again : Bool} :
    outcomes (log ++ [.judged j quick again]) i =
      outcomes log i ++ if j = i then [(quick, again)] else [] := by
  by_cases same : j = i <;> simp [outcomes, same, List.filterMap_append]

end

/-- The loops stay among the `n` workers. -/
def Pc.Within (n : Nat) : Pc → Prop
  | .boot _ => True
  | .poll i => i < n
  | .judge i => i < n
  | .restart i => i < n
  | .rest => 0 < n

/-- While no worker has used up its restarts, each has a child unless it is about to be
started, and `restart_count` is the number of its last consecutive quick exits. -/
structure Tended (n : Nat) (σ : Sys) : Prop where
  kin : Kin σ
  within : σ.pc.Within n
  child : ∀ i < n, ¬ σ.pc.Childless i → ∃ c ∈ σ.children, c.owner = i
  count : ∀ i, (σ.workers i).restartCount = streak (σ.quicks i)
  below : ∀ i < n, (streak (σ.quicks i) : Int) < (σ.workers i).maxRestarts
  again : ∀ i, ∀ o ∈ outcomes σ.log i, o.2 = true
  noticed : ∀ i < n, exits σ.log i = (outcomes σ.log i).length + σ.pc.due i
  decided : ∀ i < n, ∀ before quick again behind,
    outcomes σ.log i = before ++ (quick, again) :: behind →
      quick = false ∨ (streak (before.map Prod.fst ++ [quick]) : Int) ≤ (σ.workers i).maxRestarts
  started : ∀ i < n, starts σ.log i + σ.pc.owed i = 1 + (outcomes σ.log i).countP Prod.snd

section
variable {n i j : Nat} {σ σ' τ : Sys} {a : Act} {pid pick now : Int} {found : Waited}
  {workers : Nat → Worker}

theorem Tended.within_at {pc : Pc} (T : Tended n σ) (here : σ.pc = pc) : pc.Within n :=
  here ▸ T.within

theorem Tended.budgeted (T : Tended n σ) : Budgeted n σ := by
  intro i lt
  refine ⟨T.noticed i lt, ?_, T.started i lt, ?_⟩
  · intro before quick again behind eq
    have yes : again = true := T.again i (quick, again) (by simp [eq])
    exact iff_of_true yes (T.decided i lt before quick again behind eq)
  · intro before quick behind eq
    have := T.again i (quick, false) (by simp [eq])
    cases this

theorem start_tended (workers : Nat → Worker) (zero : ∀ i, (workers i).restartCount = 0)
    (pos : ∀ i < n, 1 ≤ (workers i).maxRestarts) : Tended n (start workers) := by
  constructor
  · exact start_kin workers
  · trivial
  · intro i _ child
    exact absurd (Nat.zero_le i) child
  · exact zero
  · intro i lt
    exact pos i lt
  · intro i o mem
    cases mem
  · intro i _
    rfl
  · intro i _ before quick again behind eq
    cases before <;> cases eq
  · intro i _
    simp [start, starts, outcomes, Pc.owed]

theorem after_within : (Pc.after n i).Within n ↔ 0 < n := by
  unfold Pc.after
  split
  next lt => exact iff_of_true lt (by omega)
  next => exact Iff.rfl

@[simp] theorem after_owed : (Pc.after n i).owed j = 0 := by
  unfold Pc.after
  split <;> rfl

@[simp] theorem after_due : (Pc.after n i).due j = 0 := by
  unfold Pc.after
  split <;> rfl

@[simp] theorem booted_due : (Pc.booted n i).due j = 0 := by
  unfold Pc.booted
  split <;> rfl

theorem booted_owed (lt : j < n) :
    (Pc.booted n i).owed j + (if i = j then 1 else 0) = (Pc.boot i).owed j := by
  unfold Pc.booted
  split <;> simp only [Pc.owed] <;> split_ifs <;> omega

theorem booted_within (lt : i < n) : (Pc.booted n i).Within n := by
  unfold Pc.booted
  split
  · trivial
  · exact Nat.lt_of_le_of_lt (Nat.zero_le _) lt

/-- Behind the start of worker `i` the later ones have no child yet. -/
theorem childless_booted (lt : j < n) (le : i ≤ j) (ne : i ≠ j) : (Pc.booted n i).Childless j := by
  unfold Pc.booted
  split
  · exact Nat.lt_of_le_of_ne le ne
  · omega

/-- What is left to show for a step that judges nobody. -/
theorem Tended.keep (T : Tended n σ) (step : Step n σ a σ') (within : σ'.pc.Within n)
    (child : ∀ i < n, ¬ σ'.pc.Childless i → ∃ c ∈ σ'.children, c.owner = i)
    (fields : ∀ j, (σ'.workers j).restartCount = (σ.workers j).restartCount ∧
      (σ'.workers j).maxRestarts = (σ.workers j).maxRestarts)
    (outcomes : ∀ j, outcomes σ'.log j = outcomes σ.log j)
    (noticed : ∀ i < n, exits σ'.log i + σ.pc.due i = exits σ.log i + σ'.pc.due i)
    (started : ∀ i < n, starts σ'.log i + σ'.pc.owed i = starts σ.log i + σ.pc.owed i) :
    Tended n σ' := by
  have quicks (j : Nat) : σ'.quicks j = σ.quicks j := by rw [Sys.quicks, Sys.quicks, outcomes]
  refine ⟨T.kin.step step, within, child, ?_, ?_, ?_, ?_, ?_, ?_⟩
  · intro j
    rw [(fields j).1, quicks, T.count]
  · intro j lt
    rw [(fields j).2, quicks]
    exact T.below j lt
  · intro j
    rw [outcomes]
    exact T.again j
  · intro j lt
    have same := noticed j lt
    have old := T.noticed j lt
    rw [outcomes]
    omega
  · intro j lt
    rw [outcomes, (fields j).2]
    exact T.decided j lt
  · intro j lt
    rw [outcomes, started j lt, T.started j lt]

theorem Tended.fork (T : Tended n σ) (step : Step n σ (.fork (some pid) now) σ') :
    Tended n σ' := by
  obtain ⟨i, τ, started, workers, children, log, at_pc⟩ := fork_cases step
  rcases startWorker_cases started with ⟨none, _⟩ | ⟨pid, _, _, _, workers', children', log'⟩
  · cases none
  rw [workers'] at workers
  rw [children'] at children
  rw [log'] at log
  apply T.keep step
  · rcases at_pc with ⟨_, lt, pc'⟩ | ⟨pc, pc'⟩
    · exact pc' ▸ booted_within lt
    · have lt : i < n := T.within_at pc
      rw [pc', after_within]
      exact Nat.lt_of_le_of_lt (Nat.zero_le _) lt
  · intro j lt child
    rw [children]
    by_cases same : i = j
    · exact ⟨⟨pid, i, false⟩, by simp, same⟩
    · have old : ¬ σ.pc.Childless j := by
        rcases at_pc with ⟨pc, _, pc'⟩ | ⟨pc, _⟩
        · rw [pc]
          exact fun le => child (pc' ▸ childless_booted lt le same)
        · rw [pc]
          exact same
      obtain ⟨c, hc, own⟩ := T.child j lt old
      exact ⟨c, List.mem_append_left _ hc, own⟩
  · intro j
    rw [workers, Function.update_apply]
    split
    next same => exact same ▸ ⟨rfl, rfl⟩
    next => exact ⟨rfl, rfl⟩
  · intro j
    rw [log, outcomes_started]
  · intro j _
    rcases at_pc with ⟨pc, _, pc'⟩ | ⟨pc, pc'⟩
    · rw [log, exits_started, pc, pc', booted_due]
      rfl
    · rw [log, exits_started, pc, pc', after_due]
      rfl
  · intro j lt
    rw [log, starts_started]
    rcases at_pc with ⟨pc, _, pc'⟩ | ⟨pc, pc'⟩
    · rw [pc, pc', ← booted_owed lt]
      omega
    · rw [pc, pc', after_owed, Pc.owed]
      omega

/-- A poll finds the worker's own child, running or not. -/
theorem Tended.poll (T : Tended n σ) (step : Step n σ (.poll pick) σ') : Tended n σ' := by
  have step' := step
  obtain ⟨i, found, pc, waited, rfl⟩ := poll_cases step
  have lt : i < n := T.within_at pc
  obtain ⟨c, hc, mine⟩ := T.child i lt (by simp [pc, Pc.Childless])
  have pid : (σ.workers i).pid = c.pid := mine ▸ T.kin.own c hc
  have pos := T.kin.pos c hc
  have answers : c.answers (σ.workers i).pid = true := by simp [Child.answers, pid]
  have others (j : Nat) (lt : j < n) : ∃ c ∈ σ.children, c.owner = j :=
    T.child j lt (by simp [pc, Pc.Childless])
  rcases waitpid_cases waited with ⟨_, none⟩ | ⟨rfl, _, _⟩ | ⟨d, hd, rfl, own, _⟩
  · simp [none c hc] at answers
  · have unseen : (Waited.running.res == (σ.workers i).pid) = false := by
      simp only [Waited.res, beq_eq_false_iff_ne]
      omega
    simp only [unseen, Waited.children, List.append_nil] at step' ⊢
    apply T.keep step'
    · exact after_within.mpr (Nat.lt_of_le_of_lt (Nat.zero_le _) lt)
    · exact fun j lt _ => others j lt
    · exact fun _ => ⟨rfl, rfl⟩
    · exact fun _ => rfl
    · intro j _
      rw [if_neg (by simp), pc, after_due]
      rfl
    · intro j _
      rw [if_neg (by simp), pc, after_owed]
      rfl
  · have same : d = c := by
      rcases answers_iff.mp own with none | eq
      · omega
      · exact T.kin.eq_of_pid hd hc (eq.trans pid)
    subst same
    have seen : ((Waited.reaped d).res == (σ.workers i).pid) = true := by
      simp [Waited.res, pid]
    simp only [seen, Waited.children] at step' ⊢
    apply T.keep step'
    · exact lt
    · intro j lt' other
      obtain ⟨c', hc', own'⟩ := others j lt'
      refine ⟨c', (List.mem_erase_of_ne ?_).mpr hc', own'⟩
      rintro rfl
      exact other (mine.symm.trans own')
    · exact fun _ => ⟨rfl, rfl⟩
    · exact fun j => outcomes_reaped
    · intro j _
      simp only [exits_reaped, mine, pc, ↓reduceIte, Pc.due, Nat.add_zero]
    · simp [pc, Pc.owed]

theorem Tended.exit (T : Tended n σ) (step : Step n σ (.exit pid) σ') : Tended n σ' := by
  have step' := step
  obtain ⟨_, rfl⟩ := exit_cases step
  apply T.keep step' T.within
  · intro i lt child
    obtain ⟨c, hc, own⟩ := T.child i lt child
    refine ⟨_, List.mem_map_of_mem hc, ?_⟩
    split <;> exact own
  · exact fun _ => ⟨rfl, rfl⟩
  · exact fun _ => rfl
  · exact fun _ _ => rfl
  · exact fun _ _ => rfl

theorem Tended.rest (T : Tended n σ) (step : Step n σ .rest σ') : Tended n σ' := by
  have step' := step
  obtain ⟨pc, rfl⟩ := rest_cases step
  have pos : 0 < n := T.within_at pc
  apply T.keep step' pos
  · exact fun i lt _ => T.child i lt (by simp [pc, Pc.Childless])
  · exact fun _ => ⟨rfl, rfl⟩
  · exact fun _ => rfl
  · simp [pc, Pc.due]
  · simp [pc, Pc.owed]

/-- An exit that does not use up the restarts is followed by one. -/
theorem Tended.judge (T : Tended n σ) (step : Step n σ (.judge now) σ')
    (spared : Spared σ (.judge now)) : Tended n σ' := by
  have kin := T.kin.step step
  obtain ⟨i, count, pc, counted, rfl⟩ := judge_cases step
  have lt : i < n := T.within_at pc
  have below := T.below i lt
  have streak' : count = streak (σ.quicks i ++ [decide (σ.Quick i now)]) := by
    by_cases quick : σ.Quick i now <;> simp [counted, quick, T.count]
  have less : count < (σ.workers i).maxRestarts := by
    by_cases quick : σ.Quick i now
    · have := spared i pc quick
      simpa [counted, quick, T.count] using this
    · simp only [counted, quick, ↓reduceIte]
      omega
  simp only [less, decide_true, ↓reduceIte] at kin ⊢
  have quicks (j : Nat) : Sys.quicks { σ with
      workers := Function.update σ.workers i { σ.workers i with restartCount := count }
      pc := .restart i
      log := σ.log ++ [.judged i (σ.Quick i now) true] } j =
      σ.quicks j ++ if i = j then [decide (σ.Quick i now)] else [] := by
    by_cases same : i = j <;> simp [Sys.quicks, same]
  have max (j : Nat) : (Function.update σ.workers i
      { σ.workers i with restartCount := count } j).maxRestarts = (σ.workers j).maxRestarts := by
    rw [Function.update_apply]
    split
    next same => rw [same]
    next => rfl
  refine ⟨kin, lt, ?_, ?_, ?_, ?_, ?_, ?_, ?_⟩
  · intro j lt' child
    apply T.child j lt'
    rw [pc]
    exact child
  · intro j
    rw [quicks]
    by_cases same : i = j
    · subst same
      simpa using streak'
    · simpa [same, Function.update_of_ne (Ne.symm same)] using T.count j
  · intro j lt'
    rw [quicks, max]
    by_cases same : i = j
    · subst same
      simpa [← streak'] using less
    · simpa [same] using T.below j lt'
  · intro j o mem
    rw [outcomes_judged, List.mem_append] at mem
    rcases mem with mem | mem
    · exact T.again j o mem
    · split at mem
      · rw [List.mem_singleton.mp mem]
      · cases mem
  · intro j lt'
    have old := T.noticed j lt'
    simp only [pc, Pc.due] at old
    rw [exits_judged, outcomes_judged, List.length_append, old]
    by_cases same : i = j <;> simp [same, Pc.due]
  · intro j lt' before quick again behind eq
    rw [max]
    rw [outcomes_judged] at eq
    by_cases same : i = j
    · subst same
      simp only [↓reduceIte] at eq
      rcases concat_split eq with ⟨rfl, last, _⟩ | ⟨front, earlier, _⟩
      · obtain ⟨rfl, _⟩ := Prod.mk.inj last
        right
        change ((streak (σ.quicks i ++ [decide (σ.Quick i now)]) : Nat) : Int) ≤ _
        omega
      · exact T.decided i lt' before quick again front earlier
    · simp only [same, ↓reduceIte, List.append_nil] at eq
      exact T.decided j lt' before quick again behind eq
  · intro j lt'
    have old := T.started j lt'
    simp only [pc, Pc.owed] at old
    rw [starts_judged, outcomes_judged, List.countP_append]
    by_cases same : i = j <;> simp [same, Pc.owed] <;> omega

/-- A worker that has used up its restarts gets one less than promised. -/
theorem Tended.spared (T : Tended n σ) (step : Step n σ a σ') (budget : Budgeted n σ') :
    Spared σ a := by
  cases a with
  | judge now =>
    obtain ⟨i, count, pc, counted, rfl⟩ := judge_cases step
    intro j hj quick
    obtain rfl := Pc.judge.inj (pc.symm.trans hj)
    have lt : i < n := T.within_at pc
    by_contra used
    have eq : count = (streak (σ.quicks i) + 1 : Int) := by simp [counted, quick, T.count]
    have full : ¬ count < (σ.workers i).maxRestarts := by
      rw [eq]
      exact used
    have again := (budget i lt).decided (outcomes σ.log i) true false [] (by simp [full, quick])
    have below := T.below i lt
    simp only [Function.update_self, streak_quick] at again
    have more := mt again.mpr (by simp)
    simp only [Bool.true_eq_false, false_or] at more
    change ¬ ((streak (σ.quicks i) + 1 : Nat) : Int) ≤ _ at more
    omega
  | _ => trivial

theorem Tended.step (T : Tended n σ) (step : Step n σ a σ') (succeeds : a.Succeeds)
    (spared : Spared σ a) : Tended n σ' := by
  cases a with
  | fork pid now =>
    cases pid with
    | none => exact succeeds.elim
    | some pid => exact T.fork step
  | poll => exact T.poll step
  | judge => exact T.judge step spared
  | rest => exact T.rest step
  | exit => exact T.exit step

end

section
variable {n : Nat} {workers : Nat → Worker} {acts : List Act} {σ : Sys}

/-- Where all calls of `fork` succeed, every worker gets the restarts that it was
promised in just those runs in which none has `max_restarts` consecutive quick exits. -/
theorem restarts_budgeted_iff (zero : ∀ i, (workers i).restartCount = 0)
    (pos : ∀ i < n, 1 ≤ (workers i).maxRestarts) :
    Run (When Spared (When (fun _ => Act.Succeeds) (Step n))) (start workers) acts σ ↔
      Run (Into (Budgeted n) (When (fun _ => Act.Succeeds) (Step n))) (start workers) acts σ := by
  apply run_when_iff_kept (start_tended workers zero pos)
  · intro s a t T step spared
    have T' := T.step step.2 step.1 spared
    exact ⟨T', T'.budgeted⟩
  · exact fun s a t T step budget => T.spared step.2 budget

end

/-- One restart, a delay of ten seconds. -/
def once : Worker := { sample with maxRestarts := 1, restartDelay := 10 }

/-- A child is started at time 0, and exits. -/
def exited : List Act := [.fork (some 7) 0, .exit 7, .poll 7]

/-- An exit that is not quick is followed by a restart, as promised. -/
theorem slow_exit_budgeted : ∃ σ,
    Run (Into (Budgeted 1) (When (fun _ => Act.Succeeds) (Step 1))) (start fun _ => once)
      (exited ++ [.judge 20]) σ ∧ outcomes σ.log 0 = [(false, true)] := by
  let Step' := When Spared (When (fun _ => Act.Succeeds) (Step 1))
  have booted : Run Step' (start fun _ => once) [.fork (some 7) 0] _ :=
    Run.nil.snoc (l := Act.fork (some 7) 0) ⟨trivial, trivial, rfl⟩
  have polled := (booted.snoc (l := Act.exit 7) ⟨trivial, trivial, rfl⟩).snoc (l := Act.poll 7)
    ⟨trivial, trivial, rfl⟩
  refine ⟨_, (restarts_budgeted_iff (fun _ => rfl) ?_).mp
    (polled.snoc (l := Act.judge 20) ⟨?_, trivial, rfl⟩), rfl⟩
  · intro _ _
    decide
  · intro i pc quick
    obtain rfl := Pc.judge.inj pc
    exact absurd quick (by decide)

/-- The first quick exit already ends the monitoring, though one restart was promised. -/
theorem one_restart_denied : ∃ σ,
    Run (When (fun _ => Act.Succeeds) (Step 1)) (start fun _ => once) (exited ++ [.judge 3]) σ ∧
      outcomes σ.log 0 = [(true, false)] ∧ ¬ Budgeted 1 σ := by
  have ran : (execute (Sys.step 1) (start fun _ => once) (exited ++ [.judge 3])).map
      (fun σ => (outcomes σ.log 0, (σ.workers 0).maxRestarts)) = some ([(true, false)], 1) := by
    decide
  obtain ⟨σ, ret, eq⟩ := Option.map_eq_some_iff.mp ran
  obtain ⟨judged, max⟩ := Prod.mk.inj eq
  have run : Run (Step 1) (start fun _ => once) (exited ++ [.judge 3]) σ :=
    execute_run (fun _ _ _ step => step) ret
  refine ⟨σ, run.when_labels (by simp [exited, Act.Succeeds]), judged, ?_⟩
  intro budget
  have again := (budget 0 Nat.one_pos).decided [] true false [] judged
  rw [max] at again
  exact absurd (again.mpr (.inr (by decide))) nofun

end LearnC.Daemon
