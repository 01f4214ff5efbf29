import LearnC.Daemon.Exits

/-! The guard under termination signals: `cleanup` runs to its end between any two
accesses to `workers`, and returns. -/

namespace LearnC.Daemon

/-- What `parse_args` has from `malloc`: the strings of worker `i`, and the array. -/
inductive Cell where
  | command (i : Nat)
  | name (i : Nat)
  | workers
  deriving DecidableEq

inductive Access where
  | touch (i : Nat) (f : Field)
  | free (c : Cell)
  deriving DecidableEq

/-- The fields that a step of the guard reads and writes, one after another. -/
def Sys.touches (σ : Sys) : Act → List (Nat × Field)
  | .fork pid _ =>
    let started (i : Nat) : List (Nat × Field) :=
      if pid.isSome then [(i, .pid), (i, .lastRestart), (i, .name)] else []
    match σ.pc with
    | .boot i => started i
    | .restart i => (i, .restartDelay) :: started i
    | _ => []
  | .poll _ =>
    match σ.pc with
    | .poll i => [(i, .pid), (i, .pid)]
    | _ => []
  | .judge now =>
    match σ.pc with
    | .judge i =>
      let w := σ.workers i
      let count := if σ.Quick i now then w.restartCount + 1 else 0
      [(i, .lastRestart), (i, .restartDelay), (i, .restartCount), (i, .restartCount),
        (i, .maxRestarts), (i, .name)] ++
        if count < w.maxRestarts then [(i, .restartDelay)] else []
    | _ => []
  | .rest => []
  | .exit _ => []

/-- What `cleanup` does to worker `i`. -/
def release (i : Nat) (w : Worker) : List Access :=
  .touch i .pid :: (if 0 < w.pid then [.touch i .pid] else []) ++
    [.touch i .command, .free (.command i), .touch i .name, .free (.name i)]

def cleanup (n : Nat) (workers : Nat → Worker) : List Access :=
  (List.range n).flatMap (fun i => release i (workers i)) ++ [.free .workers]

/-- The guard, the accesses that its current step has still to make, how many signals
have been delivered, and all accesses so far. -/
structure Watch where
  sys : Sys
  pending : List (Nat × Field)
  signals : Nat
  log : List Access

inductive Move where
  | act (a : Act)
  | touch
  | signal

/-- A child exits at any time; the guard makes its accesses before its next step. -/
def Watch.step (n : Nat) (w : Watch) : Move → Option Watch
  | .act (.exit pid) => (w.sys.step n (.exit pid)).map fun σ => { w with sys := σ }
  | .act a =>
    if w.pending = [] then
      (w.sys.step n a).map fun σ => { w with sys := σ, pending := w.sys.touches a }
    else none
  | .touch =>
    match w.pending with
    | [] => none
    | (i, f) :: rest => some { w with pending := rest, log := w.log ++ [.touch i f] }
  | .signal =>
    some { w with signals := w.signals + 1, log := w.log ++ cleanup n w.sys.workers }

def WatchStep (n : Nat) (w : Watch) (m : Move) (w' : Watch) : Prop := w.step n m = some w'

def watched (workers : Nat → Worker) : Watch := ⟨start workers, [], 0, []⟩

/-- Nothing is freed twice, and no worker is touched once the array is freed. -/
structure Tidy (log : List Access) : Prop where
  once : ∀ c, log.count (.free c) ≤ 1
  live : ∀ before behind, log = before ++ .free .workers :: behind →
    ∀ i f, .touch i f ∉ behind

/-- Nothing is touched and no other signal delivered behind a signal. -/
def Quiet (w : Watch) : Move → Prop
  | .act _ => True
  | .touch => w.signals = 0
  | .signal => w.signals = 0

section
variable {n : Nat} {w w' : Watch} {m : Move} {c : Cell} {log : List Access}
  {workers : Nat → Worker}

/-- Only a signal frees anything. -/
structure Ledger (w : Watch) : Prop where
  before : w.signals = 0 → ∀ c, .free c ∉ w.log
  behind : w.signals ≠ 0 → .free .workers ∈ w.log

theorem cleanup_last : .free .workers ∈ cleanup n workers :=
  List.mem_append_right _ List.mem_cons_self

theorem release_count {w : Worker} {i : Nat} :
    (release i w).count (.free c) = if c = .command i ∨ c = .name i then 1 else 0 := by
  unfold release
  split <;> cases c <;> simp [List.count_cons, eq_comm (a := i)]

theorem cleanup_count : (cleanup n workers).count (.free c) ≤ 1 := by
  have body (m : Nat) : ((List.range m).flatMap fun i => release i (workers i)).count (.free c) =
      match c with
      | .command i => if i < m then 1 else 0
      | .name i => if i < m then 1 else 0
      | .workers => 0 := by
    induction m with
    | zero => cases c <;> simp
    | succ m ih =>
      rw [List.range_succ, List.flatMap_append, List.count_append, ih, List.flatMap_singleton,
        release_count]
      cases c <;>
        simp only [Cell.command.injEq, Cell.name.injEq, reduceCtorEq, or_false, false_or] <;>
        split_ifs <;> omega
  rw [cleanup, List.count_append, body]
  cases c <;> simp <;> split <;> omega

theorem Tidy.touch (tidy : Tidy log) (live : .free .workers ∉ log) {i : Nat} {f : Field} :
    Tidy (log ++ [.touch i f]) := by
  constructor
  · intro c
    simpa [List.count_append] using tidy.once c
  · intro before behind eq
    rcases concat_split eq with ⟨_, last, _⟩ | ⟨front, same, _⟩
    · cases last
    · exact absurd (by simp [same]) live

theorem tidy_cleanup (clean : ∀ c, .free c ∉ log) :
    Tidy (log ++ cleanup n workers) := by
  constructor
  · intro c
    rw [List.count_append, List.count_eq_zero_of_not_mem (clean c), Nat.zero_add]
    exact cleanup_count
  · intro before behind eq
    rw [Daemon.cleanup, ← List.append_assoc] at eq
    rcases concat_split eq with ⟨_, _, rfl⟩ | ⟨front, same, _⟩
    · simp
    · -- The array would be freed before the last access, too.
      have mem : Access.free .workers ∈ log ++ (List.range n).flatMap fun i =>
          release i (workers i) := by
        simp [same]
      rcases List.mem_append.mp mem with mem | mem
      · exact absurd mem (clean _)
      · obtain ⟨i, _, mem⟩ := List.mem_flatMap.mp mem
        have none : (release i (workers i)).count (.free .workers) = 0 := by
          simp [release_count]
        exact absurd mem (List.count_eq_zero.mp none)

/-! ## What a move can do -/

theorem act_cases {a : Act} (h : WatchStep n w (.act a) w') :
    ∃ σ, Step n w.sys a σ ∧ w'.sys = σ ∧ w'.signals = w.signals ∧ w'.log = w.log ∧
      ((∃ pid, a = .exit pid) ∧ w'.pending = w.pending ∨
        w.pending = [] ∧ w'.pending = w.sys.touches a) := by
  unfold WatchStep Watch.step at h
  split at h
  next pid same =>
    obtain rfl := Move.act.inj same
    obtain ⟨σ, step, rfl⟩ := Option.map_eq_some_iff.mp h
    exact ⟨σ, step, rfl, rfl, rfl, .inl ⟨⟨pid, rfl⟩, rfl⟩⟩
  next b _ same =>
    obtain rfl := Move.act.inj same
    obtain ⟨idle, h⟩ := Option.ite_none_right_eq_some.mp h
    obtain ⟨σ, step, rfl⟩ := Option.map_eq_some_iff.mp h
    exact ⟨σ, step, rfl, rfl, rfl, .inr ⟨idle, rfl⟩⟩
  next same => cases same
  next same => cases same

theorem touch_cases (h : WatchStep n w .touch w') :
    ∃ i f rest, w.pending = (i, f) :: rest ∧
      w' = { w with pending := rest, log := w.log ++ [.touch i f] } := by
  simp only [WatchStep, Watch.step] at h
  split at h
  next => cases h
  next i f rest pending => exact ⟨i, f, rest, pending, (Option.some.inj h).symm⟩

theorem signal_cases (h : WatchStep n w .signal w') :
    w' = { w with signals := w.signals + 1, log := w.log ++ cleanup n w.sys.workers } :=
  (Option.some.inj h).symm

theorem Ledger.step (L : Ledger w) (h : WatchStep n w m w') : Ledger w' := by
  cases m with
  | act a =>
    obtain ⟨_, _, _, signals, log, _⟩ := act_cases h
    exact ⟨log ▸ signals ▸ L.before, log ▸ signals ▸ L.behind⟩
  | touch =>
    obtain ⟨i, f, rest, _, rfl⟩ := touch_cases h
    constructor
    · intro none c mem
      exact L.before none c (by simpa using mem)
    · intro some
      exact List.mem_append_left _ (L.behind some)
  | signal =>
    obtain rfl := signal_cases h
    exact ⟨nofun, fun _ => List.mem_append_right _ cleanup_last⟩

/-- Given a tidy past, a move keeps it tidy just where no signal was delivered before or
the move touches nothing and delivers none. -/
theorem quiet_iff (L : Ledger w) (tidy : Tidy w.log) (h : WatchStep n w m w') :
    Quiet w m ↔ Tidy w'.log := by
  cases m with
  | act a =>
    obtain ⟨_, _, _, _, log, _⟩ := act_cases h
    exact iff_of_true trivial (log ▸ tidy)
  | touch =>
    obtain ⟨i, f, rest, _, rfl⟩ := touch_cases h
    constructor
    · intro quiet
      exact tidy.touch (L.before quiet _)
    · intro tidy'
      by_contra some
      obtain ⟨before, behind, eq⟩ := List.append_of_mem (L.behind some)
      exact tidy'.live before (behind ++ [.touch i f]) (by simp [eq]) i f (by simp)
  | signal =>
    obtain rfl := signal_cases h
    constructor
    · intro quiet
      exact tidy_cleanup (L.before quiet)
    · intro tidy'
      by_contra some
      have once := tidy'.once .workers
      have first := List.count_pos_iff.mpr (L.behind some)
      have last : Access.free .workers ∈ cleanup n w.sys.workers := cleanup_last
      have second := List.count_pos_iff.mpr last
      rw [List.count_append] at once
      omega

/-! ## A guard that goes on -/

/-- A move of the guard itself. -/
def Move.Guards : Move → Prop
  | .act (.exit _) => False
  | .act _ => True
  | .touch => True
  | .signal => False

/-- How many steps at most the guard makes before one that touches a worker. -/
def Pc.distance (n : Nat) : Pc → Nat
  | .boot i => n - i + 2
  | .rest => 1
  | _ => 0

/-- `monitor_workers` does not end. -/
structure Endless (n : Nat) (workers : Nat → Worker) where
  state : Nat → Watch
  move : Nat → Move
  start : state 0 = watched workers
  step : ∀ t, WatchStep n (state t) (move t) (state (t + 1))
  goes : ∀ t, ∃ u, t ≤ u ∧ (move u).Guards

/-- A step of the guard touches a worker, or comes closer to one that does. -/
theorem act_distance {a : Act} {σ σ' : Sys} (guards : (Move.act a).Guards)
    (step : Step n σ a σ') :
    σ.touches a ≠ [] ∨ σ'.pc.distance n < σ.pc.distance n := by
  cases a with
  | exit => exact guards.elim
  | fork fork now =>
    obtain ⟨i, τ, _, _, _, _, ⟨pc, lt, pc'⟩ | ⟨pc, _⟩⟩ := fork_cases step
    · right
      rw [pc, pc', Pc.booted]
      split <;> simp only [Pc.distance] <;> omega
    · left
      simp [Sys.touches, pc]
  | poll =>
    obtain ⟨i, _, pc, _⟩ := poll_cases step
    left
    simp [Sys.touches, pc]
  | judge =>
    obtain ⟨i, _, pc, _⟩ := judge_cases step
    left
    simp [Sys.touches, pc]
  | rest =>
    obtain ⟨pc, rfl⟩ := rest_cases step
    right
    rw [pc]
    exact Nat.one_pos

/-- The other moves leave the guard where it is. -/
theorem stays_put (other : ¬ m.Guards) (h : WatchStep n w m w') :
    w'.pending = w.pending ∧ w'.sys.pc = w.sys.pc := by
  cases m with
  | act a =>
    cases a with
    | exit pid =>
      obtain ⟨σ, step, rfl, _, _, ⟨_, pending⟩ | ⟨idle, pending⟩⟩ := act_cases h
      · exact ⟨pending, by rw [(exit_cases step).2]⟩
      · exact ⟨by rw [pending, idle]; rfl, by rw [(exit_cases step).2]⟩
    | _ => exact absurd trivial other
  | touch => exact absurd trivial other
  | signal =>
    obtain rfl := signal_cases h
    exact ⟨rfl, rfl⟩

/-- Only a signal counts as one. -/
theorem signals_same (other : m ≠ .signal) (h : WatchStep n w m w') : w'.signals = w.signals := by
  cases m with
  | act a =>
    obtain ⟨_, _, _, signals, _⟩ := act_cases h
    exact signals
  | touch =>
    obtain ⟨_, _, _, _, rfl⟩ := touch_cases h
    rfl
  | signal => exact absurd rfl other

theorem signals_le (h : WatchStep n w m w') : w.signals ≤ w'.signals := by
  by_cases other : m = .signal
  · subst other
    obtain rfl := signal_cases h
    exact Nat.le_succ _
  · exact Nat.le_of_eq (signals_same other h).symm

end

namespace Endless

section
variable {n : Nat} {workers : Nat → Worker} (run : Endless n workers)

theorem finite (t : Nat) :
    Run (WatchStep n) (watched workers) ((List.range t).map run.move) (run.state t) := by
  induction t with
  | zero =>
    rw [run.start]
    exact .nil
  | succ t ih =>
    rw [List.range_succ, List.map_append]
    exact ih.snoc (run.step t)

theorem signals_mono {t u : Nat} (le : t ≤ u) : (run.state t).signals ≤ (run.state u).signals := by
  induction le with
  | refl => exact Nat.le_refl _
  | step _ ih => exact Nat.le_trans ih (signals_le (run.step _))

/-- Up to the next move of the guard it stays where it is. -/
theorem next_move (t : Nat) : ∃ u, t ≤ u ∧ (run.move u).Guards ∧
    (run.state u).pending = (run.state t).pending ∧
    (run.state u).sys.pc = (run.state t).sys.pc := by
  obtain ⟨u, le, guards⟩ := run.goes t
  obtain ⟨d, rfl⟩ := Nat.exists_eq_add_of_le le
  clear le
  induction d generalizing t with
  | zero => exact ⟨t, Nat.le_refl t, guards, rfl, rfl⟩
  | succ d ih =>
    by_cases now : (run.move t).Guards
    · exact ⟨t, Nat.le_refl t, now, rfl, rfl⟩
    · obtain ⟨pending, pc⟩ := stays_put now (run.step t)
      obtain ⟨u, le, guards', pending', pc'⟩ :=
        ih (t + 1) (by rwa [Nat.add_assoc, Nat.add_comm 1 d])
      exact ⟨u, by omega, guards', pending'.trans pending, pc'.trans pc⟩

/-- Accesses that are still to be made are made. -/
theorem pending_touched {t : Nat} (some : (run.state t).pending ≠ []) :
    ∃ u, t ≤ u ∧ run.move u = .touch := by
  obtain ⟨u, le, guards, pending, _⟩ := run.next_move t
  refine ⟨u, le, ?_⟩
  cases move : run.move u with
  | touch => rfl
  | signal =>
    rw [move] at guards
    exact guards.elim
  | act a =>
    obtain ⟨_, _, _, _, _, ⟨⟨pid, rfl⟩, _⟩ | ⟨idle, _⟩⟩ := act_cases (move ▸ run.step u)
    · rw [move] at guards
      exact guards.elim
    · exact absurd (pending ▸ idle) some

/-- The guard always touches a worker again. -/
theorem touches_again (t : Nat) : ∃ u, t ≤ u ∧ run.move u = .touch := by
  generalize hd : (run.state t).sys.pc.distance n = d
  induction d using Nat.strongRecOn generalizing t with
  | ind d ih =>
    obtain ⟨u, le, guards, _, pc⟩ := run.next_move t
    cases move : run.move u with
    | touch => exact ⟨u, le, move⟩
    | signal =>
      rw [move] at guards
      exact guards.elim
    | act a =>
      rw [move] at guards
      obtain ⟨σ, step, sys, _, _, ⟨⟨pid, rfl⟩, _⟩ | ⟨_, pending⟩⟩ := act_cases (move ▸ run.step u)
      · exact guards.elim
      · rcases act_distance guards step with some | less
        · obtain ⟨v, le', touch⟩ := run.pending_touched (t := u + 1) (pending ▸ some)
          exact ⟨v, by omega, touch⟩
        · rw [pc, hd, ← sys] at less
          obtain ⟨v, le', touch⟩ := ih _ less (u + 1) rfl
          exact ⟨v, by omega, touch⟩

end

end Endless

section
variable {n : Nat} {workers : Nat → Worker} {moves : List Move} {w : Watch}

theorem watched_ledger (workers : Nat → Worker) : Ledger (watched workers) :=
  ⟨fun _ _ => nofun, fun some => absurd rfl some⟩

theorem watched_tidy (workers : Nat → Worker) : Tidy (watched workers).log :=
  ⟨fun _ => Nat.zero_le 1, fun before _ eq => by cases before <;> cases eq⟩

theorem quiet_runs_iff :
    Run (When Quiet (WatchStep n)) (watched workers) moves w ↔
      Run (Into (fun w => Tidy w.log) (WatchStep n)) (watched workers) moves w :=
  run_when_iff_into (watched_ledger workers) (fun _ _ _ L step => L.step step)
    (watched_tidy workers) fun _ _ _ L tidy step => quiet_iff L tidy step

theorem reached_ledger (run : Run (WatchStep n) (watched workers) moves w) : Ledger w :=
  run.invariant (watched_ledger workers) fun _ _ _ L step => L.step step

namespace Endless

theorem unsignalled (run : Endless n workers) (none : ∀ t, run.move t ≠ .signal) (t : Nat) :
    (run.state t).signals = 0 := by
  induction t with
  | zero =>
    rw [run.start]
    rfl
  | succ t ih => rw [signals_same (none t) (run.step t), ih]

/-- Behind a signal the guard comes to a worker again. -/
theorem never_signalled (run : Endless n workers) (tidy : ∀ t, Tidy (run.state t).log) (t : Nat) :
    run.move t ≠ .signal := by
  intro signal
  have step := run.step t
  rw [signal] at step
  have delivered : 0 < (run.state (t + 1)).signals := by
    rw [signal_cases step]
    exact Nat.succ_pos _
  obtain ⟨u, le, touch⟩ := run.touches_again (t + 1)
  have later := run.signals_mono le
  have quiet := (quiet_iff (reached_ledger (run.finite u)) (tidy u) (run.step u)).mpr (tidy (u + 1))
  rw [touch] at quiet
  have zero : (run.state u).signals = 0 := quiet
  omega

end Endless

/-- A run keeps the memory in order just as long as nothing is touched and no other
signal delivered behind a signal; and a guard that goes on keeps it in order just where
no signal is ever delivered. -/
theorem signals_safe_iff (n : Nat) (workers : Nat → Worker) :
    (∀ moves w, Run (When Quiet (WatchStep n)) (watched workers) moves w ↔
      Run (Into (fun w => Tidy w.log) (WatchStep n)) (watched workers) moves w) ∧
    ∀ run : Endless n workers,
      (∀ t, Tidy (run.state t).log) ↔ ∀ t, run.move t ≠ .signal := by
  refine ⟨fun _ _ => quiet_runs_iff, fun run => ⟨run.never_signalled, fun none t => ?_⟩⟩
  induction t with
  | zero =>
    rw [run.start]
    exact watched_tidy workers
  | succ t ih =>
    apply (quiet_iff (reached_ledger (run.finite t)) ih (run.step t)).mp
    have zero := run.unsignalled none t
    cases run.move t with
    | act => trivial
    | touch | signal => exact zero

end

/-- A worker is started, and a signal comes before it is polled. -/
def signalled : List Move :=
  [.act (.fork (some 7) 0), .touch, .touch, .touch, .signal, .act (.poll 0), .touch]

/-- The guard polls a worker of the array that has been freed. -/
theorem poll_after_cleanup : ∃ w, Run (WatchStep 1) (watched fun _ => sample) signalled w ∧
    ¬ Tidy w.log := by
  have ran : (execute (Watch.step 1) (watched fun _ => sample) signalled).map Watch.log =
      some ([.touch 0 .pid, .touch 0 .lastRestart, .touch 0 .name] ++
        (release 0 { sample with pid := 7 } ++ .free .workers :: [.touch 0 .pid])) := by
    decide
  obtain ⟨w, ret, log⟩ := Option.map_eq_some_iff.mp ran
  refine ⟨w, execute_run (fun _ _ _ step => step) ret, ?_⟩
  intro tidy
  rw [log, ← List.append_assoc] at tidy
  exact tidy.live _ _ rfl 0 .pid (by simp)

end LearnC.Daemon
