import LearnC.Thread.BoundedBuffer

/-! `demo2.c` of `4.semaphore`: the semaphores have names, and outlive a run that is
killed. -/

namespace LearnC.Thread.NamedBuffer

open BoundedBuffer (Params Sys Role started)

/-- `BUFFER_SIZE`, and the rounds of each thread. -/
def params : Params := ⟨5, 10⟩

/-- The values of `/empty_slots` and `/filled_slots`, where there are semaphores of
these names. -/
structure Names where
  empty : Option Nat
  filled : Option Nat

/-- `sem_open` with `O_CREAT`: the value is for a semaphore that is not there yet. -/
def semOpen (name : Option Nat) (value : Nat) : Nat := name.getD value

/-- How far `main` has come: no process; `/empty_slots` opened; the threads created;
`/empty_slots` unlinked. -/
inductive Proc where
  | idle
  | opened
  | threads (σ : Sys)
  | unlinked

structure World where
  names : Names
  proc : Proc

/-- The steps of `main` and of its threads, and the end of the process at any of them. -/
inductive Act where
  | openEmpty
  | openFilled
  | thread (t : Role)
  | unlinkEmpty
  | unlinkFilled
  | kill

instance (p : Params) (l : BoundedBuffer.Loop) : Decidable (l.Returned p) :=
  inferInstanceAs (Decidable (_ ∧ _))

def World.step (w : World) : Act → Option World
  | .openEmpty =>
    match w.proc with
    | .idle =>
      let empty := semOpen w.names.empty params.bufferSize
      some ⟨{ w.names with empty := some empty }, .opened⟩
    | _ => none
  | .openFilled =>
    match w.proc, w.names.empty with
    | .opened, some empty =>
      let filled := semOpen w.names.filled 0
      some ⟨⟨some empty, some filled⟩, .threads (started empty filled)⟩
    | _, _ => none
  | .thread t =>
    match w.proc with
    | .threads σ =>
      (σ.step params t).map fun σ => ⟨⟨some σ.emptySlots, some σ.filledSlots⟩, .threads σ⟩
    | _ => none
  | .unlinkEmpty =>
    match w.proc with
    | .threads σ =>
      -- Both joins have returned.
      if σ.prod.Returned params ∧ σ.cons.Returned params then
        some ⟨{ w.names with empty := none }, .unlinked⟩
      else none
    | _ => none
  | .unlinkFilled =>
    match w.proc with
    | .unlinked => some ⟨{ w.names with filled := none }, .idle⟩
    | _ => none
  | .kill =>
    match w.proc with
    | .idle => none
    | _ => some ⟨w.names, .idle⟩

def Step (w : World) (a : Act) (w' : World) : Prop := w.step a = some w'

def fresh : World := ⟨⟨none, none⟩, .idle⟩

/-- The producer is not about to overwrite an item that has not been consumed, nor the
consumer to read a slot that this run has not filled. -/
def Safe (σ : Sys) : Prop :=
  (σ.prod.pc = .entered → σ.unread σ.inPos = false) ∧
    (σ.cons.pc = .entered → σ.unread σ.outPos = true)

def Sound (w : World) : Prop :=
  match w.proc with
  | .threads σ => ∀ ts σ', Run (BoundedBuffer.Step params) σ ts σ' → Safe σ'
  | _ => True

/-- Where the threads are created, no earlier run has left filled slots, or more empty
slots than there are. -/
def Clean (w : World) : Act → Prop
  | .openFilled =>
    (∀ empty ∈ w.names.empty, empty ≤ params.bufferSize) ∧ semOpen w.names.filled 0 = 0
  | _ => True

section
variable {p : Params} {σ σ' : Sys} {empty filled n d : Nat}

def widen (d : Nat) (σ : Sys) : Sys := { σ with emptySlots := σ.emptySlots + d }

theorem widen_step {t : Role} (step : BoundedBuffer.Step p σ t σ') :
    BoundedBuffer.Step p (widen d σ) t (widen d σ') := by
  unfold BoundedBuffer.Step Sys.step at step ⊢
  cases t with
  | producer =>
    unfold Sys.producer at step ⊢
    cases pc : σ.prod.pc with
    | top =>
      simp only [pc, Option.ite_none_right_eq_some, Option.some.injEq] at step
      obtain ⟨⟨more, free⟩, rfl⟩ := step
      have wide : σ.emptySlots + d - 1 = σ.emptySlots - 1 + d := by omega
      have free' : 0 < σ.emptySlots + d := by omega
      simp only [widen, pc, more, free', wide, and_self, ↓reduceIte]
    | entered | moved =>
      simp only [pc, Option.some.injEq] at step
      obtain rfl := step
      simp [widen, pc]
  | consumer =>
    unfold Sys.consumer at step ⊢
    cases pc : σ.cons.pc with
    | top =>
      simp only [pc, Option.ite_none_right_eq_some, Option.some.injEq] at step
      obtain ⟨more, rfl⟩ := step
      simp [widen, pc, more]
    | entered | moved =>
      simp only [pc, Option.some.injEq] at step
      obtain rfl := step
      simp [widen, pc, Nat.add_right_comm]

/-- With fewer empty slots than there are, and none filled, a run is one of `demo.c`. -/
theorem clean_safe (pos : 0 < p.bufferSize) (le : empty ≤ p.bufferSize) {ts : List Role}
    (run : Run (BoundedBuffer.Step p) (started empty 0) ts σ) : Safe σ := by
  have wide : widen (p.bufferSize - empty) (started empty 0) = BoundedBuffer.start p := by
    simp [widen, started, BoundedBuffer.start, Nat.add_sub_cancel' le]
  have run' : Run (BoundedBuffer.Step p) (widen (p.bufferSize - empty) (started empty 0)) ts
      (widen (p.bufferSize - empty) σ) :=
    (run.simulate (J := fun _ => True) trivial fun _ _ _ _ step =>
      ⟨widen_step step, trivial⟩).1
  rw [wide] at run'
  obtain ⟨r, I⟩ := BoundedBuffer.run_inv pos run'
  have law := I.law
  exact ⟨fun pc => (law.writes pc).2, fun pc => (law.reads pc).2⟩

/-- A filled slot that no producer has filled is read at once. -/
theorem filled_unsafe (items : 0 < p.items) (pos : 0 < filled) :
    ∃ ts σ, Run (BoundedBuffer.Step p) (started empty filled) ts σ ∧ ¬ Safe σ := by
  have step : BoundedBuffer.Step p (started empty filled) .consumer
      { started empty filled with filledSlots := filled - 1, cons := ⟨.entered, 0⟩ } := by
    simp [BoundedBuffer.Step, Sys.step, Sys.consumer, started, items, pos]
  refine ⟨_, _, Run.nil.snoc step, ?_⟩
  rintro ⟨_, reads⟩
  cases reads rfl

theorem producer_waits (prod : σ.prod = ⟨.top, n⟩) (more : n < p.items) (free : 0 < σ.emptySlots) :
    BoundedBuffer.Step p σ .producer
      { σ with emptySlots := σ.emptySlots - 1, prod := ⟨.entered, n⟩ } := by
  simp [BoundedBuffer.Step, Sys.step, Sys.producer, prod, more, free]

theorem producer_round (prod : σ.prod = ⟨.top, n⟩) (more : n < p.items) (free : 0 < σ.emptySlots) :
    ∃ ts σ', Run (BoundedBuffer.Step p) σ ts σ' ∧ σ'.prod = ⟨.top, n + 1⟩ ∧
      σ'.emptySlots = σ.emptySlots - 1 ∧ σ'.inPos = (σ.inPos + 1) % p.bufferSize ∧
      σ'.unread = Function.update σ.unread σ.inPos true := by
  have ran : execute (Sys.step p) σ [.producer, .producer, .producer] = some { σ with
      emptySlots := σ.emptySlots - 1
      buffer := Function.update σ.buffer σ.inPos n
      inPos := (σ.inPos + 1) % p.bufferSize
      produced := σ.produced ++ [n]
      unread := Function.update σ.unread σ.inPos true
      filledSlots := σ.filledSlots + 1
      prod := ⟨.top, n + 1⟩ } := by
    simp [execute, Sys.step, Sys.producer, prod, more, free]
  exact ⟨_, _, execute_run (fun _ _ _ step => step) ran, rfl, rfl, rfl, rfl⟩

theorem producer_rounds (size : n ≤ p.bufferSize) (items : n ≤ p.items) (free : n ≤ empty) :
    ∃ ts σ, Run (BoundedBuffer.Step p) (started empty filled) ts σ ∧ σ.prod = ⟨.top, n⟩ ∧
      σ.emptySlots = empty - n ∧ σ.inPos = n % p.bufferSize ∧ ∀ s < n, σ.unread s = true := by
  induction n with
  | zero => exact ⟨[], _, .nil, rfl, rfl, (Nat.zero_mod _).symm, fun _ lt => absurd lt (by omega)⟩
  | succ n ih =>
    obtain ⟨ts, σ, run, prod, slots, inPos, unread⟩ := ih (by omega) (by omega) (by omega)
    obtain ⟨ts', σ', run', prod', slots', inPos', unread'⟩ :=
      producer_round prod (Nat.lt_of_succ_le items) (by omega)
    refine ⟨_, σ', run.append run', prod', ?_, ?_, ?_⟩
    · omega
    · rw [inPos', inPos, Nat.mod_add_mod]
    · intro s lt
      rw [unread', inPos, Nat.mod_eq_of_lt (Nat.lt_of_succ_le size), Function.update_apply]
      split
      · rfl
      · exact unread s (by omega)

/-- With more empty slots than there are, the producer goes round to the first slot. -/
theorem overfull_unsafe (pos : 0 < p.bufferSize) (items : p.bufferSize < p.items)
    (more : p.bufferSize < empty) :
    ∃ ts σ, Run (BoundedBuffer.Step p) (started empty filled) ts σ ∧ ¬ Safe σ := by
  obtain ⟨ts, σ, run, prod, slots, inPos, unread⟩ :
      ∃ ts σ, Run (BoundedBuffer.Step p) (started empty filled) ts σ ∧
        σ.prod = ⟨.top, p.bufferSize⟩ ∧ σ.emptySlots = empty - p.bufferSize ∧
        σ.inPos = p.bufferSize % p.bufferSize ∧ ∀ s < p.bufferSize, σ.unread s = true :=
    producer_rounds (Nat.le_refl p.bufferSize) (Nat.le_of_lt items) (Nat.le_of_lt more)
  have wait := producer_waits prod items (by omega)
  refine ⟨_, _, run.snoc wait, ?_⟩
  rintro ⟨writes, _⟩
  have free := writes rfl
  simp only [inPos, Nat.mod_self, unread 0 pos] at free
  cases free

end

section
variable {w w' : World}

/-- Whether the law will hold is settled where the threads are created. -/
theorem opened_sound_iff (step : Step w .openFilled w') : Sound w' ↔ Clean w .openFilled := by
  simp only [Step, World.step] at step
  split at step
  next empty _ left =>
    obtain rfl := Option.some.inj step
    simp only [Sound, Clean, left, Option.mem_some_iff, forall_eq']
    constructor
    · intro safe
      by_contra dirty
      have wrong : ∃ ts σ, Run (BoundedBuffer.Step params)
          (started empty (semOpen w.names.filled 0)) ts σ ∧ ¬ Safe σ := by
        by_cases zero : semOpen w.names.filled 0 = 0
        · exact overfull_unsafe (by decide) (by decide) (by omega)
        · exact filled_unsafe (by decide) (Nat.pos_of_ne_zero zero)
      obtain ⟨ts, σ, run, bad⟩ := wrong
      exact bad (safe ts σ run)
    · rintro ⟨le, zero⟩ ts σ run
      rw [zero] at run
      exact clean_safe (by decide) le run
  next => cases step

theorem step_sound_iff {a : Act} (sound : Sound w) (step : Step w a w') :
    Clean w a ↔ Sound w' := by
  cases a with
  | openFilled => exact (opened_sound_iff step).symm
  | thread t =>
    refine iff_of_true trivial ?_
    simp only [Step, World.step] at step
    split at step
    next σ proc =>
      obtain ⟨σ', ret, rfl⟩ := Option.map_eq_some_iff.mp step
      intro ts σ'' run
      rw [Sound, proc] at sound
      exact sound _ _ ((Run.nil.snoc ret).append run)
    next => cases step
  | openEmpty | unlinkFilled | kill =>
    refine iff_of_true trivial ?_
    simp only [Step, World.step] at step
    split at step
    all_goals cases step
    all_goals trivial
  | unlinkEmpty =>
    refine iff_of_true trivial ?_
    simp only [Step, World.step] at step
    split at step
    next =>
      obtain ⟨_, step⟩ := Option.ite_none_right_eq_some.mp step
      obtain rfl := Option.some.inj step
      trivial
    next => cases step

end

/-- After any earlier runs, the next one keeps the law in every interleaving just where
it finds no filled slots and no more empty ones than there are; so it is kept through a
whole history just where each of its runs does. -/
theorem history_sound_iff (acts : List Act) (w : World) :
    (Run Step fresh acts w → ∀ w', Step w .openFilled w' → (Sound w' ↔ Clean w .openFilled)) ∧
      (Run (When Clean Step) fresh acts w ↔ Run (Into Sound Step) fresh acts w) := by
  constructor
  · intro _ w' step
    exact opened_sound_iff step
  · apply run_when_iff_into (J := fun _ => True) trivial fun _ _ _ _ _ => trivial
    · trivial
    · exact fun _ _ _ _ sound step => step_sound_iff sound step

def killedAfterOne : List Act :=
  [.openEmpty, .openFilled, .thread .producer, .thread .producer, .thread .producer, .kill,
    .openEmpty, .openFilled, .thread .consumer]

/-- The consumer of the second run takes from a slot that nobody has filled. -/
theorem second_run_unsafe : ∃ w σ, Run Step fresh killedAfterOne w ∧ w.proc = .threads σ ∧
    σ.produced = [] ∧ σ.cons.pc = .entered ∧ ¬ Safe σ := by
  have ran : ∃ w σ, execute World.step fresh killedAfterOne = some w ∧ w.proc = .threads σ ∧
      σ.produced = [] ∧ σ.cons.pc = .entered ∧ σ.unread σ.outPos = false :=
    ⟨_, _, rfl, rfl, rfl, rfl, rfl⟩
  obtain ⟨w, σ, ran, proc, nothing, inside, unfilled⟩ := ran
  refine ⟨w, σ, execute_run (fun _ _ _ step => step) ran, proc, nothing, inside, ?_⟩
  rintro ⟨_, reads⟩
  rw [reads inside] at unfilled
  cases unfilled

end LearnC.Thread.NamedBuffer
