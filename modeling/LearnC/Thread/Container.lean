import LearnC.Machine.Interleave
import LearnC.Machine.Monitor
import LearnC.Machine.Signed

/-! `Container` of `2.thread_mutex_CXX.cpp`, whose elements lie behind a recursive mutex, and
the threads of `Test2` that add to it. -/

namespace LearnC.Thread.Container

/-- Where a thread stands in `Func2`: before the test of the loop; before the lock of
`AddForTestRecursive` and that of `Add`; before `push_back`; before the two unlocks; before
`++i`; behind the loop. -/
inductive Pc where
  | test
  | lock
  | relock
  | push
  | unlock
  | leave
  | next
  | done
  deriving DecidableEq

/-- Where `Test2` stands: in the joins; in `Dump` before the lock, the loop and the unlock;
behind it. -/
inductive Main where
  | joining
  | locking
  | printing
  | unlocking
  | done
  deriving DecidableEq

/-- How many locks are to be undone there. -/
def Pc.depth : Pc → Nat
  | .relock => 1
  | .push => 2
  | .unlock => 2
  | .leave => 1
  | _ => 0

def Main.depth : Main → Nat
  | .printing => 1
  | .unlocking => 1
  | _ => 0

/-- The arguments `start` and `end` of a thread, which are of type `int`. -/
structure Job where
  first : Int
  last : Int
  first_fits : Fits 32 first
  last_fits : Fits 32 last

structure Local where
  pc : Pc
  i : Int
  deriving DecidableEq

/-- The container and its threads, of which `none` is the main thread. -/
structure Sys (T : Type) where
  elements : List Int
  mutex : RecursiveMutex (Option T)
  thread : T → Local
  main : Main
  printed : List Int

namespace Sys

variable {T : Type} [DecidableEq T]

def go (σ : Sys T) (t : T) (pc : Pc) : Sys T :=
  { σ with thread := Function.update σ.thread t { σ.thread t with pc := pc } }

/-- The next step of a thread. -/
def func2 (job : T → Job) (σ : Sys T) (t : T) : Option (Sys T) :=
  match (σ.thread t).pc with
  | .test => some (σ.go t (if (σ.thread t).i ≤ (job t).last then .lock else .done))
  | .lock => (σ.mutex.lock (some t)).map fun m => { σ.go t .relock with mutex := m }
  | .relock => (σ.mutex.lock (some t)).map fun m => { σ.go t .push with mutex := m }
  | .push => some { σ.go t .unlock with elements := σ.elements ++ [(σ.thread t).i] }
  | .unlock => (σ.mutex.unlock (some t)).map fun m => { σ.go t .leave with mutex := m }
  | .leave => (σ.mutex.unlock (some t)).map fun m => { σ.go t .next with mutex := m }
  | .next =>
    (checked 32 ((σ.thread t).i + 1)).map fun i =>
      { σ with thread := Function.update σ.thread t ⟨.test, i⟩ }
  | .done => none

/-- The next step of the main thread, once the threads have been created. -/
def test2 [Fintype T] (σ : Sys T) : Option (Sys T) :=
  match σ.main with
  | .joining =>
    if ∀ t, (σ.thread t).pc = .done then some { σ with main := .locking } else none
  | .locking => (σ.mutex.lock none).map fun m => { σ with main := .printing, mutex := m }
  | .printing => some { σ with main := .unlocking, printed := σ.printed ++ σ.elements }
  | .unlocking => (σ.mutex.unlock none).map fun m => { σ with main := .done, mutex := m }
  | .done => none

def step [Fintype T] (job : T → Job) (σ : Sys T) : Option T → Option (Sys T)
  | some t => σ.func2 job t
  | none => σ.test2

/-- How many locks each thread has to undo. -/
def held (σ : Sys T) : Option T → Nat
  | some t => (σ.thread t).pc.depth
  | none => σ.main.depth

end Sys

section
variable {T : Type} [DecidableEq T]

def Step [Fintype T] (job : T → Job) (σ : Sys T) (act : Option T) (σ' : Sys T) : Prop :=
  σ.step job act = some σ'

def start (job : T → Job) : Sys T where
  elements := []
  mutex := .free
  thread t := ⟨.test, (job t).first⟩
  main := .joining
  printed := []

variable {job : T → Job} {σ σ' : Sys T} {act : Option T} {t : T} {pc pc' : Pc}

@[simp] theorem go_self : (σ.go t pc).thread t = { σ.thread t with pc := pc } := by
  simp [Sys.go]

/-- The steps, with what each branch has seen. -/
inductive Move (job : T → Job) (σ : Sys T) : Option T → Sys T → Prop
  | enter {t : T} (pc : (σ.thread t).pc = .test) (le : (σ.thread t).i ≤ (job t).last) :
      Move job σ (some t) (σ.go t .lock)
  | finish {t : T} (pc : (σ.thread t).pc = .test) (gt : (job t).last < (σ.thread t).i) :
      Move job σ (some t) (σ.go t .done)
  | locks {t : T} {pc' : Pc} {m : RecursiveMutex (Option T)}
      (pc : (σ.thread t).pc = .lock ∧ pc' = .relock ∨ (σ.thread t).pc = .relock ∧ pc' = .push)
      (ret : σ.mutex.lock (some t) = some m) :
      Move job σ (some t) { σ.go t pc' with mutex := m }
  | push {t : T} (pc : (σ.thread t).pc = .push) :
      Move job σ (some t) { σ.go t .unlock with elements := σ.elements ++ [(σ.thread t).i] }
  | unlocks {t : T} {pc' : Pc} {m : RecursiveMutex (Option T)}
      (pc : (σ.thread t).pc = .unlock ∧ pc' = .leave ∨ (σ.thread t).pc = .leave ∧ pc' = .next)
      (ret : σ.mutex.unlock (some t) = some m) :
      Move job σ (some t) { σ.go t pc' with mutex := m }
  | next {t : T} (pc : (σ.thread t).pc = .next) :
      Move job σ (some t)
        { σ with thread := Function.update σ.thread t ⟨.test, (σ.thread t).i + 1⟩ }
  | join (main : σ.main = .joining) (all : ∀ t, (σ.thread t).pc = .done) :
      Move job σ none { σ with main := .locking }
  | lockMain {m : RecursiveMutex (Option T)} (main : σ.main = .locking)
      (ret : σ.mutex.lock none = some m) : Move job σ none { σ with main := .printing, mutex := m }
  | print (main : σ.main = .printing) :
      Move job σ none { σ with main := .unlocking, printed := σ.printed ++ σ.elements }
  | unlockMain {m : RecursiveMutex (Option T)} (main : σ.main = .unlocking)
      (ret : σ.mutex.unlock none = some m) : Move job σ none { σ with main := .done, mutex := m }

theorem func2_move (step : σ.func2 job t = some σ') : Move job σ (some t) σ' := by
  unfold Sys.func2 at step
  split at step
  · next pc =>
    obtain rfl := Option.some.inj step
    split
    · next le => exact .enter pc le
    · next gt => exact .finish pc (Int.not_le.mp gt)
  · next pc =>
    obtain ⟨m, ret, rfl⟩ := Option.map_eq_some_iff.mp step
    exact .locks (.inl ⟨pc, rfl⟩) ret
  · next pc =>
    obtain ⟨m, ret, rfl⟩ := Option.map_eq_some_iff.mp step
    exact .locks (.inr ⟨pc, rfl⟩) ret
  · next pc =>
    cases step
    exact .push pc
  · next pc =>
    obtain ⟨m, ret, rfl⟩ := Option.map_eq_some_iff.mp step
    exact .unlocks (.inl ⟨pc, rfl⟩) ret
  · next pc =>
    obtain ⟨m, ret, rfl⟩ := Option.map_eq_some_iff.mp step
    exact .unlocks (.inr ⟨pc, rfl⟩) ret
  · next pc =>
    obtain ⟨i, fits, rfl⟩ := Option.map_eq_some_iff.mp step
    obtain ⟨_, rfl⟩ := checked_eq_some.mp fits
    exact .next pc
  · cases step

theorem step_move [Fintype T] (step : Step job σ act σ') : Move job σ act σ' := by
  cases act with
  | some t => exact func2_move step
  | none =>
    simp only [Step, Sys.step, Sys.test2] at step
    split at step
    · next main =>
      obtain ⟨all, step⟩ := Option.ite_none_right_eq_some.mp step
      cases step
      exact .join main all
    · next main =>
      obtain ⟨m, ret, rfl⟩ := Option.map_eq_some_iff.mp step
      exact .lockMain main ret
    · next main =>
      cases step
      exact .print main
    · next main =>
      obtain ⟨m, ret, rfl⟩ := Option.map_eq_some_iff.mp step
      exact .unlockMain main ret
    · cases step

/-! ## The mutex -/

theorem move_counts (C : σ.mutex.Counts σ.held) (move : Move job σ act σ') :
    σ'.mutex.Counts σ'.held := by
  have others {t : T} {l : Local} (o : Option T) (ne : o ≠ some t) :
      Sys.held { σ with thread := Function.update σ.thread t l } o = σ.held o := by
    cases o with
    | none => rfl
    | some u =>
      have other : u ≠ t := fun eq => ne (by rw [eq])
      simp [Sys.held, other]
  have same {t : T} {l : Local} (depth : l.pc.depth = (σ.thread t).pc.depth) (o : Option T) :
      Sys.held { σ with thread := Function.update σ.thread t l } o = σ.held o := by
    by_cases eq : o = some t
    · rw [eq]
      simp [Sys.held, depth]
    · exact others o eq
  have main {w : Main} (o : Option T) (ne : o ≠ none) :
      Sys.held { σ with main := w } o = σ.held o := by
    cases o with
    | none => exact absurd rfl ne
    | some u => rfl
  cases move with
  | enter pc _ | finish pc _ | push pc | next pc =>
    exact C.congr (same (by simp [pc, Pc.depth]))
  | @locks t pc' m pc ret =>
    refine C.lock ret ?_ others
    rcases pc with ⟨pc, rfl⟩ | ⟨pc, rfl⟩ <;> simp [Sys.held, pc, Pc.depth]
  | @unlocks t pc' m pc ret =>
    refine C.unlock ret ?_ others
    rcases pc with ⟨pc, rfl⟩ | ⟨pc, rfl⟩ <;> simp [Sys.held, pc, Pc.depth]
  | join at_main _ | print at_main =>
    refine C.congr fun o => ?_
    cases o with
    | none => simp [Sys.held, at_main, Main.depth]
    | some u => rfl
  | lockMain at_main ret => exact C.lock ret (by simp [Sys.held, at_main, Main.depth]) main
  | unlockMain at_main ret => exact C.unlock ret (by simp [Sys.held, at_main, Main.depth]) main

/-! ## The elements -/

/-- The next number that the thread has not yet added. -/
def Local.reached (l : Local) : Int :=
  match l.pc with
  | .unlock | .leave | .next => l.i + 1
  | _ => l.i

/-- How far the loop of a thread has come. -/
structure Counting (j : Job) (l : Local) : Prop where
  above : j.first ≤ l.i
  below : l.i = j.first ∨ l.i ≤ j.last + 1
  inside : l.pc ≠ .test → l.pc ≠ .done → l.i ≤ j.last
  done : l.pc = .done → j.last < l.i

/-- What a thread has added when its loop has ended. -/
theorem Counting.all {j : Job} {l : Local} (c : Counting j l) (done : l.pc = .done) :
    Int.range j.first l.reached = Int.range j.first (j.last + 1) := by
  have past := c.done done
  have here : l.reached = l.i := by simp [Local.reached, done]
  rw [here]
  rcases c.below with eq | le
  · rw [range_empty (by omega), range_empty (by omega)]
  · rw [show l.i = j.last + 1 by omega]

/-- What holds of the program in every run. -/
structure Sound (job : T → Job) (σ : Sys T) : Prop where
  counts : σ.mutex.Counts σ.held
  counting : ∀ t, Counting (job t) (σ.thread t)
  parts : Interleaves (fun t => Int.range (job t).first (σ.thread t).reached) σ.elements
  joined : σ.main ≠ .joining → ∀ t, (σ.thread t).pc = .done
  printed : σ.printed = if σ.main = .unlocking ∨ σ.main = .done then σ.elements else []

/-- One thread goes on in its loop. -/
theorem Sound.go (S : Sound job σ) {l : Local} (counts : σ'.mutex.Counts σ'.held)
    (threads : σ'.thread = Function.update σ.thread t l) (main : σ'.main = σ.main)
    (printed : σ'.printed = σ.printed) (not_done : (σ.thread t).pc ≠ .done)
    (counting : Counting (job t) l)
    (adds : l.reached = (σ.thread t).reached ∧ σ'.elements = σ.elements ∨
      (job t).first ≤ (σ.thread t).reached ∧ l.reached = (σ.thread t).reached + 1 ∧
        σ'.elements = σ.elements ++ [(σ.thread t).reached]) : Sound job σ' := by
  have joining : σ.main = .joining := by
    by_contra joined
    exact not_done (S.joined joined t)
  have others (u : T) (ne : u ≠ t) : σ'.thread u = σ.thread u := by
    rw [threads, Function.update_of_ne ne]
  have mine : σ'.thread t = l := by rw [threads, Function.update_self]
  refine ⟨counts, fun u => ?_, ?_, fun joined => absurd (main.trans joining) joined, ?_⟩
  · by_cases eq : u = t
    · rw [eq, mine]
      exact counting
    · rw [others u eq]
      exact S.counting u
  · rcases adds with ⟨same, elements⟩ | ⟨le, more, elements⟩
    · rw [elements]
      refine S.parts.congr fun u => ?_
      by_cases eq : u = t
      · rw [eq, mine, same]
      · rw [others u eq]
    · rw [elements]
      refine S.parts.push (t := t) ?_ fun u ne => by rw [others u ne]
      rw [mine, more, range_snoc le]
  · rw [printed, S.printed, main, joining]
    simp

theorem move_sound (S : Sound job σ) (move : Move job σ act σ') : Sound job σ' := by
  have counts := move_counts S.counts move
  cases move with
  | @enter t pc le =>
    have C := S.counting t
    refine S.go counts rfl rfl rfl (by simp [pc]) ⟨C.above, C.below, fun _ _ => le, by simp⟩
      (.inl ⟨?_, rfl⟩)
    simp [Local.reached, pc]
  | @finish t pc gt =>
    have C := S.counting t
    refine S.go counts rfl rfl rfl (by simp [pc]) ⟨C.above, C.below, by simp, fun _ => gt⟩
      (.inl ⟨?_, rfl⟩)
    simp [Local.reached, pc]
  | @locks t pc' m pc _ =>
    have C := S.counting t
    rcases pc with ⟨pc, rfl⟩ | ⟨pc, rfl⟩
    all_goals
      have le := C.inside (by simp [pc]) (by simp [pc])
      refine S.go counts rfl rfl rfl (by simp [pc]) ⟨C.above, C.below, fun _ _ => le, by simp⟩
        (.inl ⟨?_, rfl⟩)
      simp [Local.reached, pc]
  | @push t pc =>
    have C := S.counting t
    have le := C.inside (by simp [pc]) (by simp [pc])
    have here : (σ.thread t).reached = (σ.thread t).i := by simp [Local.reached, pc]
    refine S.go counts rfl rfl rfl (by simp [pc]) ⟨C.above, C.below, fun _ _ => le, by simp⟩
      (.inr ⟨here.symm ▸ C.above, ?_, by rw [here]⟩)
    rw [here]
    rfl
  | @unlocks t pc' m pc _ =>
    have C := S.counting t
    rcases pc with ⟨pc, rfl⟩ | ⟨pc, rfl⟩
    all_goals
      have le := C.inside (by simp [pc]) (by simp [pc])
      refine S.go counts rfl rfl rfl (by simp [pc]) ⟨C.above, C.below, fun _ _ => le, by simp⟩
        (.inl ⟨?_, rfl⟩)
      simp [Local.reached, pc]
  | @next t pc =>
    have C := S.counting t
    have le := C.inside (by simp [pc]) (by simp [pc])
    have above := C.above
    refine S.go counts rfl rfl rfl (by simp [pc]) ⟨by simp only; omega, .inr (by simp only; omega),
      by simp, by simp⟩ (.inl ⟨?_, rfl⟩)
    simp [Local.reached, pc]
  | join at_main all =>
    refine ⟨counts, S.counting, S.parts, fun _ => all, ?_⟩
    simp [S.printed, at_main]
  | lockMain at_main _ | print at_main | unlockMain at_main _ =>
    refine ⟨counts, S.counting, S.parts, fun _ => S.joined (by simp [at_main]), ?_⟩
    simp [S.printed, at_main]

theorem start_sound : Sound job (start job) := by
  refine ⟨⟨fun o => ?_, fun o here => by cases here⟩, fun t => ?_, ?_, by simp [start],
    by simp [start]⟩
  · cases o <;> simp [start, Sys.held, Pc.depth, Main.depth, RecursiveMutex.free]
  · exact ⟨Int.le_refl _, .inl rfl, by simp [start], by simp [start]⟩
  · exact .nil fun t => range_empty (Int.le_refl _)

theorem run_sound [Fintype T] {acts : List (Option T)} (run : Run (Step job) (start job) acts σ) :
    Sound job σ :=
  run.invariant start_sound fun _ _ _ S step => move_sound S (step_move step)

end

/-- In every order of steps one thread at a time is inside the container, and the mutex counts
its locks; the elements are made up of what each thread has added so far, in its order, and
`Dump` prints them all once they are all there. -/
theorem adds_interleaved {T : Type} [Fintype T] [DecidableEq T] (job : T → Job)
    (acts : List (Option T)) (σ : Sys T) (run : Run (Step job) (start job) acts σ) :
    (∀ o p, 0 < σ.held o → 0 < σ.held p → p = o) ∧
    (∀ o, 0 < σ.held o → σ.mutex.owner = some o ∧ σ.mutex.depth = σ.held o) ∧
    Interleaves (fun t => Int.range (job t).first (σ.thread t).reached) σ.elements ∧
    (σ.main = .done →
      Interleaves (fun t => Int.range (job t).first ((job t).last + 1)) σ.printed) := by
  have S := run_sound run
  refine ⟨fun o p => S.counts.unique, fun o held => ?_, S.parts, fun done => ?_⟩
  · have owner := (S.counts.owner o).mpr held
    exact ⟨owner, S.counts.depth o owner⟩
  · have all := S.joined (by simp [done])
    rw [S.printed, if_pos (.inr done)]
    exact S.parts.congr fun t => ((S.counting t).all (all t)).symm

/-- The threads of `Test2`. -/
def jobs : Bool → Job
  | false => ⟨1, 10, by decide, by decide⟩
  | true => ⟨100, 110, by decide, by decide⟩

/-- The first thread is inside when the second comes to the lock. -/
def twoAdds : List (Option Bool) :=
  [some false, some false, some true, some false, some false, some false, some false,
    some true, some true, some true]

theorem twoAdds_interleaved : ∃ σ, Run (Step jobs) (start jobs) twoAdds σ ∧
    σ.elements = [1, 100] ∧
    Interleaves (fun t => Int.range (jobs t).first (σ.thread t).reached) σ.elements := by
  have ran : (execute (Sys.step jobs) (start jobs) twoAdds).map (fun σ => σ.elements) =
      some [1, 100] := by
    decide
  obtain ⟨σ, ret, elements⟩ := Option.map_eq_some_iff.mp ran
  have run : Run (Step jobs) (start jobs) twoAdds σ := execute_run (fun _ _ _ step => step) ret
  exact ⟨σ, run, elements, (adds_interleaved jobs twoAdds σ run).2.2.1⟩

/-! ## Every run comes to its end -/

/-- How many steps of a turn of the loop are behind. -/
def Pc.past : Pc → Nat
  | .test => 0
  | .lock => 1
  | .relock => 2
  | .push => 3
  | .unlock => 4
  | .leave => 5
  | .next => 6
  | .done => 1

/-- How many steps a thread has left. -/
def Local.work (l : Local) (j : Job) : Nat := 7 * (j.last + 1 - l.i).toNat + 1 - l.pc.past

def Main.work : Main → Nat
  | .joining => 4
  | .locking => 3
  | .printing => 2
  | .unlocking => 1
  | .done => 0

section
variable {T : Type} [Fintype T] [DecidableEq T] {job : T → Job} {σ σ' : Sys T} {act : Option T}
  {t : T}

def Sys.work (job : T → Job) (σ : Sys T) : Nat :=
  total (fun x : Job × Local => x.2.work x.1) (fun t => (job t, σ.thread t)) + σ.main.work

theorem go_work {l : Local} (threads : σ'.thread = Function.update σ.thread t l)
    (main : σ'.main = σ.main) (less : l.work (job t) + 1 = (σ.thread t).work (job t)) :
    σ'.work job + 1 = σ.work job := by
  have moved : (fun u => (job u, σ'.thread u)) =
      Function.update (fun u => (job u, σ.thread u)) t (job t, l) := by
    funext u
    by_cases eq : u = t
    · subst eq
      simp [threads]
    · simp [threads, eq]
  have sum := total_step (g := fun x : Job × Local => x.2.work x.1)
    (f := fun u => (job u, σ.thread u)) (i := t) (x := (job t, l)) (a := 1) (b := 0) less
  rw [Sys.work, Sys.work, moved, main]
  omega

/-- Each step is one of those that were left. -/
theorem move_work (S : Sound job σ) (move : Move job σ act σ') :
    σ'.work job + 1 = σ.work job := by
  cases move with
  | @enter t pc le =>
    refine go_work rfl rfl ?_
    simp only [Local.work, pc, Pc.past]
    omega
  | @finish t pc gt =>
    refine go_work rfl rfl ?_
    simp only [Local.work, pc, Pc.past]
    omega
  | @locks t pc' m pc _ | @unlocks t pc' m pc _ =>
    rcases pc with ⟨pc, rfl⟩ | ⟨pc, rfl⟩
    all_goals
      have le := (S.counting t).inside (by simp [pc]) (by simp [pc])
      refine go_work rfl rfl ?_
      simp only [Local.work, pc, Pc.past]
      omega
  | @push t pc | @next t pc =>
    have le := (S.counting t).inside (by simp [pc]) (by simp [pc])
    refine go_work rfl rfl ?_
    simp only [Local.work, pc, Pc.past]
    omega
  | join at_main _ | lockMain at_main _ | print at_main | unlockMain at_main _ =>
    simp [Sys.work, at_main, Main.work]

/-- A thread that is not done has a step while no other is inside. -/
theorem thread_steps (S : Sound job σ) (fits : Fits 32 ((job t).last + 1))
    (going : (σ.thread t).pc ≠ .done)
    (free : σ.mutex.owner = none ∨ σ.mutex.owner = some (some t)) :
    (σ.step job (some t)).isSome = true := by
  have locks : (σ.mutex.lock (some t)).isSome = true := by
    rcases free with free | free <;> simp [RecursiveMutex.lock, free]
  have unlocks (pos : 0 < (σ.thread t).pc.depth) : (σ.mutex.unlock (some t)).isSome = true :=
    S.counts.unlocks pos
  cases pc : (σ.thread t).pc with
  | test | push => simp [Sys.step, Sys.func2, pc]
  | lock | relock => simpa [Sys.step, Sys.func2, pc] using locks
  | unlock | leave => simpa [Sys.step, Sys.func2, pc] using unlocks (by simp [pc, Pc.depth])
  | next =>
    have C := S.counting t
    have le := C.inside (by simp [pc]) (by simp [pc])
    have above := C.above
    have more : Fits 32 ((σ.thread t).i + 1) := by
      have low := (job t).first_fits
      rw [fits_int] at fits low ⊢
      omega
    simp [Sys.step, Sys.func2, pc, checked, more]
  | done => exact absurd pc going

/-- Once the threads have returned, the main thread has a step. -/
theorem main_steps (S : Sound job σ) (all : ∀ t, (σ.thread t).pc = .done)
    (going : σ.main ≠ .done) : (σ.step job none).isSome = true := by
  cases at_main : σ.main with
  | joining => simp [Sys.step, Sys.test2, at_main, all]
  | locking =>
    have nobody : σ.mutex.owner = none := by
      cases owner : σ.mutex.owner with
      | none => rfl
      | some o =>
        have pos := (S.counts.owner o).mp owner
        cases o with
        | none => simp [Sys.held, at_main, Main.depth] at pos
        | some t => simp [Sys.held, all t, Pc.depth] at pos
    simp [Sys.step, Sys.test2, at_main, RecursiveMutex.lock, nobody]
  | printing => simp [Sys.step, Sys.test2, at_main]
  | unlocking =>
    have pos : 0 < σ.held none := by simp [Sys.held, at_main, Main.depth]
    simpa [Sys.step, Sys.test2, at_main] using S.counts.unlocks pos
  | done => exact absurd at_main going

theorem no_deadlock (S : Sound job σ) (fits : ∀ t, Fits 32 ((job t).last + 1))
    (going : σ.main ≠ .done) : ∃ act, (σ.step job act).isSome = true := by
  by_cases all : ∀ t, (σ.thread t).pc = .done
  · exact ⟨none, main_steps S all going⟩
  · obtain ⟨t, not_done⟩ := not_forall.mp all
    cases owner : σ.mutex.owner with
    | none => exact ⟨some t, thread_steps S (fits t) not_done (.inl owner)⟩
    | some o =>
      have pos := (S.counts.owner o).mp owner
      cases o with
      | none =>
        -- The main thread locks only behind the joins.
        refine absurd (S.joined ?_) all
        rintro joining
        simp [Sys.held, joining, Main.depth] at pos
      | some u =>
        refine ⟨some u, thread_steps S (fits u) ?_ (.inr owner)⟩
        rintro done
        simp [Sys.held, done, Pc.depth] at pos

theorem run_work {acts : List (Option T)} (run : Run (Step job) (start job) acts σ) :
    acts.length + σ.work job = (start job).work job := by
  induction run with
  | nil => simp
  | snoc run step ih =>
    have less := move_work (run_sound run) (step_move step)
    rw [List.length_append, List.length_singleton]
    omega

theorem Counting.no_work {j : Job} {l : Local} (C : Counting j l) (done : l.pc = .done) :
    l.work j = 0 := by
  have behind := C.done done
  simp only [Local.work, done, Pc.past]
  omega

theorem work_done (S : Sound job σ) (done : σ.main = .done) : σ.work job = 0 := by
  have threads : total (fun x : Job × Local => x.2.work x.1) (fun t => (job t, σ.thread t)) = 0 :=
    total_eq_zero.mpr fun t => (S.counting t).no_work (S.joined (by simp [done]) t)
  rw [Sys.work, threads, done]
  rfl

end

/-- No thread waits for itself or for ever: until `Dump` has printed, some thread has a step,
and in every order they come to that end after the same number of steps, with the mutex free. -/
theorem test2_returns {T : Type} [Fintype T] [DecidableEq T] (job : T → Job)
    (fits : ∀ t, Fits 32 ((job t).last + 1)) (acts : List (Option T)) (σ : Sys T)
    (run : Run (Step job) (start job) acts σ) :
    acts.length + σ.work job =
      ∑ t, (7 * ((job t).last + 1 - (job t).first).toNat + 1) + 4 ∧
    (σ.main ≠ .done → ∃ act, (σ.step job act).isSome = true) ∧
    (σ.main = .done → σ.mutex.owner = none ∧ σ.work job = 0) := by
  have S := run_sound run
  refine ⟨run_work run, no_deadlock S fits, fun done => ⟨?_, work_done S done⟩⟩
  cases owner : σ.mutex.owner with
  | none => rfl
  | some o =>
    have pos := (S.counts.owner o).mp owner
    cases o with
    | none => simp [Sys.held, done, Main.depth] at pos
    | some t => simp [Sys.held, S.joined (by simp [done]) t, Pc.depth] at pos

/-- With the second thread inside, it is its turn. -/
theorem twoAdds_goes_on : ∃ σ, Run (Step jobs) (start jobs) twoAdds σ ∧
    ∃ act, (σ.step jobs act).isSome = true := by
  have ran : (execute (Sys.step jobs) (start jobs) twoAdds).map (fun σ => σ.main) =
      some .joining := by
    decide
  obtain ⟨σ, ret, main⟩ := Option.map_eq_some_iff.mp ran
  have run : Run (Step jobs) (start jobs) twoAdds σ := execute_run (fun _ _ _ step => step) ret
  have fits : ∀ t, Fits 32 ((jobs t).last + 1) := by
    intro t
    cases t <;> decide
  exact ⟨σ, run, (test2_returns jobs fits twoAdds σ run).2.1 (by simp [main])⟩

end LearnC.Thread.Container
