import LearnC.Machine.Run
import Mathlib.Algebra.BigOperators.Group.Finset.Piecewise
import Mathlib.Algebra.Order.BigOperators.Group.Finset

/-! Threads at a condition variable: how many are blocked in the wait, how many will test the
condition again, and how many notifications are still to come. -/

namespace LearnC

/-! ## Sums over threads -/

section
variable {ι α : Type} [Fintype ι] {f f' : ι → α} {g g' : α → Nat} {i : ι} {x : α}

/-- The weights of the places where the threads stand. -/
def total (g : α → Nat) (f : ι → α) : Nat := ∑ i, g (f i)

/-- How many threads stand at a place with `p`. -/
def count (p : α → Bool) (f : ι → α) : Nat := total (fun x => (p x).toNat) f

theorem total_update [DecidableEq ι] (i : ι) (x : α) :
    total g (Function.update f i x) + g (f i) = total g f + g x := by
  have moved : (fun j => g (Function.update f i x j)) =
      Function.update (fun j => g (f j)) i (g x) :=
    Function.comp_update g f i x
  have rest := Finset.add_sum_erase Finset.univ (fun j => g (f j)) (Finset.mem_univ i)
  rw [total, total, moved, Finset.sum_update_of_mem (Finset.mem_univ i),
    Finset.sdiff_singleton_eq_erase, ← rest]
  omega

/-- One thread moves, by a step that changes its weight like this. -/
theorem total_step [DecidableEq ι] {a b : Nat} (change : g x + a = g (f i) + b) :
    total g (Function.update f i x) + a = total g f + b := by
  have := total_update (g := g) (f := f) i x
  omega

theorem count_step [DecidableEq ι] {p : α → Bool} {a b : Nat}
    (change : (p x).toNat + a = (p (f i)).toNat + b) :
    count p (Function.update f i x) + a = count p f + b :=
  total_step change

theorem count_same [DecidableEq ι] {p : α → Bool} (same : p x = p (f i)) :
    count p (Function.update f i x) = count p f :=
  count_step (a := 0) (b := 0) (by rw [same])

theorem total_congr (same : ∀ i, g' (f' i) = g (f i)) : total g' f' = total g f :=
  Finset.sum_congr rfl fun i _ => same i

theorem total_eq_zero : total g f = 0 ↔ ∀ i, g (f i) = 0 := by
  simp [total]

theorem total_le (le : ∀ i, g' (f' i) ≤ g (f i)) : total g' f' ≤ total g f :=
  Finset.sum_le_sum fun i _ => le i

theorem total_lt (le : ∀ i, g' (f' i) ≤ g (f i)) (lt : g' (f' i) < g (f i)) :
    total g' f' < total g f :=
  Finset.sum_lt_sum (fun i _ => le i) ⟨i, Finset.mem_univ i, lt⟩

theorem count_eq_zero {p : α → Bool} : count p f = 0 ↔ ∀ i, p (f i) = false := by
  simp [count, total_eq_zero]

theorem count_pos {p : α → Bool} : 0 < count p f ↔ ∃ i, p (f i) = true := by
  rw [Nat.pos_iff_ne_zero, Ne, count_eq_zero]
  simp

end

/-! ## The mutex -/

/-- The mutex is with the thread that stands behind its lock and before its unlock. -/
def Mutex {O : Type} (lock : Option O) (holds : O → Prop) : Prop := ∀ o, lock = some o ↔ holds o

section
variable {O : Type} {lock : Option O} {holds holds' : O → Prop} {o : O}

theorem Mutex.keep (M : Mutex lock holds) (same : ∀ p, holds' p ↔ holds p) : Mutex lock holds' :=
  fun p => (M p).trans (same p).symm

theorem Mutex.acquire (M : Mutex none holds) (mine : holds' o)
    (others : ∀ p, p ≠ o → (holds' p ↔ holds p)) : Mutex (some o) holds' := by
  intro p
  by_cases eq : p = o
  · subst eq
    exact iff_of_true rfl mine
  · rw [others p eq, ← M p]
    exact iff_of_false (fun h => eq (Option.some.inj h).symm) (by simp)

theorem Mutex.release (M : Mutex lock holds) (held : holds o) (free : ¬ holds' o)
    (others : ∀ p, p ≠ o → (holds' p ↔ holds p)) : Mutex none holds' := by
  have mine := (M o).mpr held
  intro p
  by_cases eq : p = o
  · subst eq
    exact iff_of_false (by simp) free
  · rw [others p eq, ← M p, mine]
    exact iff_of_false (by simp) fun h => eq (Option.some.inj h).symm

/-- Mutual exclusion. -/
theorem Mutex.unique (M : Mutex lock holds) {p : O} (held : holds o) (held' : holds p) : p = o :=
  Option.some.inj (((M p).mpr held').symm.trans ((M o).mpr held))

end

/-! ## The recursive mutex -/

/-- A mutex that its owner may lock again, with the number of locks to undo. -/
structure RecursiveMutex (O : Type) where
  owner : Option O
  depth : Nat

namespace RecursiveMutex

variable {O : Type}

/-- Nobody has locked it. -/
def free : RecursiveMutex O := ⟨none, 0⟩

/-- None while another owner has it. -/
def lock [DecidableEq O] (m : RecursiveMutex O) (o : O) : Option (RecursiveMutex O) :=
  if m.owner = none then some ⟨some o, 1⟩
  else if m.owner = some o then some ⟨some o, m.depth + 1⟩
  else none

/-- None for anyone but the owner. -/
def unlock [DecidableEq O] (m : RecursiveMutex O) (o : O) : Option (RecursiveMutex O) :=
  if m.owner = some o then
    some (if m.depth = 1 then free else ⟨some o, m.depth - 1⟩)
  else none

/-- The owner is the one that holds locks, and the mutex counts them. -/
structure Counts (m : RecursiveMutex O) (held : O → Nat) : Prop where
  owner : ∀ o, m.owner = some o ↔ 0 < held o
  depth : ∀ o, m.owner = some o → m.depth = held o

variable {m m' : RecursiveMutex O} {held held' : O → Nat} {o p : O}

/-- Mutual exclusion. -/
theorem Counts.unique (C : Counts m held) (ho : 0 < held o) (hp : 0 < held p) : p = o :=
  Option.some.inj (((C.owner p).mpr hp).symm.trans ((C.owner o).mpr ho))

theorem Counts.congr (C : Counts m held) (same : ∀ p, held' p = held p) : Counts m held' := by
  obtain rfl : held' = held := funext same
  exact C

/-- A mutex that `o` has, held by nobody else. -/
theorem Counts.of_owner (owner : m.owner = some o) (depth : m.depth = held o) (pos : 0 < held o)
    (others : ∀ p, p ≠ o → held p = 0) : Counts m held := by
  constructor
  · intro p
    by_cases eq : p = o
    · subst eq
      exact iff_of_true owner pos
    · rw [owner, others p eq]
      exact iff_of_false (fun same => eq (Option.some.inj same).symm) (Nat.lt_irrefl 0)
  · intro p here
    obtain rfl := Option.some.inj (owner.symm.trans here)
    exact depth

variable [DecidableEq O]

theorem Counts.lock (C : Counts m held) (ret : m.lock o = some m') (mine : held' o = held o + 1)
    (others : ∀ p, p ≠ o → held' p = held p) : Counts m' held' := by
  unfold RecursiveMutex.lock at ret
  split at ret
  · next nobody =>
    have none (p : O) : held p = 0 := by
      by_contra some
      have owner := (C.owner p).mpr (Nat.pos_of_ne_zero some)
      cases nobody.symm.trans owner
    cases ret
    exact .of_owner rfl (by rw [mine, none]) (by rw [mine]; exact Nat.succ_pos _)
      fun p ne => (others p ne).trans (none p)
  · split at ret
    · next own =>
      have alone (p : O) (ne : p ≠ o) : held' p = 0 := by
        rw [others p ne]
        by_contra some
        exact ne (C.unique ((C.owner o).mp own) (Nat.pos_of_ne_zero some))
      cases ret
      exact .of_owner rfl (by rw [mine, C.depth o own]) (by rw [mine]; exact Nat.succ_pos _) alone
    · cases ret

theorem Counts.unlock (C : Counts m held) (ret : m.unlock o = some m')
    (mine : held' o + 1 = held o) (others : ∀ p, p ≠ o → held' p = held p) :
    Counts m' held' := by
  unfold RecursiveMutex.unlock at ret
  obtain ⟨own, ret⟩ := Option.ite_none_right_eq_some.mp ret
  have depth := C.depth o own
  have alone (p : O) (ne : p ≠ o) : held' p = 0 := by
    rw [others p ne]
    by_contra some
    exact ne (C.unique ((C.owner o).mp own) (Nat.pos_of_ne_zero some))
  cases ret
  split
  · next last =>
    have none (p : O) : held' p = 0 := by
      by_cases eq : p = o
      · subst eq
        omega
      · exact alone p eq
    refine ⟨fun p => ?_, fun p here => by cases here⟩
    rw [none p]
    exact iff_of_false (by simp [free]) (Nat.lt_irrefl 0)
  · next more => exact .of_owner rfl (by simp only; omega) (by omega) alone

/-- The owner never waits for itself. -/
theorem Counts.unlocks (C : Counts m held) (pos : 0 < held o) : (m.unlock o).isSome = true := by
  simp [RecursiveMutex.unlock, (C.owner o).mpr pos]

end RecursiveMutex

/-! ## Notifications -/

/-- The threads that wait, those that will test the condition before they wait again, those
that have added to the supply and not yet notified, and how much there is to take. -/
structure Monitor where
  blocked : Nat
  awake : Nat
  notifying : Nat
  supply : Nat

namespace Monitor

/-- The steps of a monitor whose condition is that there is something to take: a thread
waits or leaves for good only when there is nothing, and every addition is notified. -/
inductive Move (m m' : Monitor) : Prop
  | stay (blocked : m'.blocked = m.blocked) (awake : m'.awake = m.awake)
      (notifying : m'.notifying = m.notifying) (supply : m'.supply = m.supply)
  | add (blocked : m'.blocked = m.blocked) (awake : m'.awake = m.awake)
      (notifying : m'.notifying = m.notifying + 1) (supply : m'.supply = m.supply + 1)
  | notify (blocked : m'.blocked + 1 = m.blocked) (awake : m'.awake = m.awake + 1)
      (notifying : m'.notifying + 1 = m.notifying) (supply : m'.supply = m.supply)
  | unheard (nobody : m.blocked = 0) (blocked : m'.blocked = m.blocked)
  | wake (blocked : m'.blocked + 1 = m.blocked) (awake : m'.awake = m.awake + 1)
      (notifying : m'.notifying = m.notifying) (supply : m'.supply = m.supply)
  | wakeAll (blocked : m'.blocked = 0)
  | take (blocked : m'.blocked = m.blocked) (awake : m'.awake = m.awake)
      (notifying : m'.notifying = m.notifying) (supply : m'.supply + 1 = m.supply)
  | wait (nothing : m'.supply = 0)

/-- While a thread is blocked, every unit of the supply has a thread that will come for it
or a notification that will wake one. -/
def Heard (m : Monitor) : Prop := m.blocked ≠ 0 → m.supply ≤ m.awake + m.notifying

theorem Heard.move {m m' : Monitor} (heard : Heard m) (move : Move m m') : Heard m' := by
  unfold Heard at heard ⊢
  cases move <;> omega

/-- A system whose steps are moves of a monitor loses no notification. -/
theorem heard_of_run {State Label : Type} {Step : State → Label → State → Prop} {start s : State}
    {ls : List Label} {J : State → Prop} {f : State → Monitor} (init : J start)
    (keep : ∀ s l t, J s → Step s l t → J t) (heard : Heard (f start))
    (moves : ∀ s l t, J s → Step s l t → Move (f s) (f t)) (run : Run Step start ls s) :
    Heard (f s) := by
  have both : J s ∧ Heard (f s) := by
    apply run.invariant (I := fun s => J s ∧ Heard (f s)) ⟨init, heard⟩
    rintro s l t ⟨hj, hh⟩ step
    exact ⟨keep s l t hj step, hh.move (moves s l t hj step)⟩
  exact both.2

end Monitor

end LearnC
