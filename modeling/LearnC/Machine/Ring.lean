import Mathlib.Data.List.DropRight
import Mathlib.Logic.Function.Basic

/-! Ring buffers: the last entries, in a fixed number of slots. -/

namespace LearnC

/-- `count` entries from slot `start` on, round the slots below `cap`. -/
@[ext] structure Ring (α : Type) (cap : Nat) where
  slots : Nat → α
  start : Nat
  count : Nat
  start_lt : start < cap
  count_le : count ≤ cap

namespace Ring

section
variable {α : Type} {cap : Nat}

/-- The slot of the `i`-th entry. -/
def slot (r : Ring α cap) (i : Nat) : Nat := (r.start + i) % cap

/-- The entries, oldest first. -/
def toList (r : Ring α cap) : List α := (List.range r.count).map fun i => r.slots (r.slot i)

/-- A new entry goes behind the youngest, and where all slots are taken over the oldest. -/
def push (r : Ring α cap) (x : α) : Ring α cap where
  slots := Function.update r.slots (r.slot r.count) x
  start := if r.count = cap then (r.start + 1) % cap else r.start
  count := if r.count = cap then r.count else r.count + 1
  start_lt := by
    have := r.start_lt
    split
    · exact Nat.mod_lt _ (by omega)
    · exact this
  count_le := by
    have := r.count_le
    split <;> omega

variable {r : Ring α cap} {x : α} {i j : Nat}

theorem slot_lt (r : Ring α cap) (i : Nat) : r.slot i < cap :=
  Nat.mod_lt _ (Nat.lt_of_le_of_lt (Nat.zero_le _) r.start_lt)

@[simp] theorem length_toList (r : Ring α cap) : r.toList.length = r.count := by simp [toList]

theorem getElem_toList (h : i < r.toList.length) : r.toList[i] = r.slots (r.slot i) := by
  simp [toList]

/-- Only the slots in use count. -/
theorem toList_congr {r' : Ring α cap} (start : r'.start = r.start) (count : r'.count = r.count)
    (slots : ∀ i < r.count, r'.slots (r.slot i) = r.slots (r.slot i)) : r'.toList = r.toList := by
  have slot (i : Nat) : r'.slot i = r.slot i := by rw [Ring.slot, Ring.slot, start]
  rw [toList, toList, count]
  apply List.map_congr_left
  intro i hi
  rw [slot, slots i (List.mem_range.mp hi)]

/-- Entries less than a round apart have slots of their own. -/
theorem slot_ne (lt : i < j) (near : j < i + cap) : r.slot i ≠ r.slot j := by
  intro same
  have round := Nat.sub_mod_eq_zero_of_mod_eq same.symm
  rw [Nat.add_sub_add_left, Nat.mod_eq_of_lt (by omega)] at round
  omega

/-- What the slots of the old entries and of the new one hold after a push. -/
theorem push_slots (h : i < (r.toList ++ [x]).length) (near : r.count < i + cap) :
    (r.push x).slots (r.slot i) = (r.toList ++ [x])[i] := by
  have le : i ≤ r.count := by
    rw [List.length_append, length_toList, List.length_singleton] at h
    omega
  rcases Nat.lt_or_eq_of_le le with lt | rfl
  · rw [List.getElem_append_left (by simpa using lt), getElem_toList]
    exact Function.update_of_ne (slot_ne lt near) ..
  · rw [List.getElem_append_right (by simp)]
    simp [push]

/-- The entries that a push takes out: the oldest, where all slots are taken. -/
def dropped (r : Ring α cap) : Nat := if r.count = cap then 1 else 0

theorem push_count (r : Ring α cap) (x : α) : (r.push x).count + r.dropped = r.count + 1 := by
  by_cases full : r.count = cap <;> simp [push, dropped, full]

/-- After a push each entry is found further down by what it took out. -/
theorem push_slot (r : Ring α cap) (x : α) (i : Nat) :
    (r.push x).slot i = r.slot (r.dropped + i) := by
  by_cases full : r.count = cap <;> simp [push, dropped, slot, full, Nat.add_assoc]

theorem dropped_near (r : Ring α cap) : r.count < r.dropped + cap := by
  have le := r.count_le
  rw [dropped]
  split <;> omega

theorem dropped_le (r : Ring α cap) : r.dropped ≤ r.count := by
  have pos := Nat.lt_of_le_of_lt (Nat.zero_le _) r.start_lt
  rw [dropped]
  split <;> omega

/-- The ring keeps the last `cap` entries. -/
theorem toList_push (r : Ring α cap) (x : α) :
    (r.push x).toList = (r.toList ++ [x]).rtake cap := by
  have count := r.push_count x
  have near := r.dropped_near
  have drop : (r.toList ++ [x]).rtake cap = (r.toList ++ [x]).drop r.dropped := by
    rw [List.rtake, List.length_append, length_toList, List.length_singleton]
    congr 1
    have le := r.count_le
    rw [dropped]
    split <;> omega
  rw [drop]
  apply List.ext_getElem
  · rw [length_toList, List.length_drop, List.length_append, length_toList,
      List.length_singleton]
    omega
  · intro i _ _
    rw [getElem_toList, push_slot, List.getElem_drop]
    exact push_slots _ (by omega)

/-- Where a slot is left, a push takes nothing out. -/
theorem toList_push_room (room : r.count < cap) : (r.push x).toList = r.toList ++ [x] := by
  rw [toList_push, List.rtake, Nat.sub_eq_zero_of_le, List.drop_zero]
  rw [List.length_append, length_toList, List.length_singleton]
  exact room

/-- The oldest entry leaves. -/
def pop (r : Ring α cap) : Ring α cap where
  slots := r.slots
  start := (r.start + 1) % cap
  count := r.count - 1
  start_lt := Nat.mod_lt _ (Nat.lt_of_le_of_lt (Nat.zero_le _) r.start_lt)
  count_le := Nat.le_trans (Nat.sub_le _ _) r.count_le

theorem pop_slot (r : Ring α cap) (i : Nat) : r.pop.slot i = r.slot (i + 1) := by
  simp [pop, slot, Nat.add_assoc, Nat.add_comm i 1]

theorem slot_zero (r : Ring α cap) : r.slot 0 = r.start := Nat.mod_eq_of_lt r.start_lt

theorem toList_pop (pos : 0 < r.count) : r.toList = r.slots r.start :: r.pop.toList := by
  obtain ⟨n, count⟩ := Nat.exists_eq_succ_of_ne_zero pos.ne'
  have rest : r.pop.toList = (List.range n).map fun i => r.slots (r.slot (i + 1)) := by
    rw [toList, show r.pop.count = n by simp [pop, count]]
    exact List.map_congr_left fun i _ => congrArg r.slots (r.pop_slot i)
  rw [rest, toList, count, List.range_succ_eq_map, List.map_cons, List.map_map, slot_zero]
  rfl

/-- The slots that hold an entry. -/
def Used (r : Ring α cap) (s : Nat) : Prop := ∃ i < r.count, r.slot i = s

theorem used_start (pos : 0 < r.count) : r.Used r.start := ⟨0, pos, r.slot_zero⟩

/-- A push with a slot left writes to a slot without an entry. -/
theorem not_used_end (room : r.count < cap) : ¬ r.Used (r.slot r.count) := by
  rintro ⟨i, lt, same⟩
  exact slot_ne lt (by omega) same

theorem used_push (room : r.count < cap) (s : Nat) :
    (r.push x).Used s ↔ s = r.slot r.count ∨ r.Used s := by
  have count : (r.push x).count = r.count + 1 := by simp [push, room.ne]
  have slot (i : Nat) : (r.push x).slot i = r.slot i := by simp [push, Ring.slot, room.ne]
  constructor
  · rintro ⟨i, lt, rfl⟩
    rcases Nat.lt_or_eq_of_le (Nat.le_of_lt_succ (count ▸ lt)) with lt | rfl
    · exact .inr ⟨i, lt, (slot i).symm⟩
    · exact .inl (slot _)
  · rintro (rfl | ⟨i, lt, rfl⟩)
    · exact ⟨r.count, by omega, slot _⟩
    · exact ⟨i, by omega, slot _⟩

theorem used_pop (pos : 0 < r.count) (s : Nat) : r.pop.Used s ↔ s ≠ r.start ∧ r.Used s := by
  have count : r.pop.count + 1 = r.count := Nat.sub_add_cancel pos
  have le := r.count_le
  constructor
  · rintro ⟨i, lt, rfl⟩
    rw [pop_slot, ← slot_zero r]
    exact ⟨(slot_ne (by omega) (by omega)).symm, i + 1, by omega, rfl⟩
  · rintro ⟨ne, i, lt, rfl⟩
    cases i with
    | zero => exact absurd r.slot_zero ne
    | succ i => exact ⟨i, by omega, r.pop_slot i⟩

/-- What holds of every entry after a push: of the new one, and of each old one that stays. -/
theorem forall_push {P : Nat → α → Prop} :
    (∀ i < (r.push x).count, P ((r.push x).slot i) ((r.push x).slots ((r.push x).slot i))) ↔
      P (r.slot r.count) x ∧ ∀ i < r.count, r.dropped ≤ i → P (r.slot i) (r.slots (r.slot i)) := by
  have count := r.push_count x
  have near := r.dropped_near
  have le := r.dropped_le
  have old : ∀ i < r.count, r.dropped ≤ i →
      (r.push x).slots (r.slot i) = r.slots (r.slot i) := by
    intro i lt le
    exact Function.update_of_ne (slot_ne lt (by omega)) ..
  have new : (r.push x).slots (r.slot r.count) = x := Function.update_self ..
  simp only [push_slot]
  constructor
  · intro all
    have all' : ∀ i, r.dropped ≤ i → i < r.count + 1 →
        P (r.slot i) ((r.push x).slots (r.slot i)) := by
      intro i le lt
      have at_i := all (i - r.dropped) (by omega)
      rwa [Nat.add_sub_cancel' le] at at_i
    constructor
    · have last := all' r.count (by omega) (by omega)
      rwa [new] at last
    · intro i lt le
      have at_i := all' i le (by omega)
      rwa [old i lt le] at at_i
  · rintro ⟨last, rest⟩ i hi
    rcases Nat.lt_or_eq_of_le (show r.dropped + i ≤ r.count by omega) with lt | eq
    · rw [old _ lt (Nat.le_add_right _ _)]
      exact rest _ lt (Nat.le_add_right _ _)
    · rw [eq, new]
      exact last

end

end Ring

theorem exists_map_some {α : Type} {l : List (Option α)} (all : ∀ x ∈ l, x.isSome = true) :
    ∃ xs : List α, l = xs.map some := by
  induction l with
  | nil => exact ⟨[], rfl⟩
  | cons x l ih =>
    rw [List.forall_mem_cons] at all
    obtain ⟨a, rfl⟩ := Option.isSome_iff_exists.mp all.1
    obtain ⟨xs, rfl⟩ := ih all.2
    exact ⟨a :: xs, rfl⟩

theorem map_rtake {α β : Type} (f : α → β) (l : List α) (n : Nat) :
    (l.rtake n).map f = (l.map f).rtake n := by
  rw [List.rtake, List.rtake, List.map_drop, List.length_map]

theorem length_rtake_append_pos {α : Type} {l : List α} {x : α} {n : Nat} (pos : 0 < n) :
    0 < ((l ++ [x]).rtake n).length := by
  rw [List.rtake, List.length_drop, List.length_append, List.length_singleton]
  omega

/-- To keep the last entries it is enough to have kept them before. -/
theorem rtake_rtake_append {α : Type} (l : List α) (x : α) (n : Nat) :
    (l.rtake n ++ [x]).rtake n = (l ++ [x]).rtake n := by
  cases n with
  | zero => simp
  | succ n =>
    rw [List.rtake_concat_succ, List.rtake_concat_succ]
    simp only [List.rtake, List.length_drop, List.drop_drop]
    congr 2
    omega

end LearnC
