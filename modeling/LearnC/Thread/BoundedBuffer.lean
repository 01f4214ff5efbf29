import LearnC.Machine.Ring
import LearnC.Machine.Run

/-! The bounded buffer of `4.semaphore`: a producer and a consumer, and the two
semaphores that count the empty and the filled slots. -/

namespace LearnC.Thread.BoundedBuffer

/-- Where a thread stands in its round: before `sem_wait`; before the transfer under
the mutex; before `sem_post`. -/
inductive Pc where
  | top
  | entered
  | moved
  deriving DecidableEq

/-- The steps in flight between a wait and the matching post. -/
def Pc.inFlight : Pc → Nat
  | .top => 0
  | .entered => 1
  | .moved => 1

/-- A thread and its loop counter. -/
structure Loop where
  pc : Pc
  i : Nat

/-- Besides the variables of the program: the items produced and consumed so far, and
which slots hold an item that has not been consumed. -/
structure Sys where
  buffer : Nat → Nat
  inPos : Nat
  outPos : Nat
  emptySlots : Nat
  filledSlots : Nat
  prod : Loop
  cons : Loop
  produced : List Nat
  consumed : List Nat
  unread : Nat → Bool

/-- `bufferSize` slots, and `items` rounds for each thread. -/
structure Params where
  bufferSize : Nat
  items : Nat

/-- The thread has left its loop. -/
def Loop.Returned (p : Params) (l : Loop) : Prop := l.pc = .top ∧ p.items ≤ l.i

/-- The next step of `producer`; none where it is blocked or has returned. -/
def Sys.producer (p : Params) (σ : Sys) : Option Sys :=
  match σ.prod.pc with
  | .top =>
    if σ.prod.i < p.items ∧ 0 < σ.emptySlots then
      some { σ with
        emptySlots := σ.emptySlots - 1
        prod := ⟨.entered, σ.prod.i⟩ }
    else none
  | .entered =>
    let item := σ.prod.i
    some { σ with
      buffer := Function.update σ.buffer σ.inPos item
      inPos := (σ.inPos + 1) % p.bufferSize
      prod := ⟨.moved, σ.prod.i⟩
      produced := σ.produced ++ [item]
      unread := Function.update σ.unread σ.inPos true }
  | .moved =>
    some { σ with
      filledSlots := σ.filledSlots + 1
      prod := ⟨.top, σ.prod.i + 1⟩ }

/-- The next step of `consumer`. -/
def Sys.consumer (p : Params) (σ : Sys) : Option Sys :=
  match σ.cons.pc with
  | .top =>
    if σ.cons.i < p.items ∧ 0 < σ.filledSlots then
      some { σ with
        filledSlots := σ.filledSlots - 1
        cons := ⟨.entered, σ.cons.i⟩ }
    else none
  | .entered =>
    let item := σ.buffer σ.outPos
    some { σ with
      outPos := (σ.outPos + 1) % p.bufferSize
      cons := ⟨.moved, σ.cons.i⟩
      consumed := σ.consumed ++ [item]
      unread := Function.update σ.unread σ.outPos false }
  | .moved =>
    some { σ with
      emptySlots := σ.emptySlots + 1
      cons := ⟨.top, σ.cons.i + 1⟩ }

inductive Role where
  | producer
  | consumer
  deriving DecidableEq

def Sys.step (p : Params) (σ : Sys) : Role → Option Sys
  | .producer => σ.producer p
  | .consumer => σ.consumer p

def Step (p : Params) (σ : Sys) (t : Role) (σ' : Sys) : Prop := σ.step p t = some σ'

/-- The threads have been created with these values of the semaphores. -/
def started (empty filled : Nat) : Sys where
  buffer := fun _ => 0
  inPos := 0
  outPos := 0
  emptySlots := empty
  filledSlots := filled
  prod := ⟨.top, 0⟩
  cons := ⟨.top, 0⟩
  produced := []
  consumed := []
  unread := fun _ => false

/-- `main` of `demo.c` up to the joins. -/
def start (p : Params) : Sys := started p.bufferSize 0

/-- What the buffer is for. -/
structure Law (p : Params) (σ : Sys) : Prop where
  order : σ.consumed <+: σ.produced
  writes : σ.prod.pc = .entered → σ.inPos < p.bufferSize ∧ σ.unread σ.inPos = false
  reads : σ.cons.pc = .entered → σ.outPos < p.bufferSize ∧ σ.unread σ.outPos = true
  slots : σ.emptySlots + σ.filledSlots + (σ.prod.pc.inFlight + σ.cons.pc.inFlight) = p.bufferSize

/-- The transfers of a thread that it has not yet posted. -/
def Pc.unposted : Pc → Nat
  | .top => 0
  | .entered => 0
  | .moved => 1

/-- The waits of a thread behind which it has not yet made its transfer. -/
def Pc.reserved : Pc → Nat
  | .top => 0
  | .entered => 1
  | .moved => 0

@[simp] theorem unposted_top : Pc.top.unposted = 0 := rfl
@[simp] theorem unposted_entered : Pc.entered.unposted = 0 := rfl
@[simp] theorem unposted_moved : Pc.moved.unposted = 1 := rfl
@[simp] theorem reserved_top : Pc.top.reserved = 0 := rfl
@[simp] theorem reserved_entered : Pc.entered.reserved = 1 := rfl
@[simp] theorem reserved_moved : Pc.moved.reserved = 0 := rfl

theorem inFlight_eq (pc : Pc) : pc.inFlight = pc.reserved + pc.unposted := by
  cases pc <;> rfl

/-- The slots are a ring of the items produced and not yet consumed, and the semaphores
count its slots. -/
structure Inv (p : Params) (σ : Sys) (r : Ring Nat p.bufferSize) : Prop where
  slots : r.slots = σ.buffer
  outPos : r.start = σ.outPos
  inPos : r.slot r.count = σ.inPos
  items : σ.produced = σ.consumed ++ r.toList
  unread : ∀ s, σ.unread s = true ↔ r.Used s
  filled : σ.filledSlots + σ.prod.pc.unposted + σ.cons.pc.reserved = r.count
  empty : σ.emptySlots + σ.prod.pc.reserved + σ.cons.pc.unposted + r.count = p.bufferSize

section
variable {p : Params} {σ σ' : Sys} {r : Ring Nat p.bufferSize}

theorem start_inv (pos : 0 < p.bufferSize) : ∃ r, Inv p (start p) r := by
  refine ⟨⟨fun _ => 0, 0, 0, pos, Nat.zero_le _⟩, ?_⟩
  constructor
  · rfl
  · rfl
  · exact Nat.zero_mod _
  · rfl
  · simp [start, started, Ring.Used]
  all_goals simp [start, started]

theorem producer_inv (I : Inv p σ r) (step : σ.producer p = some σ') : ∃ r', Inv p σ' r' := by
  obtain ⟨slots, outPos, inPos, items, unread, filled, empty⟩ := I
  unfold Sys.producer at step
  cases pc : σ.prod.pc with
  | top =>
    simp only [pc, Option.ite_none_right_eq_some, Option.some.injEq] at step
    obtain ⟨⟨_, free⟩, rfl⟩ := step
    simp only [pc, unposted_top, reserved_top] at filled empty
    refine ⟨r, slots, outPos, inPos, items, unread, filled, ?_⟩
    simp only [reserved_entered]
    omega
  | entered =>
    simp only [pc, Option.some.injEq] at step
    obtain rfl := step
    simp only [pc, unposted_entered, reserved_entered, Nat.add_zero] at filled empty
    have room : r.count < p.bufferSize := by omega
    have count : (r.push σ.prod.i).count = r.count + 1 := by simp [Ring.push, room.ne]
    refine ⟨r.push σ.prod.i, ?_, ?_, ?_, ?_, ?_, ?_, ?_⟩
    · simp [Ring.push, slots, inPos]
    · simp [Ring.push, room.ne, outPos]
    · simp [Ring.slot, Ring.push, room.ne, ← inPos, Nat.add_assoc]
    · rw [Ring.toList_push_room room, items, List.append_assoc]
    · intro s
      simp only [Ring.used_push room, inPos, ← unread s, Function.update_apply]
      split <;> simp [*]
    · simp only [unposted_moved, count]
      omega
    · simp only [reserved_moved, count]
      omega
  | moved =>
    simp only [pc, Option.some.injEq] at step
    obtain rfl := step
    simp only [pc, unposted_moved, reserved_moved, Nat.add_zero] at filled empty
    refine ⟨r, slots, outPos, inPos, items, unread, ?_, empty⟩
    simp only [unposted_top]
    omega

theorem consumer_inv (I : Inv p σ r) (step : σ.consumer p = some σ') : ∃ r', Inv p σ' r' := by
  obtain ⟨slots, outPos, inPos, items, unread, filled, empty⟩ := I
  unfold Sys.consumer at step
  cases pc : σ.cons.pc with
  | top =>
    simp only [pc, Option.ite_none_right_eq_some, Option.some.injEq] at step
    obtain ⟨⟨_, some⟩, rfl⟩ := step
    simp only [pc, unposted_top, reserved_top] at filled empty
    refine ⟨r, slots, outPos, inPos, items, unread, ?_, empty⟩
    simp only [reserved_entered]
    omega
  | entered =>
    simp only [pc, Option.some.injEq] at step
    obtain rfl := step
    simp only [pc, unposted_entered, reserved_entered, Nat.add_zero] at filled empty
    have some : 0 < r.count := by omega
    have count : r.pop.count = r.count - 1 := rfl
    refine ⟨r.pop, slots, ?_, ?_, ?_, ?_, ?_, ?_⟩
    · simp [Ring.pop, outPos]
    · rw [Ring.pop_slot, count, Nat.sub_add_cancel some, inPos]
    · rw [items, Ring.toList_pop some, slots, outPos, List.append_assoc, List.singleton_append]
    · intro s
      simp only [Ring.used_pop some, outPos, ← unread s, Function.update_apply]
      split <;> simp [*]
    · simp only [reserved_moved, count]
      omega
    · simp only [unposted_moved, count]
      omega
  | moved =>
    simp only [pc, Option.some.injEq] at step
    obtain rfl := step
    simp only [pc, unposted_moved, reserved_moved, Nat.add_zero] at filled empty
    refine ⟨r, slots, outPos, inPos, items, unread, filled, ?_⟩
    simp only [unposted_top]
    omega

theorem step_inv {t : Role} (I : ∃ r, Inv p σ r) (step : Step p σ t σ') : ∃ r, Inv p σ' r := by
  obtain ⟨r, I⟩ := I
  cases t with
  | producer => exact producer_inv I step
  | consumer => exact consumer_inv I step

theorem Inv.law (I : Inv p σ r) : Law p σ := by
  constructor
  · exact ⟨_, I.items.symm⟩
  · intro pc
    have room : r.count < p.bufferSize := by
      have := I.empty
      simp only [pc, reserved_entered] at this
      omega
    refine ⟨I.inPos ▸ r.slot_lt _, ?_⟩
    rw [Bool.eq_false_iff, Ne, I.unread, ← I.inPos]
    exact Ring.not_used_end room
  · intro pc
    have some : 0 < r.count := by
      have := I.filled
      simp only [pc, reserved_entered] at this
      omega
    refine ⟨I.outPos ▸ r.start_lt, ?_⟩
    rw [I.unread, ← I.outPos]
    exact Ring.used_start some
  · have filled := I.filled
    have empty := I.empty
    rw [inFlight_eq, inFlight_eq]
    omega

theorem run_inv (pos : 0 < p.bufferSize) {ls : List Role} (run : Run (Step p) (start p) ls σ) :
    ∃ r, Inv p σ r :=
  run.invariant (I := fun σ => ∃ r, Inv p σ r) (start_inv pos) fun _ _ _ I step => step_inv I step

/-- Through every interleaving the items come out in the order in which they went in,
no slot is overwritten unread or read unfilled, and no slot is lost to the semaphores. -/
theorem buffer_lawful (pos : 0 < p.bufferSize) (ls : List Role)
    (run : Run (Step p) (start p) ls σ) : Law p σ := by
  obtain ⟨r, I⟩ := run_inv pos run
  exact I.law

end

/-- Two slots and three items: the third goes round to the first slot. -/
def wrapped : List Role :=
  [.producer, .producer, .producer, .producer, .consumer, .producer, .producer, .consumer,
    .consumer, .producer, .consumer, .producer, .consumer, .consumer, .producer, .consumer,
    .consumer, .consumer]

theorem wrapped_lawful : ∃ σ, Run (Step ⟨2, 3⟩) (start ⟨2, 3⟩) wrapped σ ∧
    σ.consumed = [0, 1, 2] ∧ Law ⟨2, 3⟩ σ := by
  have ran : (execute (Sys.step ⟨2, 3⟩) (start ⟨2, 3⟩) wrapped).map Sys.consumed =
      some [0, 1, 2] := by
    decide
  obtain ⟨σ, ret, consumed⟩ := Option.map_eq_some_iff.mp ran
  have run : Run (Step ⟨2, 3⟩) (start ⟨2, 3⟩) wrapped σ :=
    execute_run (fun _ _ _ step => step) ret
  exact ⟨σ, run, consumed, buffer_lawful (by decide) wrapped run⟩

end LearnC.Thread.BoundedBuffer
