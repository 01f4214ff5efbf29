import LearnC.Machine.Monitor

/-! `system_v` of `8.thread_sem.c`, run by any number of programs at the same time: they share the
semaphore set of the key for as long as it is there. -/

namespace LearnC.Process.SemaphoreSet

/-- Where a parent stands: before `semget`; before `SETVAL`; before `fork`; before `m_sem_signal`;
before `wait`; before `IPC_RMID`; behind it. -/
inductive Parent where
  | opening
  | setting
  | forking
  | working
  | waiting
  | removing
  | done
  deriving DecidableEq

/-- Where a child stands: before `fork`; before `m_sem_wait`; behind it. -/
inductive Child where
  | unborn
  | waiting
  | done
  deriving DecidableEq

/-- One run of the program, with the set that `semid` names. -/
structure Program where
  semid : Nat
  parent : Parent
  child : Child
  deriving DecidableEq

/-- The set of the key, the semaphores of the sets that are not removed, how many sets there have
been, and the programs. -/
structure Sys (I : Type) where
  key : Option Nat
  value : Nat → Option Nat
  fresh : Nat
  program : I → Program

inductive Role where
  | parent
  | child
  deriving DecidableEq

/-- The largest value of a semaphore. -/
def semvmx : Nat := 32767

/-- `SETVAL`, which fails for a set that is removed. -/
def setVal (value : Option Nat) : Option Nat := value.map fun _ => 0

/-- `semop` fails for a set that is removed and for a semaphore that cannot be raised. Nobody looks
at what it returns. -/
def mSemSignal (value : Option Nat) : Option Nat :=
  value.map fun v => if v < semvmx then v + 1 else v

/-- None while the child is blocked. The removal of the set ends its wait. -/
def mSemWait : Option Nat → Option (Option Nat)
  | none => some none
  | some 0 => none
  | some (v + 1) => some (some v)

/-- Nothing is opened. A killed run may have left a set, with the value of its semaphore. -/
def start {I : Type} (left : Option Nat) : Sys I where
  key := left.map fun _ => 0
  value := fun semid => if semid = 0 then left else none
  fresh := left.elim 0 fun _ => 1
  program := fun _ => ⟨0, .opening, .unborn⟩

section
variable {I : Type} [DecidableEq I]

namespace Sys

def go (σ : Sys I) (i : I) (p : Program) : Sys I :=
  { σ with program := Function.update σ.program i p }

/-- A program goes on, and the semaphore of its set gets a value. -/
def goVal (σ : Sys I) (i : I) (p : Program) (value : Option Nat) : Sys I :=
  { σ.go i p with value := Function.update σ.value p.semid value }

/-- A new set comes with any value. -/
def stepParent (new : Nat → Nat) (σ : Sys I) (i : I) : Option (Sys I) :=
  let p := σ.program i
  match p.parent with
  | .opening =>
    match σ.key with
    | some semid => some (σ.go i { p with semid := semid, parent := .setting })
    | none => some { σ.goVal i { p with semid := σ.fresh, parent := .setting }
          (some (new σ.fresh)) with
        key := some σ.fresh
        fresh := σ.fresh + 1 }
  | .setting => some (σ.goVal i { p with parent := .forking } (setVal (σ.value p.semid)))
  | .forking => some (σ.go i { p with parent := .working, child := .waiting })
  | .working => some (σ.goVal i { p with parent := .waiting } (mSemSignal (σ.value p.semid)))
  | .waiting => if p.child = .done then some (σ.go i { p with parent := .removing }) else none
  | .removing => some { σ.goVal i { p with parent := .done } none with
      key := if σ.key = some p.semid then none else σ.key }
  | .done => none

def stepChild (σ : Sys I) (i : I) : Option (Sys I) :=
  let p := σ.program i
  match p.child with
  | .unborn => none
  | .waiting => (mSemWait (σ.value p.semid)).map (σ.goVal i { p with child := .done })
  | .done => none

def step (new : Nat → Nat) (σ : Sys I) : I × Role → Option (Sys I)
  | (i, .parent) => σ.stepParent new i
  | (i, .child) => σ.stepChild i

end Sys

def Step (new : Nat → Nat) (σ : Sys I) (a : I × Role) (σ' : Sys I) : Prop := σ.step new a = some σ'

end

/-! ## The set and its semaphore -/

/-- The parent has called `SETVAL`. -/
def Parent.isSet : Parent → Bool
  | .opening => false
  | .setting => false
  | _ => true

/-- The parent has called `m_sem_signal`. -/
def Parent.signalled : Parent → Bool
  | .waiting => true
  | .removing => true
  | .done => true
  | _ => false

/-- A program that has set the semaphore of a set. -/
def Program.Sets (semid : Nat) (p : Program) : Prop := p.semid = semid ∧ p.parent.isSet = true

/-- A program that has raised the semaphore of a set. -/
def Program.signals (semid : Nat) (p : Program) : Bool :=
  decide (p.semid = semid) && p.parent.signalled

/-- A program whose child has come through `m_sem_wait` of a set. -/
def Program.passes (semid : Nat) (p : Program) : Bool :=
  decide (p.semid = semid) && decide (p.child = .done)

/-- A program of a set that will remove it, or first raise its semaphore. -/
def Program.Stirs (semid : Nat) (p : Program) : Prop :=
  p.semid = semid ∧ (p.child = .done ∨ p.parent = .forking ∨ p.parent = .working)

/-- What one program can look like. -/
structure Program.Sound (fresh : Nat) (value : Nat → Option Nat) (p : Program) : Prop where
  opened : p.parent ≠ .opening → p.semid < fresh
  born : p.child = .unborn ↔ p.parent = .opening ∨ p.parent = .setting ∨ p.parent = .forking
  joined : p.parent = .removing ∨ p.parent = .done → p.child = .done
  removed : p.parent = .done → value p.semid = none

structure Shared {I : Type} [Fintype I] (σ : Sys I) : Prop where
  sound : ∀ i, (σ.program i).Sound σ.fresh σ.value
  key : ∀ semid, σ.key = some semid ↔ (σ.value semid).isSome = true
  unused : ∀ semid, σ.fresh ≤ semid → σ.value semid = none
  opened : ∀ semid, σ.key = some semid →
    (∀ i, (σ.program i).parent = .opening) ∨
      ∃ i, (σ.program i).semid = semid ∧ (σ.program i).parent ≠ .opening
  value : ∀ semid v, σ.value semid = some v → (∃ i, (σ.program i).Sets semid) →
    v + count (Program.passes semid) σ.program ≤ count (Program.signals semid) σ.program
  stirs : ∀ semid, σ.value semid = some 0 → (∃ i, (σ.program i).Sets semid) →
    ∃ i, (σ.program i).Stirs semid

section
variable {I : Type} [DecidableEq I] {σ σ' : Sys I} {i j : I} {p p₀ : Program} {semid : Nat}
  {x : Option Nat}

/-- Program `i` goes on with its set, whose semaphore becomes `x`; or it removes the set. -/
structure Goes (σ : Sys I) (i : I) (p₀ p : Program) (x : Option Nat) (σ' : Sys I) : Prop where
  here : σ.program i = p₀
  running : p₀.parent ≠ .opening
  same : p.semid = p₀.semid
  set : p.parent.isSet = true
  program : σ'.program = Function.update σ.program i p
  fresh : σ'.fresh = σ.fresh
  value : σ'.value = Function.update σ.value p.semid x
  key : σ'.key = σ.key ∧ x.isSome = (σ.value p.semid).isSome ∨
    (σ'.key = if σ.key = some p.semid then none else σ.key) ∧ x = none

/-- Program `i` comes to a set, which is there or is new. -/
structure Opens (σ : Sys I) (i : I) (p : Program) (σ' : Sys I) : Prop where
  opening : (σ.program i).parent = .opening
  setting : p.parent = .setting
  unborn : p.child = .unborn
  program : σ'.program = Function.update σ.program i p
  grows : σ.fresh ≤ σ'.fresh
  bound : p.semid < σ'.fresh
  key : σ'.key = some p.semid
  there : (σ'.value p.semid).isSome = true
  others : ∀ semid, semid ≠ p.semid → σ.key ≠ some semid ∧ σ'.value semid = σ.value semid
  same : σ'.value p.semid = σ.value p.semid ∨ p.semid = σ.fresh

theorem Opens.mine (O : Opens σ i p σ') : σ'.program i = p := by
  rw [O.program, Function.update_self]

theorem Opens.theirs (O : Opens σ i p σ') (ne : j ≠ i) : σ'.program j = σ.program j := by
  rw [O.program, Function.update_of_ne ne]

namespace Goes

theorem mine (G : Goes σ i p₀ p x σ') : σ'.program i = p := by
  rw [G.program, Function.update_self]

theorem theirs (G : Goes σ i p₀ p x σ') (ne : j ≠ i) : σ'.program j = σ.program j := by
  rw [G.program, Function.update_of_ne ne]

theorem own (G : Goes σ i p₀ p x σ') : σ'.value p.semid = x := by
  rw [G.value, Function.update_self]

theorem others (G : Goes σ i p₀ p x σ') (ne : semid ≠ p.semid) :
    σ'.value semid = σ.value semid := by
  rw [G.value, Function.update_of_ne ne]

theorem removed (G : Goes σ i p₀ p x σ') (absent : σ.value semid = none) :
    σ'.value semid = none := by
  by_cases eq : semid = p.semid
  · subst eq
    rw [G.own]
    rcases G.key with ⟨_, alive⟩ | ⟨_, gone⟩
    · rw [absent] at alive
      exact Option.isNone_iff_eq_none.mp (by simpa using alive)
    · exact gone
  · rw [G.others eq, absent]

theorem sets_others (G : Goes σ i p₀ p x σ') (ne : semid ≠ p.semid)
    (some : ∃ j, (σ'.program j).Sets semid) : ∃ j, (σ.program j).Sets semid := by
  obtain ⟨j, sets⟩ := some
  by_cases eq : j = i
  · subst eq
    rw [G.mine] at sets
    exact absurd sets.1.symm ne
  · rw [G.theirs eq] at sets
    exact ⟨j, sets⟩

theorem stirs_others (G : Goes σ i p₀ p x σ') (ne : semid ≠ p.semid)
    (some : ∃ j, (σ.program j).Stirs semid) : ∃ j, (σ'.program j).Stirs semid := by
  obtain ⟨j, busy⟩ := some
  refine ⟨j, ?_⟩
  by_cases eq : j = i
  · subst eq
    rw [G.here] at busy
    exact absurd (busy.1.symm.trans G.same.symm) ne
  · rw [G.theirs eq]
    exact busy

end Goes

end

section
variable {I : Type} [Fintype I] {σ σ' : Sys I} {i : I} {a : I × Role} {left : Option Nat}
  {semid fresh : Nat} {p p₀ : Program} {new : Nat → Nat} {v : Nat} {x : Option Nat}

/-- While the set is there, no more children have come through than parents have signalled. -/
theorem Shared.fewer (S : Shared σ) (there : σ.value semid = some v) :
    count (Program.passes semid) σ.program ≤ count (Program.signals semid) σ.program := by
  by_cases some : ∃ i, (σ.program i).Sets semid
  · have := S.value semid v there some
    omega
  · have none : count (Program.passes semid) σ.program = 0 := by
      apply count_eq_zero.mpr
      intro j
      by_cases here : (σ.program j).semid = semid
      · have early : (σ.program j).parent.isSet = false :=
          Bool.eq_false_iff.mpr fun set => some ⟨j, here, set⟩
        have unborn : (σ.program j).child = .unborn := by
          apply (S.sound j).born.mpr
          cases parent : (σ.program j).parent with
          | opening => exact .inl rfl
          | setting => exact .inr (.inl rfl)
          | forking | working | waiting | removing | done =>
            rw [parent] at early
            cases early
        simp [Program.passes, unborn]
      · simp [Program.passes, here]
    rw [none]
    exact Nat.zero_le _

theorem mSemWait_some {x y : Option Nat} (waited : mSemWait x = some y) :
    x = none ∧ y = none ∨ ∃ v, x = some (v + 1) ∧ y = some v := by
  cases x with
  | none => exact .inl ⟨rfl, (Option.some.inj waited).symm⟩
  | some v =>
    cases v with
    | zero => cases waited
    | succ v => exact .inr ⟨v, rfl, (Option.some.inj waited).symm⟩

theorem start_shared (left : Option Nat) : Shared (start (I := I) left) := by
  have early (semid : Nat) : ¬ ∃ i, ((start (I := I) left).program i).Sets semid := by
    rintro ⟨i, _, set⟩
    cases set
  refine ⟨fun i => ⟨fun ne => absurd rfl ne, by simp [start], by simp [start], by simp [start]⟩,
    ?_, ?_, fun _ _ => .inl fun _ => rfl, fun semid _ _ some => absurd some (early semid),
    fun semid _ some => absurd some (early semid)⟩
  · intro semid
    cases left with
    | none => simp [start]
    | some v =>
      by_cases eq : semid = 0
      · simp [start, eq]
      · simp [start, eq, Ne.symm eq]
  · intro semid le
    cases left with
    | none => simp [start]
    | some v =>
      have pos : semid ≠ 0 := Nat.ne_of_gt le
      simp [start, pos]

variable [DecidableEq I]

/-- A program goes on that neither signals nor has its child pass. -/
theorem counts_kept (here : σ.program i = p₀) (passes : p.passes semid = p₀.passes semid)
    (signals : p.signals semid = p₀.signals semid)
    (le : v + count (Program.passes semid) σ.program ≤ count (Program.signals semid) σ.program) :
    v + count (Program.passes semid) (Function.update σ.program i p) ≤
      count (Program.signals semid) (Function.update σ.program i p) := by
  rw [count_same (by rw [here, passes]), count_same (by rw [here, signals])]
  exact le

theorem Goes.named (G : Goes σ i p₀ p x σ') (S : Shared σ) (semid : Nat) :
    σ'.key = some semid ↔ (σ'.value semid).isSome = true := by
  have old := S.key semid
  by_cases eq : semid = p.semid
  · subst eq
    rw [G.own]
    rcases G.key with ⟨same, alive⟩ | ⟨cleared, gone⟩
    · rw [same, alive, old]
    · rw [cleared, gone]
      split
      · exact iff_of_false (by simp) (by simp)
      · exact iff_of_false ‹_› (by simp)
  · rw [G.others eq, ← old]
    rcases G.key with ⟨same, _⟩ | ⟨cleared, _⟩
    · rw [same]
    · rw [cleared]
      split
      · rename_i mine
        rw [mine]
        exact iff_of_false (by simp) fun h => eq (Option.some.inj h).symm
      · rfl

/-- The set of the key has still a program that has opened it. -/
theorem Goes.opened (G : Goes σ i p₀ p x σ') (S : Shared σ) (there : σ'.key = some semid) :
    ∃ j, (σ'.program j).semid = semid ∧ (σ'.program j).parent ≠ .opening := by
  have before : σ.key = some semid := by
    rw [S.key semid, Option.isSome_iff_ne_none]
    intro absent
    have alive := (G.named S semid).mp there
    rw [G.removed absent] at alive
    cases alive
  rcases S.opened semid before with opening | ⟨j, on, more⟩
  · exact absurd (G.here ▸ opening i) G.running
  · refine ⟨j, ?_⟩
    by_cases eq : j = i
    · subst eq
      rw [G.mine, G.same, ← G.here]
      refine ⟨on, fun opening => ?_⟩
      have set := G.set
      rw [opening] at set
      cases set
    · rw [G.theirs eq]
      exact ⟨on, more⟩

theorem Goes.counts_others (G : Goes σ i p₀ p x σ') (ne : semid ≠ p.semid)
    (le : v + count (Program.passes semid) σ.program ≤ count (Program.signals semid) σ.program) :
    v + count (Program.passes semid) σ'.program ≤ count (Program.signals semid) σ'.program := by
  have away : p₀.semid ≠ semid := G.same ▸ Ne.symm ne
  rw [G.program]
  exact counts_kept G.here (by simp [Program.passes, away, Ne.symm ne])
    (by simp [Program.signals, away, Ne.symm ne]) le

/-- It is enough to look at the program that goes on and its set. -/
theorem Shared.goes (S : Shared σ) (G : Goes σ i p₀ p x σ')
    (sound : p.Sound σ'.fresh σ'.value)
    (counts : ∀ v, x = some v →
      v + count (Program.passes p.semid) σ'.program ≤ count (Program.signals p.semid) σ'.program)
    (stirs : x = some 0 → p.Stirs p.semid) : Shared σ' := by
  refine ⟨fun j => ?_, G.named S, fun semid le => G.removed (S.unused semid (G.fresh ▸ le)),
    fun semid there => .inr (G.opened S there), fun semid v there some => ?_,
    fun semid there some => ?_⟩
  · by_cases eq : j = i
    · rw [eq, G.mine]
      exact sound
    · have old := S.sound j
      rw [G.theirs eq, G.fresh]
      exact ⟨old.opened, old.born, old.joined, fun done => G.removed (old.removed done)⟩
  · by_cases eq : semid = p.semid
    · subst eq
      exact counts v (G.own.symm.trans there)
    · rw [G.others eq] at there
      exact G.counts_others eq (S.value semid v there (G.sets_others eq some))
  · by_cases eq : semid = p.semid
    · subst eq
      exact ⟨i, G.mine ▸ stirs (G.own.symm.trans there)⟩
    · rw [G.others eq] at there
      exact G.stirs_others eq (S.stirs semid there (G.sets_others eq some))

/-- A parent goes on that leaves its set as it is. -/
theorem Shared.goes_by (S : Shared σ) (here : σ.program i = p₀) (before : p₀.parent.isSet = true)
    (same : p.semid = p₀.semid) (set : p.parent.isSet = true)
    (passes : p.passes p.semid = p₀.passes p.semid)
    (signals : p.signals p.semid = p₀.signals p.semid) (sound : p.Sound σ.fresh σ.value)
    (stirs : p.Stirs p.semid) : Shared (σ.go i p) := by
  have running : p₀.parent ≠ .opening := by
    intro opening
    rw [opening] at before
    cases before
  have G : Goes σ i p₀ p (σ.value p.semid) (σ.go i p) :=
    ⟨here, running, same, set, rfl, rfl, (Function.update_eq_self ..).symm, .inl ⟨rfl, rfl⟩⟩
  refine S.goes G sound (fun v eq => counts_kept here passes signals ?_) fun _ => stirs
  exact S.value p.semid v eq ⟨i, by rw [here]; exact ⟨same.symm, before⟩⟩

/-- Who has set a semaphore had done so before, and finds the value as it was. -/
theorem Opens.sets (O : Opens σ i p σ') (S : Shared σ) (now : ∃ j, (σ'.program j).Sets semid) :
    (∃ j, (σ.program j).Sets semid) ∧ σ'.value semid = σ.value semid := by
  obtain ⟨j, on, set⟩ := now
  by_cases eq : j = i
  · rw [eq, O.mine, O.setting] at set
    cases set
  · rw [O.theirs eq] at on set
    refine ⟨⟨j, on, set⟩, ?_⟩
    by_cases eq : semid = p.semid
    · subst eq
      refine O.same.resolve_right fun new => ?_
      have old : (σ.program j).parent ≠ .opening := by
        intro opening
        rw [opening] at set
        cases set
      have := (S.sound j).opened old
      omega
    · exact (O.others semid eq).2

theorem Opens.sound (O : Opens σ i p σ') (S : Shared σ) (j : I) :
    (σ'.program j).Sound σ'.fresh σ'.value := by
  by_cases eq : j = i
  · rw [eq, O.mine]
    exact ⟨fun _ => O.bound, by simp [O.setting, O.unborn], by simp [O.setting],
      by simp [O.setting]⟩
  · rw [O.theirs eq]
    have old := S.sound j
    refine ⟨fun ne => Nat.lt_of_lt_of_le (old.opened ne) O.grows, old.born, old.joined, ?_⟩
    intro done
    have absent := old.removed done
    by_cases eq : (σ.program j).semid = p.semid
    · have before := old.opened (by simp [done])
      rw [eq] at absent before ⊢
      rw [O.same.resolve_right (Nat.ne_of_lt before), absent]
    · rw [(O.others _ eq).2, absent]

theorem Opens.named (O : Opens σ i p σ') (S : Shared σ) (semid : Nat) :
    σ'.key = some semid ↔ (σ'.value semid).isSome = true := by
  by_cases eq : semid = p.semid
  · subst eq
    exact iff_of_true O.key O.there
  · obtain ⟨away, value⟩ := O.others semid eq
    rw [value, ← S.key semid, O.key]
    exact iff_of_false (fun h => eq (Option.some.inj h).symm) away

theorem Shared.opens (S : Shared σ) (O : Opens σ i p σ') : Shared σ' := by
  have before : (σ.program i).child = .unborn := (S.sound i).born.mpr (.inl O.opening)
  refine ⟨O.sound S, O.named S, ?_, fun semid named => .inr ⟨i, ?_⟩, ?_, ?_⟩
  · intro semid le
    have bound := O.bound
    rw [(O.others semid (by omega)).2]
    exact S.unused semid (Nat.le_trans O.grows le)
  · rw [O.key] at named
    cases named
    rw [O.mine, O.setting]
    exact ⟨rfl, by simp⟩
  · intro semid v there now
    obtain ⟨old, value⟩ := O.sets S now
    rw [O.program]
    exact counts_kept rfl (by simp [Program.passes, O.unborn, before])
      (by simp [Program.signals, Parent.signalled, O.setting, O.opening])
      (S.value semid v (value ▸ there) old)
  · intro semid there now
    obtain ⟨old, value⟩ := O.sets S now
    obtain ⟨j, busy⟩ := S.stirs semid (value ▸ there) old
    refine ⟨j, ?_⟩
    by_cases eq : j = i
    · rw [eq] at busy
      obtain ⟨_, stirs⟩ := busy
      simp [before, O.opening] at stirs
    · rw [O.theirs eq]
      exact busy

theorem Shared.parent_opens (S : Shared σ) (opening : (σ.program i).parent = .opening)
    (step : σ.stepParent new i = some σ') : Shared σ' := by
  have unborn : (σ.program i).child = .unborn := (S.sound i).born.mpr (.inl opening)
  unfold Sys.stepParent at step
  simp only [opening] at step
  cases named : σ.key with
  | some old =>
    simp only [named] at step
    have there := (S.key old).mp named
    have bound : old < σ.fresh := by
      by_contra le
      rw [S.unused old (Nat.le_of_not_lt le)] at there
      cases there
    cases step
    have others (semid : Nat) (ne : semid ≠ old) : σ.key ≠ some semid :=
      fun eq => ne (Option.some.inj (named ▸ eq)).symm
    exact S.opens (p := { σ.program i with semid := old, parent := .setting })
      ⟨opening, rfl, unborn, rfl, Nat.le_refl _, bound, named, there,
        fun semid ne => ⟨others semid ne, rfl⟩, .inl rfl⟩
  | none =>
    simp only [named] at step
    cases step
    refine S.opens (p := { σ.program i with semid := σ.fresh, parent := .setting })
      ⟨opening, rfl, unborn, rfl, Nat.le_succ _, Nat.lt_succ_self _, rfl, ?_, ?_, .inr rfl⟩
    · simp [Sys.goVal]
    · intro semid ne
      exact ⟨by simp [named], by simp [Sys.goVal, Function.update_of_ne ne]⟩

/-- `SETVAL` wipes the semaphore. -/
theorem Shared.parent_sets {child : Child} (S : Shared σ)
    (here : σ.program i = ⟨semid, .setting, child⟩) :
    Shared (σ.goVal i ⟨semid, .forking, child⟩ (setVal (σ.value semid))) := by
  have sound := S.sound i
  rw [here] at sound
  obtain rfl : child = .unborn := sound.born.mpr (.inr (.inl rfl))
  have G : Goes σ i ⟨semid, .setting, .unborn⟩ ⟨semid, .forking, .unborn⟩
      (setVal (σ.value semid)) (σ.goVal i ⟨semid, .forking, .unborn⟩ (setVal (σ.value semid))) :=
    ⟨here, by simp, rfl, rfl, rfl, rfl, rfl, .inl ⟨rfl, by simp [setVal]⟩⟩
  refine S.goes G ⟨fun _ => sound.opened (by simp), by simp, by simp, by simp⟩ ?_
    fun _ => ⟨rfl, .inr (.inl rfl)⟩
  intro v eq
  obtain ⟨w, old, rfl⟩ := Option.map_eq_some_iff.mp eq
  refine counts_kept here rfl rfl ?_
  rw [Nat.zero_add]
  exact S.fewer old

/-- `m_sem_signal` raises the semaphore, where it can. -/
theorem Shared.parent_signals {child : Child} (S : Shared σ)
    (here : σ.program i = ⟨semid, .working, child⟩) :
    Shared (σ.goVal i ⟨semid, .waiting, child⟩ (mSemSignal (σ.value semid))) := by
  have sound := S.sound i
  rw [here] at sound
  have born : child ≠ .unborn := fun eq => by simpa using sound.born.mp eq
  have G : Goes σ i ⟨semid, .working, child⟩ ⟨semid, .waiting, child⟩
      (mSemSignal (σ.value semid))
      (σ.goVal i ⟨semid, .waiting, child⟩ (mSemSignal (σ.value semid))) :=
    ⟨here, by simp, rfl, rfl, rfl, rfl, rfl, .inl ⟨rfl, by simp [mSemSignal]⟩⟩
  refine S.goes G ⟨fun _ => sound.opened (by simp), by simp [born], by simp, by simp⟩ ?_ ?_
  · intro v eq
    obtain ⟨w, there, rfl⟩ := Option.map_eq_some_iff.mp eq
    have passes := count_same (p := Program.passes semid) (f := σ.program) (i := i)
      (x := ⟨semid, .waiting, child⟩) (by rw [here]; rfl)
    have signals := count_step (p := Program.signals semid) (f := σ.program) (i := i)
      (x := ⟨semid, .waiting, child⟩) (a := 0) (b := 1)
      (by simp [here, Program.signals, Parent.signalled])
    have old := S.value semid w there ⟨i, by rw [here]; exact ⟨rfl, rfl⟩⟩
    simp only [Sys.goVal, Sys.go]
    split <;> omega
  · intro eq
    obtain ⟨w, _, raised⟩ := Option.map_eq_some_iff.mp eq
    exact absurd raised (by unfold semvmx; split <;> omega)

theorem Shared.parent (S : Shared σ) (step : σ.stepParent new i = some σ') : Shared σ' := by
  have sound := S.sound i
  cases here : σ.program i with | mk semid parent child =>
  rw [here] at sound
  have opened (ne : parent ≠ .opening) : semid < σ.fresh := sound.opened ne
  by_cases opening : (σ.program i).parent = .opening
  · exact S.parent_opens opening step
  unfold Sys.stepParent at step
  simp only [here] at step opening
  cases parent with
  | opening => exact absurd rfl opening
  | setting =>
    cases step
    exact S.parent_sets here
  | forking =>
    obtain rfl : child = .unborn := sound.born.mpr (.inr (.inr rfl))
    cases step
    exact S.goes_by here rfl rfl rfl rfl rfl ⟨fun _ => opened (by simp), by simp, by simp, by simp⟩
      ⟨rfl, .inr (.inr rfl)⟩
  | working =>
    cases step
    exact S.parent_signals here
  | waiting =>
    obtain ⟨rfl, step⟩ := Option.ite_none_right_eq_some.mp step
    cases step
    exact S.goes_by here rfl rfl rfl rfl rfl
      ⟨fun _ => opened (by simp), by simp, fun _ => rfl, by simp⟩ ⟨rfl, .inl rfl⟩
  | removing =>
    obtain rfl : child = .done := sound.joined (.inl rfl)
    cases step
    have G : Goes σ i ⟨semid, .removing, .done⟩ ⟨semid, .done, .done⟩ none
        { σ.goVal i ⟨semid, .done, .done⟩ none with
          key := if σ.key = some semid then none else σ.key } :=
      ⟨here, by simp, rfl, rfl, rfl, rfl, rfl, .inr ⟨rfl, rfl⟩⟩
    refine S.goes G ⟨fun _ => opened (by simp), by simp, fun _ => rfl, ?_⟩ nofun nofun
    exact fun _ => Function.update_self ..
  | done => cases step

theorem Shared.child (S : Shared σ) (step : σ.stepChild i = some σ') : Shared σ' := by
  have sound := S.sound i
  unfold Sys.stepChild at step
  generalize here : σ.program i = p at step sound
  obtain ⟨semid, parent, child⟩ := p
  simp only at step
  cases child with
  | unborn => cases step
  | waiting =>
    obtain ⟨x, waited, step⟩ := Option.map_eq_some_iff.mp step
    have born : ¬ (parent = .opening ∨ parent = .setting ∨ parent = .forking) := fun early => by
      simpa using sound.born.mpr early
    have going : parent ≠ .done := fun done => by simpa using sound.joined (.inr done)
    have set : parent.isSet = true := by
      cases parent with
      | opening => exact absurd (.inl rfl) born
      | setting => exact absurd (.inr (.inl rfl)) born
      | forking | working | waiting | removing | done => rfl
    have kept := mSemWait_some waited
    subst step
    have alive : x.isSome = (σ.value semid).isSome := by
      rcases kept with ⟨absent, gone⟩ | ⟨v, there, left⟩
      · rw [absent, gone]
      · rw [there, left]
        rfl
    have G : Goes σ i ⟨semid, parent, .waiting⟩ ⟨semid, parent, .done⟩ x
        (σ.goVal i ⟨semid, parent, .done⟩ x) :=
      ⟨here, fun eq => born (.inl eq), rfl, set, rfl, rfl, rfl, .inl ⟨rfl, alive⟩⟩
    refine S.goes G
      ⟨sound.opened, by simpa using born, fun _ => rfl, fun done => absurd done going⟩ ?_
      fun _ => ⟨rfl, .inl rfl⟩
    · intro v eq
      subst eq
      obtain ⟨_, gone⟩ | ⟨w, there, left⟩ := kept
      · cases gone
      · cases left
        have passes := count_step (p := Program.passes semid) (f := σ.program) (i := i)
          (x := ⟨semid, parent, .done⟩) (a := 0) (b := 1) (by simp [here, Program.passes])
        have signals := count_same (p := Program.signals semid) (f := σ.program) (i := i)
          (x := ⟨semid, parent, .done⟩) (by rw [here]; rfl)
        have old := S.value semid _ there ⟨i, by rw [here]; exact ⟨rfl, set⟩⟩
        simp only [Sys.goVal, Sys.go]
        omega
  | done => cases step

theorem Shared.step (S : Shared σ) (step : Step new σ a σ') : Shared σ' := by
  obtain ⟨i, role⟩ := a
  cases role with
  | parent => exact S.parent step
  | child => exact S.child step

end

/-! ## Every program ends -/

def Parent.work : Parent → Nat
  | .opening => 6
  | .setting => 5
  | .forking => 4
  | .working => 3
  | .waiting => 2
  | .removing => 1
  | .done => 0

def Program.work (p : Program) : Nat := p.parent.work + if p.child = .done then 0 else 1

section
variable {I : Type} [Fintype I]

def Sys.work (σ : Sys I) : Nat := total Program.work σ.program

variable {σ σ' : Sys I} {a : I × Role} {left : Option Nat} {new : Nat → Nat}

theorem Shared.ended (S : Shared σ) (all : ∀ i, (σ.program i).parent = .done) (one : Nonempty I) :
    σ.key = none ∧ ∀ semid, σ.value semid = none := by
  have none : σ.key = none := by
    apply Option.eq_none_iff_forall_ne_some.mpr
    intro semid key
    have there := (S.key semid).mp key
    rcases S.opened semid key with opening | ⟨i, on, _⟩
    · obtain ⟨i⟩ := one
      have := opening i
      rw [all i] at this
      cases this
    · rw [← on, (S.sound i).removed (all i)] at there
      cases there
  refine ⟨none, fun semid => ?_⟩
  have := S.key semid
  rw [none] at this
  simpa using this

variable [DecidableEq I]

/-- A step of a program is one of those that were left to it. -/
theorem work_step (S : Shared σ) (step : Step new σ a σ') : σ'.work + 1 = σ.work := by
  obtain ⟨i, role⟩ := a
  have sound := S.sound i
  suffices moved : ∃ p, σ'.program = Function.update σ.program i p ∧
      p.work + 1 = (σ.program i).work + 0 by
    obtain ⟨p, eq, less⟩ := moved
    rw [Sys.work, eq]
    exact total_step less
  generalize here : σ.program i = p at sound
  obtain ⟨semid, parent, child⟩ := p
  cases role with
  | parent =>
    simp only [Step, Sys.step, Sys.stepParent, here] at step
    cases parent with
    | opening =>
      have unborn : child = .unborn := sound.born.mpr (.inl rfl)
      subst unborn
      cases named : σ.key <;> rw [named] at step <;> cases step <;> exact ⟨_, rfl, rfl⟩
    | setting =>
      have unborn : child = .unborn := sound.born.mpr (.inr (.inl rfl))
      subst unborn
      cases step
      exact ⟨_, rfl, rfl⟩
    | forking =>
      have unborn : child = .unborn := sound.born.mpr (.inr (.inr rfl))
      subst unborn
      cases step
      exact ⟨_, rfl, rfl⟩
    | working | removing =>
      cases step
      refine ⟨_, rfl, ?_⟩
      simp only [Program.work, Parent.work]
      omega
    | waiting =>
      obtain ⟨_, step⟩ := Option.ite_none_right_eq_some.mp step
      cases step
      refine ⟨_, rfl, ?_⟩
      simp only [Program.work, Parent.work]
      omega
    | done => cases step
  | child =>
    simp only [Step, Sys.step, Sys.stepChild, here] at step
    cases child with
    | unborn => cases step
    | waiting =>
      obtain ⟨_, _, step⟩ := Option.map_eq_some_iff.mp step
      subst step
      exact ⟨_, rfl, rfl⟩
    | done => cases step

/-- While every parent that has not ended waits, a blocked child is the business of a program whose
own child is through. -/
theorem Shared.steps (S : Shared σ) (going : ∃ i, (σ.program i).parent ≠ .done) :
    ∃ a, (σ.step new a).isSome = true := by
  by_cases all : ∀ j, (σ.program j).parent = .waiting ∨ (σ.program j).parent = .done
  · have joins (j : I) (waits : (σ.program j).parent = .waiting)
        (through : (σ.program j).child = .done) : ∃ a, (σ.step new a).isSome = true :=
      ⟨(j, .parent), by simp [Sys.step, Sys.stepParent, waits, through]⟩
    obtain ⟨i, more⟩ := going
    have waits : (σ.program i).parent = .waiting := (all i).resolve_right more
    cases child : (σ.program i).child with
    | unborn =>
      have born := (S.sound i).born.mp child
      simp [waits] at born
    | waiting =>
      cases value : σ.value (σ.program i).semid with
      | none => exact ⟨(i, .child), by simp [Sys.step, Sys.stepChild, child, value, mSemWait]⟩
      | some v =>
        cases v with
        | zero =>
          obtain ⟨j, on, busy⟩ := S.stirs _ value ⟨i, rfl, by rw [waits]; rfl⟩
          rcases all j with parent | parent
          · simp only [parent, reduceCtorEq, or_false] at busy
            exact joins j parent busy
          · have gone := (S.sound j).removed parent
            rw [on, value] at gone
            cases gone
        | succ v => exact ⟨(i, .child), by simp [Sys.step, Sys.stepChild, child, value, mSemWait]⟩
    | done => exact joins i waits child
  · obtain ⟨j, busy⟩ := not_forall.mp all
    rw [not_or] at busy
    refine ⟨(j, .parent), ?_⟩
    simp only [Sys.step, Sys.stepParent]
    cases parent : (σ.program j).parent with
    | opening =>
      simp only []
      split <;> rfl
    | setting | forking | working | removing => rfl
    | waiting => exact absurd parent busy.1
    | done => exact absurd parent busy.2

/-- However many programs share the set, whatever a killed run has left in it, and in every order
of their steps: a set that is there and that a program has set lets no more children through than
parents have signalled, however often `SETVAL` has wiped the semaphore; no program hangs, though a
wipe can take a signal from the child it was for; and behind the last one every set is removed. -/
theorem signals_passed (new : Nat → Nat) (left : Option Nat) (acts : List (I × Role)) (σ : Sys I)
    (run : Run (Step new) (start left) acts σ) :
    (∀ semid v, σ.value semid = some v → (∃ i, (σ.program i).Sets semid) →
      v + count (Program.passes semid) σ.program ≤ count (Program.signals semid) σ.program) ∧
    acts.length + σ.work = Fintype.card I * 7 ∧
    ((∃ i, (σ.program i).parent ≠ .done) → ∃ a, (σ.step new a).isSome = true) ∧
    ((∀ i, (σ.program i).parent = .done) → Nonempty I →
      σ.key = none ∧ ∀ semid, σ.value semid = none) := by
  have both : Shared σ ∧ acts.length + σ.work = Fintype.card I * 7 := by
    induction run with
    | nil =>
      refine ⟨start_shared left, ?_⟩
      simp [Sys.work, start, total, Program.work, Parent.work]
    | snoc _ step ih =>
      obtain ⟨S, length⟩ := ih
      have less := work_step S step
      refine ⟨S.step step, ?_⟩
      rw [List.length_append, List.length_singleton]
      omega
  exact ⟨both.1.value, both.2, both.1.steps, both.1.ended⟩

end

/-- The second program's `SETVAL` takes the signal of the first one's child, and the second one's
child comes through in its place. The first child comes through when the set is removed. -/
theorem signal_wiped : ∃ σ : Sys (Fin 2),
    Run (Step fun _ => 0) (start (some 5)) [(0, .parent), (0, .parent), (0, .parent), (0, .parent),
      (1, .parent), (1, .parent), (1, .parent), (1, .parent), (1, .child)] σ ∧
    σ.program 0 = ⟨0, .waiting, .waiting⟩ ∧ σ.program 1 = ⟨0, .waiting, .done⟩ ∧
    σ.value 0 = some 0 ∧ ∃ a, (σ.step (fun _ => 0) a).isSome = true := by
  have ran : (execute (Sys.step fun _ => 0) (start (I := Fin 2) (some 5)) [(0, .parent),
      (0, .parent), (0, .parent), (0, .parent), (1, .parent), (1, .parent), (1, .parent),
      (1, .parent), (1, .child)]).map (fun σ => (σ.program 0, σ.program 1, σ.value 0)) =
        some (⟨0, .waiting, .waiting⟩, ⟨0, .waiting, .done⟩, some 0) := by
    decide
  obtain ⟨σ, ret, seen⟩ := Option.map_eq_some_iff.mp ran
  obtain ⟨program, program', value⟩ : σ.program 0 = ⟨0, .waiting, .waiting⟩ ∧
      σ.program 1 = ⟨0, .waiting, .done⟩ ∧ σ.value 0 = some 0 := by
    simpa using seen
  have run : Run (Step fun _ => 0) (start (I := Fin 2) (some 5)) [(0, .parent), (0, .parent),
      (0, .parent), (0, .parent), (1, .parent), (1, .parent), (1, .parent), (1, .parent),
      (1, .child)] σ :=
    execute_run (fun _ _ _ step => step) ret
  exact ⟨σ, run, program, program', value,
    (signals_passed _ (some 5) _ σ run).2.2.1 ⟨0, by simp [program]⟩⟩

end LearnC.Process.SemaphoreSet
