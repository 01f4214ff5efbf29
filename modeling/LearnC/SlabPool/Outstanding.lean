import LearnC.SlabPool.Capacity

/-! `1.base` as the set of its outstanding pointers. -/

namespace LearnC.SlabPool.Base

/-- The active block with a user pointer. -/
def Pool.HasActive (s : Pool) (ptr b : Addr) : Prop :=
  b ∈ s.activeBlocks ∧ (s.desc.lookup b).map (·.userPtr) = some ptr

/-- The user pointers of the active blocks. -/
def Pool.outstanding (s : Pool) : Set Addr := {ptr | ∃ b, s.HasActive ptr b}

/-- A pool that answers every call as the set `out` of outstanding pointers does. -/
structure Refines (s : Pool) (out : Set Addr) : Prop where
  alloc : ∀ size env, size + guardSize * 2 < 2 ^ 64 → Supplies base s env →
    ∃ s' ptr, s.memPoolAlloc size env = some (s', ptr) ∧ ptr ∉ out ∧
      s'.outstanding = insert ptr out
  null : s.memPoolFree none = some (s, none)
  rejected : ∀ ptr, (∃ s', s.memPoolFree ptr = some (s', some .invalid)) ↔
    ∃ p, ptr = some p ∧ p ∉ out
  unchanged : ∀ ptr s', s.memPoolFree ptr = some (s', some .invalid) → s' = s
  accepted : ∀ ptr, ptr ∈ out → ∃ s' msg, s.memPoolFree (some ptr) = some (s', msg) ∧
    msg ≠ some .invalid ∧ s'.outstanding = out \ {ptr}
  once : s.activeBlocks.Nodup
  holds : ∀ ptr, ptr ∈ out → ∃! b, s.HasActive ptr b
  held : ∀ b ∈ s.activeBlocks, ∃ ptr ∈ out, s.HasActive ptr b
  capacity : s.activeBlocks.length ≤ s.activeCapacity

section
variable {s s' : Pool} {place : Addr → Place} {ptr b : Addr} {size : Nat} {env : Env}

theorem Layout.hasActive_iff (L : Layout s place) :
    s.HasActive ptr b ↔ place b = .active ∧ ∃ v, s.desc.lookup b = some v ∧ v.userPtr = ptr := by
  rw [Pool.HasActive, L.active, Option.map_eq_some_iff]

theorem Layout.mem_outstanding (L : Layout s place) :
    ptr ∈ s.outstanding ↔ ∃ n, InUse s.span place ptr n := by
  constructor
  · rintro ⟨b, active⟩
    obtain ⟨hb, v, hv, user⟩ := L.hasActive_iff.mp active
    exact ⟨v.size, b, v.toSpan, hb, span_some hv, user, rfl⟩
  · rintro ⟨n, b, u, hb, hu, user, _⟩
    obtain ⟨v, hv, rfl⟩ := Option.map_eq_some_iff.mp hu
    exact ⟨b, L.hasActive_iff.mpr ⟨hb, v, hv, user⟩⟩

theorem Layout.one_active (L : Layout s place) {c : Addr} (hb : s.HasActive ptr b)
    (hc : s.HasActive ptr c) : c = b := by
  obtain ⟨_, v, hv, rfl⟩ := L.hasActive_iff.mp hb
  obtain ⟨_, u, hu, user⟩ := L.hasActive_iff.mp hc
  exact L.placed.same_block (span_some hv) (span_some hu) user

/-! ## The calls on the set -/

/-- A new pointer joins the set. -/
theorem Layout.alloc_outstanding (L : Layout s place) (fit : size + guardSize * 2 < 2 ^ 64)
    (supply : Supplies base s env) :
    ∃ s' ptr, s.memPoolAlloc size env = some (s', ptr) ∧ ptr ∉ s.outstanding ∧
      s'.outstanding = insert ptr s.outstanding := by
  obtain ⟨s', b, v, ret, off, same, hv, L', _⟩ := alloc_spec L fit supply
  have table (p n : Nat) := inUse_add (p := p) (n := n) L'.placed same.span off hv
  refine ⟨s', v.userPtr, ret, ?_, ?_⟩
  · intro old
    obtain ⟨n, c, u, hc, hu, user, _⟩ := L.mem_outstanding.mp old
    have ne : c ≠ b := by
      rintro rfl
      exact off hc
    exact ne (L'.placed.same_block hv ((same.span c ne).trans hu) user)
  · ext p
    rw [Set.mem_insert_iff, L'.mem_outstanding, L.mem_outstanding]
    simp only [table]
    by_cases eq : p = v.userPtr <;> simp [eq]

/-- An outstanding pointer leaves the set. -/
theorem Layout.free_outstanding (L : Layout s place) (out : ptr ∈ s.outstanding) :
    ∃ s' msg, s.memPoolFree (some ptr) = some (s', msg) ∧ msg ≠ some .invalid ∧
      s'.outstanding = s.outstanding \ {ptr} := by
  obtain ⟨b, active⟩ := out
  obtain ⟨hb, v, hv, rfl⟩ := L.hasActive_iff.mp active
  obtain ⟨s', intact, ret, _, same, L'⟩ := free_accepted L hb hv
  refine ⟨s', _, ret, ?_, ?_⟩
  · cases intact <;> simp
  · ext p
    rw [Set.mem_sdiff, L'.mem_outstanding, L.mem_outstanding, Set.mem_singleton_iff, and_comm]
    simp only [inUse_remove L.placed same.span (home_ne_active v.size) (span_some hv),
      exists_and_left]

theorem Layout.free_other (L : Layout s place) (out : ptr ∉ s.outstanding) :
    s.memPoolFree (some ptr) = some (s, some .invalid) := by
  apply free_rejected L
  intro n held
  exact out (L.mem_outstanding.mpr ⟨n, held⟩)

/-- The message tells which pointers are not in the set. -/
theorem Layout.rejected_iff (L : Layout s place) (ptr : Option Addr) :
    (∃ s', s.memPoolFree ptr = some (s', some .invalid)) ↔
      ∃ p, ptr = some p ∧ p ∉ s.outstanding := by
  constructor
  · rintro ⟨s', ret⟩
    cases ptr with
    | none => cases ret
    | some p =>
      refine ⟨p, rfl, ?_⟩
      intro out
      obtain ⟨s₁, msg, ok, accepted, _⟩ := L.free_outstanding out
      cases ok.symm.trans ret
      exact accepted rfl
  · rintro ⟨p, rfl, out⟩
    exact ⟨s, L.free_other out⟩

theorem Layout.unchanged (L : Layout s place) {ptr : Option Addr}
    (ret : s.memPoolFree ptr = some (s', some .invalid)) : s' = s := by
  obtain ⟨p, rfl, out⟩ := (L.rejected_iff ptr).mp ⟨s', ret⟩
  cases (L.free_other out).symm.trans ret
  rfl

theorem Layout.refines (L : Layout s place)
    (capacity : s.activeBlocks.length ≤ s.activeCapacity) : Refines s s.outstanding where
  alloc _ _ := L.alloc_outstanding
  null := rfl
  rejected := L.rejected_iff
  unchanged _ _ := L.unchanged
  accepted _ := L.free_outstanding
  once := L.once
  holds ptr out := by
    obtain ⟨b, active⟩ := out
    exact ⟨b, active, fun _ => L.one_active active⟩
  held b hb := by
    obtain ⟨v, hv⟩ := L.active_block hb
    have active : s.HasActive v.userPtr b := L.hasActive_iff.mpr ⟨(L.active b).mp hb, v, hv, rfl⟩
    exact ⟨v.userPtr, ⟨b, active⟩, active⟩
  capacity := capacity

/-! ## The capacity of the active array -/

/-- The active array and its capacity stay as they are. -/
def SameActive (s s' : Pool) : Prop :=
  s'.activeBlocks = s.activeBlocks ∧ s'.activeCapacity = s.activeCapacity

theorem take_active (ret : s.take size env = some (s', b)) : SameActive s s' := by
  have create {idx : Option Nat} (made : s.create idx size env = some (s', b)) :
      SameActive s s' := by
    obtain ⟨blk, _, made⟩ := Option.bind_eq_some_iff.mp made
    obtain ⟨raw, _, made⟩ := Option.bind_eq_some_iff.mp made
    obtain ⟨mem, _, made⟩ := Option.bind_eq_some_iff.mp made
    cases idx <;> cases made <;> exact ⟨rfl, rfl⟩
  cases cls : slabIndex size with
  | none =>
    simp only [Pool.take, cls] at ret
    exact create ret
  | some i =>
    cases head : (s.slabs i).freeList with
    | none =>
      simp only [Pool.take, cls, head] at ret
      exact create ret
    | some blk =>
      simp only [Pool.take, cls, head] at ret
      obtain ⟨s₁, reuse, eq⟩ := Option.map_eq_some_iff.mp ret
      cases eq
      obtain ⟨v, _, reuse⟩ := Option.bind_eq_some_iff.mp reuse
      cases reuse
      exact ⟨rfl, rfl⟩

/-- A full array grows before the block is put at its end. -/
theorem pushActive_capacity (le : s.activeBlocks.length ≤ s.activeCapacity) :
    (s.pushActive b).activeBlocks.length ≤ (s.pushActive b).activeCapacity := by
  simp only [Pool.pushActive, List.length_append, List.length_singleton]
  split
  · split <;> omega
  · omega

theorem alloc_capacity (le : s.activeBlocks.length ≤ s.activeCapacity)
    (ret : s.memPoolAlloc size env = some (s', ptr)) :
    s'.activeBlocks.length ≤ s'.activeCapacity := by
  obtain ⟨⟨s₁, blk⟩, take, ret⟩ := Option.bind_eq_some_iff.mp ret
  obtain ⟨v, _, ret⟩ := Option.bind_eq_some_iff.mp ret
  cases ret
  obtain ⟨same, capacity⟩ := take_active take
  apply pushActive_capacity
  rw [same, capacity]
  exact le

theorem release_active {v : Block} (ret : s.release b v = some s') : SameActive s s' := by
  simp only [Pool.release] at ret
  split at ret
  · cases ret
    exact ⟨rfl, rfl⟩
  · split at ret
    · cases ret
      exact ⟨rfl, rfl⟩
    · cases ret

theorem free_capacity {ptr : Option Addr} {msg : Option Message}
    (le : s.activeBlocks.length ≤ s.activeCapacity)
    (ret : s.memPoolFree ptr = some (s', msg)) : s'.activeBlocks.length ≤ s'.activeCapacity := by
  cases ptr with
  | none =>
    cases ret
    exact le
  | some ptr =>
    obtain ⟨found, _, ret⟩ := Option.bind_eq_some_iff.mp ret
    cases found with
    | none =>
      cases ret
      exact le
    | some b =>
      obtain ⟨v, _, ret⟩ := Option.bind_eq_some_iff.mp ret
      obtain ⟨intact, _, ret⟩ := Option.bind_eq_some_iff.mp ret
      obtain ⟨s₁, release, ret⟩ := Option.bind_eq_some_iff.mp ret
      cases ret
      obtain ⟨same, capacity⟩ := release_active release
      rw [same, capacity]
      have shorter : (removeFirst s.activeBlocks b).length ≤ s.activeBlocks.length := by
        rw [(removeFirst_perm _ _).length_eq]
        exact List.length_erase_le
      exact shorter.trans le

theorem run_capacity {ops : List Op} {w : World Pool}
    (run : Run (Step base) (World.start Pool.init) ops w) :
    w.state.activeBlocks.length ≤ w.state.activeCapacity := by
  apply run.invariant (I := fun w => w.state.activeBlocks.length ≤ w.state.activeCapacity)
  · exact Nat.le_refl 0
  · intro w op w' le step
    cases step with
    | alloc _ _ ret => exact alloc_capacity le ret
    | free ret =>
      obtain ⟨⟨_, msg⟩, call, rfl⟩ := Option.map_eq_some_iff.mp ret
      exact free_capacity le call
    | freeNull ret =>
      cases ret
      exact le
    | write _ => exact le

/-- In every run the pool answers as the set of the pointers handed out and not
freed since. -/
theorem pool_refines_outstanding (ops : List Op) (w : World Pool)
    (run : Run (Step base) (World.start Pool.init) ops w) :
    w.state.outstanding = w.outstanding ∧ Refines w.state w.outstanding := by
  obtain ⟨place, L⟩ := ledger.run_inv init_inv run
  have same : w.state.outstanding = w.outstanding := by
    have empty : ∀ p n, ¬ Bytes Pool.init p n := fun p n ⟨b, hb, _⟩ => List.not_mem_nil hb
    ext p
    rw [ledger.run_outstanding init_inv empty run, L.mem_outstanding]
    exact exists_congr fun n => (bytes_iff L).symm
  exact ⟨same, same ▸ L.refines (run_capacity run)⟩

end

/-- A pointer that was freed is rejected while another is out. -/
theorem freed_pointer_rejected :
    ∃ s, (World.after base Pool.init (freed ++ [.alloc 5000 (fresh 2 2000)])).state.memPoolFree
      (some 1016) = some (s, some .invalid) := by
  obtain ⟨_, refines⟩ := pool_refines_outstanding (freed ++ [.alloc 5000 (fresh 2 2000)]) _
    (after_run (by decide))
  apply (refines.rejected (some 1016)).mpr
  refine ⟨1016, rfl, ?_⟩
  rw [mem_outstanding]
  decide

end LearnC.SlabPool.Base
