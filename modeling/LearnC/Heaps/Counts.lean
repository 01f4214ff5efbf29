import LearnC.MemPool.Upgrade
import LearnC.SlabPool.Bounds
import LearnC.SlabPool.BaseLayout

/-! The byte counts that the four pools ask `malloc` for: a header or two guards around
the payload, added up in `size_t`. -/

namespace LearnC

/-- The byte count a call gives to `malloc`; none where a block waits on the slab's list. -/
def asked (waiting : Option Addr) (total : Nat) : Option Nat :=
  match waiting with
  | some _ => none
  | none => some total

/-- A call that answers `NULL`, or one that asks `malloc` for no other number than the sum,
as integers, of the payload and what stands around it, with the request in the payload. -/
def Counted (null : Prop) (count : Option Nat) (around payload size : Nat) : Prop :=
  null ∨ (∀ n ∈ count, n = around + payload) ∧ size ≤ payload

theorem of_asked {waiting : Option Addr} {total n : Nat} (asks : asked waiting total = some n) :
    waiting = none ∧ total = n := by
  cases waiting with
  | some a => cases asks
  | none => exact ⟨rfl, Option.some.inj asks⟩

/-- A wrapped count that is asked for is not the sum. -/
theorem not_counted {around payload size n : Nat} {null : Prop} (lt : n < 2 ^ 64)
    (wraps : 2 ^ 64 ≤ around + payload) (answers : ¬ null) :
    ¬ Counted null (some n) around payload size := by
  rintro (h | ⟨sum, -⟩)
  · exact answers h
  · have := sum n rfl
    omega

namespace MemPool

/-- What stands around the payload. -/
def Pool.around (s : Pool) : Nat := sizeofMemBlk + if s.protectMode then sizeofGuard else 0

/-- What `mem_pool_alloc_label` asks `malloc` for. -/
def Pool.asks (s : Pool) (idx : Option Nat) (size : Nat) : Option Nat :=
  asked (idx.bind fun i => (s.slabs i).freeList) (s.totalSize (s.actualSize idx size))

section
variable {s s' : Pool} {idx : Option Nat} {size n : Nat} {label : Option (List UInt8)} {env : Env}

/-- The count that is asked for is the one that `malloc` gets. -/
theorem takeRaw_asks (asks : s.asks idx size = some n) :
    s.takeRaw idx (s.totalSize (s.actualSize idx size)) env = .ok (s.malloc env n) := by
  cases idx with
  | none =>
    cases asks
    rfl
  | some i =>
    cases list : (s.slabs i).freeList with
    | some a => simp [Pool.asks, asked, list] at asks
    | none =>
      simp only [Pool.asks, asked, list, Option.bind_some, Option.some.injEq] at asks
      rw [asks, Pool.takeRaw, Pool.slabPop, list]
      rfl

theorem malloc_null {total : Nat} (null : s.malloc env total = (s', none)) : env.raw = none := by
  unfold Pool.malloc at null
  split at null
  · assumption
  · cases null

theorem takeRaw_null {total : Nat} (taken : s.takeRaw idx total env = .ok (s', none)) :
    env.raw = none := by
  cases idx with
  | none => exact malloc_null (Except.ok.inj taken)
  | some i =>
    obtain ⟨⟨s₁, raw⟩, _, taken⟩ := ok_of_bind taken
    cases raw with
    | some a => cases taken
    | none => exact malloc_null (Except.ok.inj taken)

/-- `NULL` is answered only where `malloc` answers it. -/
theorem allocAt_null (ret : s.allocAt idx size label env = .ok (s', none)) : env.raw = none := by
  obtain ⟨⟨s₁, raw⟩, taken, ret⟩ := ok_of_bind ret
  cases raw with
  | none => exact takeRaw_null taken
  | some a =>
    obtain ⟨s₂, _, ret⟩ := ok_of_bind ret
    obtain ⟨s₃, _, ret⟩ := ok_of_bind ret
    cases ret

theorem upgrade_null_iff {u : Upgrade} :
    (∃ u', u.memPoolAllocLabel size label env = .ok (u', none)) ↔
      ∃ s, u.pool.allocAt (u.findSlabIndex size) size label env = .ok (s, none) := by
  unfold Upgrade.memPoolAllocLabel
  constructor
  · rintro ⟨u', ret⟩
    obtain ⟨⟨s, r⟩, ok, ret⟩ := ok_of_bind ret
    cases ret
    exact ⟨s, ok⟩
  · rintro ⟨s, ok⟩
    rw [ok]
    exact ⟨_, rfl⟩

theorem allocAt_of_null {size n : Nat} (asks : s.asks idx size = some n) (raw : env.raw = none) :
    s.allocAt idx size label env = .ok (s, none) := by
  have taken : s.takeRaw idx (s.totalSize (s.actualSize idx size)) env = .ok (s, none) := by
    rw [takeRaw_asks asks, Pool.malloc, raw]
  simp [Pool.allocAt, taken, bind, Except.bind]

/-- The count is the sum unless the request wraps and `malloc` finds memory for what is left. -/
theorem allocAt_counted (sizes : s.blockSizes = classSizes) :
    Counted (∃ s', s.allocAt (classOf classSizes size) size label env = .ok (s', none))
      (s.asks (classOf classSizes size) size) s.around (roundUp classSizes size) size ↔
      s.Fits size ∨ env.raw = none := by
  have actual := actualSize_eq sizes size
  by_cases fits : s.Fits size
  · have sum : ∀ n ∈ s.asks (classOf classSizes size) size,
        n = s.around + roundUp classSizes size := by
      intro n asks
      rw [← (of_asked asks).2, actual, totalSize_eq fits, Pool.around]
      omega
    exact iff_of_true (Or.inr ⟨sum, le_roundUp classSizes size⟩) (Or.inl fits)
  · have cls := classOf_wraps fits
    have asks : s.asks (classOf classSizes size) size = some (s.totalSize size) := by
      rw [cls]
      rfl
    have wraps : 2 ^ 64 ≤ s.around + roundUp classSizes size := by
      rw [roundUp_of_none cls, Pool.around]
      unfold Pool.Fits at fits
      omega
    constructor
    · intro counted
      refine Or.inr (by_contra fun raw => ?_)
      rw [asks] at counted
      refine not_counted (Nat.mod_lt _ (by decide)) wraps ?_ counted
      rintro ⟨s', null⟩
      exact raw (allocAt_null null)
    · rintro (h | raw)
      · exact absurd h fits
      · exact Or.inl ⟨s, allocAt_of_null asks raw⟩

end

end MemPool

namespace SlabPool

section
variable {size n : Nat} {waiting : Option Addr} {env : Env}

/-- The sum of the guards and the bytes between them is asked for unless it wraps, which it
does not where a block waits. -/
theorem counted_iff (served : ∀ b, waiting = some b → size + guardSize * 2 < 2 ^ 64) :
    Counted False (asked waiting (totalSize size)) (guardSize * 2) size size ↔
      size + guardSize * 2 < 2 ^ 64 := by
  by_cases fit : size + guardSize * 2 < 2 ^ 64
  · have sum : ∀ n ∈ asked waiting (totalSize size), n = guardSize * 2 + size := by
      intro n asks
      rw [← (of_asked asks).2, totalSize_eq fit, Nat.add_comm]
    exact iff_of_true (Or.inr ⟨sum, Nat.le_refl size⟩) fit
  · have wraps : 2 ^ 64 ≤ guardSize * 2 + size := by omega
    cases waiting with
    | some b => exact absurd (served b rfl) fit
    | none => exact iff_of_false (not_counted (Nat.mod_lt _ (by decide)) wraps id) fit

/-- What `mem_pool_alloc` asks `malloc` for. -/
def Base.Pool.asks (s : Base.Pool) (size : Nat) : Option Nat :=
  asked (s.serving size) (totalSize size)

/-- The buffer of a call that returns has the bytes that were asked for. -/
theorem Base.alloc_asks {s s' : Base.Pool} {ptr : Addr} (asks : s.asks size = some n)
    (ret : s.memPoolAlloc size env = some (s', ptr)) :
    ∃ a, env.raw = some a ∧ s'.mem.extent a = some n := by
  obtain ⟨idle, rfl⟩ := of_asked asks
  obtain ⟨⟨s₁, b⟩, take, ret⟩ := Option.bind_eq_some_iff.mp ret
  obtain ⟨v, _, ret⟩ := Option.bind_eq_some_iff.mp ret
  cases ret
  obtain ⟨idx, create⟩ := Base.take_create idle take
  obtain ⟨_, a, raw, fill⟩ := Base.create_made create
  have extent : s₁.mem.extent a = some (totalSize size) := by
    rw [fillGuards_extent fill, Memory.extent_insert_self]
  exact ⟨a, raw, extent⟩

theorem Base.counted (s : Base.Pool) (size : Nat) :
    Counted False (s.asks size) (guardSize * 2) size size ↔ size + guardSize * 2 < 2 ^ 64 := by
  apply counted_iff
  intro b front
  exact Base.serving_fits front

/-- What `allocate` asks `malloc` for, once `new` has made the block. -/
def Cxx.MemoryPool.asks (s : Cxx.MemoryPool) (size : Nat) (env : Env) : Option Nat :=
  env.blk.bind fun _ => asked (s.serving size) (totalSize size)

theorem Cxx.take_asks {s s' : Cxx.MemoryPool} {b : Addr} (asks : s.asks size env = some n)
    (ret : s.take size env = some (s', b)) : ∃ a, env.raw = some a ∧ s'.mem.extent a = some n := by
  obtain ⟨_, _, asks⟩ := Option.bind_eq_some_iff.mp asks
  obtain ⟨idle, rfl⟩ := of_asked asks
  obtain ⟨idx, create⟩ := Cxx.take_create idle ret
  obtain ⟨_, a, raw, mem, _⟩ := Cxx.create_made create
  rw [mem]
  exact ⟨a, raw, Memory.extent_insert_self⟩

theorem Cxx.counted {s : Cxx.MemoryPool} {place : Addr → Place} (L : Cxx.Layout s place) :
    Counted False (s.asks size env) (guardSize * 2) size size ↔
      size + guardSize * 2 < 2 ^ 64 ∨ env.blk = none := by
  unfold Cxx.MemoryPool.asks
  cases env.blk with
  | none => exact iff_of_true (Or.inr ⟨by simp, Nat.le_refl size⟩) (Or.inr rfl)
  | some b =>
    rw [Option.bind_some, counted_iff]
    · simp
    · intro b front
      exact L.serving_fits front

end

end SlabPool

namespace Heaps

open MemPool (server upgrade)
open SlabPool.Cxx (cxx)

/-- In which calls the byte count is the sum it should be: in the thread-safe pools unless the
sum wraps and `malloc` finds memory for what is left of it, in the other two unless it wraps. -/
theorem counts_exact_iff (size : Nat) :
    (∀ garbage ops w label env,
      Run (MemPool.Step server) (.start (MemPool.Pool.memPoolInit garbage)) ops w →
      (Counted (∃ s, w.state.memPoolAllocLabel size label env = .ok (s, none))
        (w.state.asks (w.state.findSlabIndex size) size) w.state.around
        (roundUp MemPool.classSizes size) size ↔ w.state.Fits size ∨ env.raw = none)) ∧
    (∀ garbage ops w label env,
      Run (MemPool.Step upgrade) (.start (.memPoolInit (.static garbage))) ops w →
      (Counted (∃ s, w.state.memPoolAllocLabel size label env = .ok (s, none))
        (w.state.pool.asks (w.state.findSlabIndex size) size) w.state.pool.around
        (roundUp MemPool.classSizes size) size ↔ w.state.pool.Fits size ∨ env.raw = none)) ∧
    (∀ s : SlabPool.Base.Pool,
      Counted False (s.asks size) (SlabPool.guardSize * 2) size size ↔
        size + SlabPool.guardSize * 2 < 2 ^ 64) ∧
    ∀ ops w env, Run (SlabPool.Step cxx) (.start SlabPool.Cxx.MemoryPool.init) ops w →
      (Counted False (w.state.asks size env) (SlabPool.guardSize * 2) size size ↔
        size + SlabPool.guardSize * 2 < 2 ^ 64 ∨ env.blk = none) := by
  refine ⟨?_, ?_, ?_, ?_⟩
  · intro garbage ops w label env run
    obtain ⟨loc, A⟩ := MemPool.run_agrees run
    have sizes := A.layout.sizes
    unfold MemPool.Pool.memPoolAllocLabel
    rw [MemPool.findSlabIndex_eq sizes]
    exact MemPool.allocAt_counted sizes
  · intro garbage ops w label env run
    have all : ∀ op ∈ ops, True := fun _ _ => trivial
    obtain ⟨run', twin⟩ := MemPool.upgrade_run (run.when_labels all)
    obtain ⟨loc, A⟩ := MemPool.run_agrees run'.of_when
    have sizes : w.state.pool.blockSizes = MemPool.classSizes := A.layout.sizes
    rw [MemPool.upgrade_null_iff, twin.findSlabIndex_eq sizes]
    exact MemPool.allocAt_counted sizes
  · intro s
    exact SlabPool.Base.counted s size
  · intro ops w env run
    obtain ⟨place, L⟩ := (SlabPool.Cxx.run_roomy run).1
    exact SlabPool.Cxx.counted L

/-- The pools as they start, with nothing known of the memory. -/
def firstServer : MemPool.Pool := MemPool.Pool.memPoolInit fun _ => MemPool.blank

def firstUpgrade : MemPool.Upgrade := .memPoolInit (.static fun _ => MemPool.blank)

theorem small_request_counted :
    Counted (∃ s, firstServer.memPoolAllocLabel 40 none (MemPool.fresh 4096) = .ok (s, none))
      (firstServer.asks (firstServer.findSlabIndex 40) 40) firstServer.around
      (roundUp MemPool.classSizes 40) 40 :=
  ((counts_exact_iff 40).1 _ [] _ none (MemPool.fresh 4096) .nil).mpr
    (Or.inl (by unfold MemPool.Pool.Fits; decide))

/-- For `SIZE_MAX` bytes `malloc` is asked for 223 by the thread-safe pools under protection,
and for 31 by the others. -/
theorem largest_request_wraps :
    firstServer.asks (firstServer.findSlabIndex (2 ^ 64 - 1)) (2 ^ 64 - 1) = some 223 ∧
    firstUpgrade.pool.asks (firstUpgrade.findSlabIndex (2 ^ 64 - 1)) (2 ^ 64 - 1) = some 223 ∧
    SlabPool.Base.Pool.init.asks (2 ^ 64 - 1) = some 31 ∧
    SlabPool.Cxx.MemoryPool.init.asks (2 ^ 64 - 1) (SlabPool.fresh 1 1000) = some 31 := by
  refine ⟨?_, ?_, ?_, ?_⟩
  · rfl
  · rfl
  · rfl
  · rfl

/-- With memory for so few bytes no call answers `NULL`, and each has asked for too little. -/
theorem largest_request_miscounted :
    ¬ Counted (∃ s, firstServer.memPoolAllocLabel (2 ^ 64 - 1) none (MemPool.fresh 4096) =
        .ok (s, none))
      (firstServer.asks (firstServer.findSlabIndex (2 ^ 64 - 1)) (2 ^ 64 - 1)) firstServer.around
      (roundUp MemPool.classSizes (2 ^ 64 - 1)) (2 ^ 64 - 1) ∧
    ¬ Counted (∃ s, firstUpgrade.memPoolAllocLabel (2 ^ 64 - 1) none (MemPool.fresh 4096) =
        .ok (s, none))
      (firstUpgrade.pool.asks (firstUpgrade.findSlabIndex (2 ^ 64 - 1)) (2 ^ 64 - 1))
      firstUpgrade.pool.around (roundUp MemPool.classSizes (2 ^ 64 - 1)) (2 ^ 64 - 1) ∧
    ¬ Counted False (SlabPool.Base.Pool.init.asks (2 ^ 64 - 1)) (SlabPool.guardSize * 2)
      (2 ^ 64 - 1) (2 ^ 64 - 1) ∧
    ¬ Counted False (SlabPool.Cxx.MemoryPool.init.asks (2 ^ 64 - 1) (SlabPool.fresh 1 1000))
      (SlabPool.guardSize * 2) (2 ^ 64 - 1) (2 ^ 64 - 1) := by
  obtain ⟨server, upgrade, base, cxx⟩ := largest_request_wraps
  rw [server, upgrade, base, cxx]
  refine ⟨?_, ?_, ?_, ?_⟩
  · apply not_counted (by decide) (by decide)
    rintro ⟨s, null⟩
    cases MemPool.allocAt_null null
  · apply not_counted (by decide) (by decide)
    rw [MemPool.upgrade_null_iff]
    rintro ⟨s, null⟩
    cases MemPool.allocAt_null null
  · exact not_counted (by decide) (by decide) id
  · exact not_counted (by decide) (by decide) id

end Heaps

end LearnC
