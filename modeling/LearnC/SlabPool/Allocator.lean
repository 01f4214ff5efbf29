import LearnC.SlabPool.Bounds

/-! `PoolAllocator<T>`, which hands the pool a byte count for a number of objects. -/

namespace LearnC.SlabPool.Cxx

/-- How a call of `allocate` ends. It stops where `new` throws or where `setGuard` writes through
the null pointer of `malloc`. It strays where a guard is not inside the buffer of the block, also
where its address wraps: the call comes back all the same. -/
inductive Outcome where
  | stops
  | strays
  | returns (pool : MemoryPool) (ptr : Addr)

def MemoryPool.outcome (s : MemoryPool) (size : Nat) (env : Env) : Outcome :=
  match s.take size env with
  | none => .stops
  | some _ =>
    match s.allocate size env with
    | none => .strays
    | some (s', ptr) => .returns s' ptr

/-- The system answers with memory that is not in use. -/
structure Fresh (s : MemoryPool) (env : Env) : Prop where
  blk : ∀ b, env.blk = some b → b ∉ s.blocks
  raw : ∀ a, env.raw = some a → a ∉ s.mem

/-- No block waits, and there is no memory for one. -/
def Starved (s : MemoryPool) (size : Nat) (env : Env) : Prop :=
  s.serving size = none ∧ (env.blk = none ∨ env.raw = none)

/-- The guards fit into the waiting block or, where none waits, into the buffer that is made. -/
def Fits (s : MemoryPool) (size : Nat) : Prop :=
  Serves s size ∧ (s.serving size = none → size + guardSize * 2 < 2 ^ 64)

section
variable {s s' : MemoryPool} {place : Addr → Place} {ptr : Addr} {size : Nat} {env : Env}

theorem create_none_iff (idx : Option Nat) :
    s.create idx size env = none ↔ env.blk = none ∨ env.raw = none := by
  unfold MemoryPool.create
  cases env.blk with
  | none => simp
  | some b =>
    cases env.raw with
    | none => simp
    | some a => cases idx <;> simp

theorem take_none_iff (L : Layout s place) : s.take size env = none ↔ Starved s size env := by
  unfold MemoryPool.take Starved MemoryPool.serving
  cases find : s.findSlabIndex size with
  | none => simp [create_none_iff]
  | some i =>
    obtain ⟨slab, here⟩ := L.slab_exists ((L.findSlabIndex size).symm.trans find)
    cases list : slab.freeList with
    | nil => simp [here, list, create_none_iff]
    | cons b rest => simp [here, list]

theorem outcome_stops_iff (L : Layout s place) :
    s.outcome size env = .stops ↔ Starved s size env := by
  rw [← take_none_iff L, MemoryPool.outcome]
  cases s.take size env with
  | none => simp
  | some _ =>
    simp only [reduceCtorEq, iff_false]
    split <;> simp

theorem outcome_returns_iff :
    s.outcome size env = .returns s' ptr ↔ s.allocate size env = some (s', ptr) := by
  unfold MemoryPool.outcome
  cases take : s.take size env with
  | none => simp [MemoryPool.allocate, take]
  | some _ => cases s.allocate size env <;> simp [Prod.ext_iff]

theorem fits_of_returns (L : Layout s place) (ret : s.allocate size env = some (s', ptr)) :
    Fits s size := by
  cases front : s.serving size with
  | none => exact ⟨by simp [Serves, front], fun _ => (allocate_made front ret).2.2⟩
  | some b =>
    obtain ⟨v, hv, _, small, _⟩ := alloc_reuse L front env
    refine ⟨(serves_iff front hv).mpr ?_, by simp [front]⟩
    by_contra outside
    cases (small outside).symm.trans ret

theorem returns_of_fits (L : Layout s place) (fresh : Fresh s env) (fed : ¬ Starved s size env)
    (fits : Fits s size) :
    ∃ s' ptr, s.allocate size env = some (s', ptr) ∧ Bytes s' ptr size := by
  cases front : s.serving size with
  | none =>
    simp only [Starved, front, true_and, not_or] at fed
    obtain ⟨b, blk⟩ := Option.ne_none_iff_exists'.mp fed.1
    obtain ⟨a, raw⟩ := Option.ne_none_iff_exists'.mp fed.2
    have supply : Supplies cxx s env := ⟨⟨b, blk, fresh.blk b blk⟩, a, raw, fresh.raw a raw⟩
    obtain ⟨s', b', u, ret, _, rfl, _, hu, L'⟩ := alloc_create L (fits.2 front) front supply
    exact ⟨s', _, ret, (bytes_iff L').mpr ⟨b', u, Function.update_self _ _ _, hu, rfl, rfl⟩⟩
  | some b =>
    obtain ⟨v, hv, _, _, large⟩ := alloc_reuse L front env
    obtain ⟨s', u, ret, rfl, _, hu, L'⟩ := large ((serves_iff front hv).mp fits.1)
    exact ⟨s', _, ret, (bytes_iff L').mpr ⟨b, u, Function.update_self _ _ _, hu, rfl, rfl⟩⟩

end

/-! ## The allocator -/

/-- `n * sizeof(T)`, in `size_t`. -/
def byteCount (sizeofT n : Nat) : Nat := n * sizeofT % 2 ^ 64

/-- `PoolAllocator<T>::allocate`, on the global pool. -/
def PoolAllocator.allocate (sizeofT : Nat) (pool : MemoryPool) (n : Nat) (env : Env) : Outcome :=
  pool.outcome (byteCount sizeofT n) env

/-- A call that comes back has given the pool the true product. -/
def Counted (sizeofT : Nat) (pool : MemoryPool) (n : Nat) (env : Env) : Prop :=
  PoolAllocator.allocate sizeofT pool n env = .stops ∨ byteCount sizeofT n = n * sizeofT

/-- A call that comes back has given the pool the true product, has written its guards inside
the buffer of its block and has room for the objects. -/
def Honoured (sizeofT : Nat) (pool : MemoryPool) (n : Nat) (env : Env) : Prop :=
  PoolAllocator.allocate sizeofT pool n env = .stops ∨
    byteCount sizeofT n = n * sizeofT ∧ ∃ pool' ptr,
      PoolAllocator.allocate sizeofT pool n env = .returns pool' ptr ∧
        Room Bytes pool' ptr (n * sizeofT)

theorem byteCount_eq_iff (sizeofT n : Nat) :
    byteCount sizeofT n = n * sizeofT ↔ n * sizeofT < 2 ^ 64 := by
  unfold byteCount
  constructor
  · intro eq
    rw [← eq]
    exact Nat.mod_lt _ (by decide)
  · intro lt
    exact Nat.mod_eq_of_lt lt

/-- In any state, the number of objects is forwarded unless the product wraps and the pool finds
a block for what is left of it; and it is honoured if moreover the guards fit. -/
theorem honoured_iff (ops : List Op) (w : World MemoryPool)
    (run : Run (Step cxx) (World.start MemoryPool.init) ops w) (sizeofT n : Nat) (env : Env)
    (fresh : Fresh w.state env) :
    (Counted sizeofT w.state n env ↔
      Starved w.state (byteCount sizeofT n) env ∨ n * sizeofT < 2 ^ 64) ∧
    (Honoured sizeofT w.state n env ↔
      Starved w.state (byteCount sizeofT n) env ∨
        n * sizeofT < 2 ^ 64 ∧ Fits w.state (n * sizeofT)) := by
  obtain ⟨place, L⟩ := (run_roomy run).1
  unfold Counted Honoured PoolAllocator.allocate
  rw [outcome_stops_iff L, byteCount_eq_iff]
  refine ⟨Iff.rfl, ?_⟩
  by_cases starved : Starved w.state (byteCount sizeofT n) env
  · simp [starved]
  · simp only [starved, false_or]
    refine and_congr_right fun lt => ?_
    have product := (byteCount_eq_iff sizeofT n).mpr lt
    rw [product] at starved ⊢
    simp only [outcome_returns_iff]
    constructor
    · rintro ⟨s, ptr, ret, _⟩
      exact fits_of_returns L ret
    · intro fits
      obtain ⟨s, ptr, ret, bytes⟩ := returns_of_fits L fresh starved fits
      exact ⟨s, ptr, ret, _, bytes, Nat.le_refl _⟩

theorem five_objects_honoured : Honoured 8 MemoryPool.init 5 (SlabPool.fresh 1 1000) :=
  (honoured_iff [] (World.start MemoryPool.init) .nil 8 5 (SlabPool.fresh 1 1000)
    ⟨by decide, by decide⟩).2.mpr (Or.inr ⟨by decide, by
      refine ⟨?_, fun _ => by decide⟩
      rintro b v front
      cases front⟩)

/-- One more than `2 ^ 61` objects of 8 bytes get the room of one. -/
theorem wrapped_product_served :
    byteCount 8 (2 ^ 61 + 1) = 8 ∧
    (∃ pool, PoolAllocator.allocate 8 MemoryPool.init (2 ^ 61 + 1) (SlabPool.fresh 1 1000) =
      .returns pool 1016) ∧
    ¬ Counted 8 MemoryPool.init (2 ^ 61 + 1) (SlabPool.fresh 1 1000) ∧
    ¬ Honoured 8 MemoryPool.init (2 ^ 61 + 1) (SlabPool.fresh 1 1000) := by
  have served : (MemoryPool.init.allocate 8 (SlabPool.fresh 1 1000)).map Prod.snd =
      some 1016 := by decide
  obtain ⟨⟨pool, ptr⟩, ret, rfl⟩ := Option.map_eq_some_iff.mp served
  have returns : PoolAllocator.allocate 8 MemoryPool.init (2 ^ 61 + 1) (SlabPool.fresh 1 1000) =
      .returns pool _ := outcome_returns_iff.mpr ret
  have wraps : byteCount 8 (2 ^ 61 + 1) ≠ (2 ^ 61 + 1) * 8 := by decide
  refine ⟨rfl, ⟨pool, returns⟩, ?_, ?_⟩
  · rintro (stops | product)
    · cases returns.symm.trans stops
    · exact wraps product
  · rintro (stops | ⟨product, _⟩)
    · cases returns.symm.trans stops
    · exact wraps product

end LearnC.SlabPool.Cxx
