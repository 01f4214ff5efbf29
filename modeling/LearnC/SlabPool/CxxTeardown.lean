import LearnC.SlabPool.Bounds
import LearnC.SlabPool.Teardown

/-! The destructor of the C++ pool. -/

namespace LearnC.SlabPool.Cxx

/-- What the destructor leaves, frees and prints: the slabs' sizes and counts, and the
size and the call stack of each leak. -/
structure Destroyed where
  store : Store Block
  freed : List Freed
  stats : List (Nat × UInt64 × UInt64 × Nat)
  leaks : List (Nat × List Addr)

/-- The order in which a table is walked: each entry once. -/
structure Walks (t : Finmap fun _ : Addr => Addr) (order : List (Addr × Addr)) : Prop where
  once : order.Nodup
  entry : ∀ ptr b, (ptr, b) ∈ order ↔ t.lookup ptr = some b

namespace MemoryPool

def store (s : MemoryPool) : Store Block := ⟨s.mem, s.blocks⟩

def dumpSlabStats (s : MemoryPool) : List (Nat × UInt64 × UInt64 × Nat) :=
  s.slabs.map fun slab =>
    (slab.chunkSize, slab.totalBlocks, slab.allocatedBlocks, slab.freeList.length)

def dumpLeaks (s : MemoryPool) : List (Addr × Addr) → Option (List (Nat × List Addr))
  | [] => some []
  | (_, blk) :: rest => do
    let b ← s.blocks.lookup blk
    let leaks ← s.dumpLeaks rest
    some ((b.size, b.backtrace) :: leaks)

end MemoryPool

/-- The destructor's loop over the slabs. -/
def destroySlabs : Store Block → List Slab → Option (Store Block × List Freed)
  | h, [] => some (h, [])
  | h, slab :: rest => do
    let (h, freed) ← h.freeBlocks Block.toSpan slab.freeList
    let (h, later) ← destroySlabs h rest
    some (h, freed ++ later)

/-- The destructor, where the table is walked in `order`. -/
def MemoryPool.destroy (s : MemoryPool) (order : List (Addr × Addr)) : Option Destroyed := do
  let leaks ← s.dumpLeaks order
  let (h, active) ← s.store.freeBlocks Block.toSpan (order.map Prod.snd)
  let (h, idle) ← destroySlabs h s.slabs
  some { store := h, freed := active ++ idle, stats := s.dumpSlabStats, leaks := leaks }

/-- Every block is in one place: the value of one entry, whose key is its pointer, or
on the free list of the slab of its size, where it is once. -/
structure Partition (s : MemoryPool) (place : Addr → Place) : Prop where
  live : ∀ b, b ∈ s.blocks ↔ place b ≠ .gone
  active : ∀ ptr b, s.activeBlocks.lookup ptr = some b ↔
    place b = .active ∧ (s.blocks.lookup b).map (·.userPtr) = some ptr
  slab : ∀ i slab, s.slabs[i]? = some slab →
    slab.freeList.Nodup ∧ ∀ b, b ∈ slab.freeList ↔ place b = .slab i
  cls : ∀ b v i, place b = .slab i → s.blocks.lookup b = some v →
    i < s.slabs.length ∧ s.findSlabIndex v.size = some i
  buffers : ∀ a, a ∈ s.mem ↔ ∃ b v, s.blocks.lookup b = some v ∧ v.realPtr = a

/-- The surviving buffers and descriptors. -/
def MemoryPool.Survives (s : MemoryPool) (x : Freed) : Prop :=
  ∃ b v, s.blocks.lookup b = some v ∧ (x = .buffer v.realPtr ∨ x = .block b)

section
variable {s : MemoryPool} {place : Addr → Place} {h : Store Block} {slabs : List Slab}
  {order : List (Addr × Addr)}

theorem Layout.slab_bound (L : Layout s place) {i : Nat} {b : Addr} (hb : place b = .slab i) :
    i < s.slabs.length := by
  obtain ⟨v, hv⟩ := L.placed.block (b := b) (by simp [hb])
  have bound := classOf_lt (L.placed.idle b v i hb hv)
  rwa [← L.sizes, List.length_map] at bound

theorem Layout.partition (L : Layout s place) : Partition s place where
  live b := by
    rw [← L.placed.live, MemoryPool.span, Option.isSome_map, Finmap.lookup_isSome]
  active ptr b := by
    rw [L.active, MemoryPool.span, Option.map_map]
    rfl
  slab := L.slab
  cls b v i hb hv := by
    rw [L.findSlabIndex]
    exact ⟨L.slab_bound hb, L.placed.idle b v.toSpan i hb (span_some hv)⟩
  buffers := L.placed.mem_iff

theorem destroySlabs_eq :
    destroySlabs h slabs = h.freeBlocks Block.toSpan (slabs.flatMap Slab.freeList) := by
  induction slabs generalizing h with
  | nil => rfl
  | cons slab rest ih =>
    rw [destroySlabs, List.flatMap_cons, freeBlocks_append]
    apply Option.bind_congr
    rintro ⟨h₁, freed⟩ _
    simp only [ih]
    cases h₁.freeBlocks Block.toSpan (rest.flatMap Slab.freeList) <;> rfl

theorem Layout.walked (L : Layout s place) (walk : Walks s.activeBlocks order) :
    (order.map Prod.snd).Nodup ∧ ∀ b, b ∈ order.map Prod.snd ↔ place b = .active := by
  have entry (e : Addr × Addr) (he : e ∈ order) :
      place e.2 = .active ∧ (s.span e.2).map Span.userPtr = some e.1 :=
    (L.active e.1 e.2).mp ((walk.entry e.1 e.2).mp he)
  constructor
  · apply walk.once.map_on
    intro e he f hf eq
    have key := (entry e he).2
    rw [eq, (entry f hf).2] at key
    exact Prod.ext (Option.some.inj key).symm eq
  · intro b
    rw [List.mem_map]
    constructor
    · rintro ⟨e, he, rfl⟩
      exact (entry e he).1
    · intro hb
      obtain ⟨v, hv⟩ := L.placed.block (b := b) (by simp [hb])
      have key := (L.active v.userPtr b).mpr ⟨hb, by simp [hv]⟩
      exact ⟨(v.userPtr, b), (walk.entry _ _).mpr key, rfl⟩

theorem Layout.listed (L : Layout s place) :
    (s.slabs.flatMap Slab.freeList).Nodup ∧
      ∀ b, b ∈ s.slabs.flatMap Slab.freeList ↔ ∃ i, place b = .slab i := by
  constructor
  · rw [List.nodup_flatMap]
    constructor
    · intro slab hslab
      obtain ⟨i, hi⟩ := List.mem_iff_getElem?.mp hslab
      exact (L.slab i slab hi).1
    · rw [List.pairwise_iff_getElem]
      intro i j hi hj lt b hb hb'
      have here := ((L.slab i _ (List.getElem?_eq_getElem hi)).2 b).mp hb
      have there := ((L.slab j _ (List.getElem?_eq_getElem hj)).2 b).mp hb'
      rw [here, Place.slab.injEq] at there
      omega
  · intro b
    rw [List.mem_flatMap]
    constructor
    · rintro ⟨slab, hslab, hb⟩
      obtain ⟨i, hi⟩ := List.mem_iff_getElem?.mp hslab
      exact ⟨i, ((L.slab i slab hi).2 b).mp hb⟩
    · rintro ⟨i, hb⟩
      have lt := L.slab_bound hb
      exact ⟨s.slabs[i], List.getElem_mem lt,
        ((L.slab i _ (List.getElem?_eq_getElem lt)).2 b).mpr hb⟩

theorem dumpLeaks_returns (live : ∀ b ∈ order.map Prod.snd, ∃ v, s.blocks.lookup b = some v) :
    ∃ leaks, s.dumpLeaks order = some leaks := by
  induction order with
  | nil => exact ⟨[], rfl⟩
  | cons e rest ih =>
    rw [List.map_cons, List.forall_mem_cons] at live
    obtain ⟨⟨v, hv⟩, live⟩ := live
    obtain ⟨leaks, ret⟩ := ih live
    exact ⟨(v.size, v.backtrace) :: leaks, by simp [MemoryPool.dumpLeaks, hv, ret]⟩

/-- However the table is walked, each block goes once, wherever it is. -/
theorem Layout.destroy (L : Layout s place) (walk : Walks s.activeBlocks order) :
    ∃ d, s.destroy order = some d ∧ d.freed.Nodup ∧ (∀ x, x ∈ d.freed ↔ s.Survives x) ∧
      d.store = ⟨∅, ∅⟩ := by
  obtain ⟨nodup, active⟩ := L.walked walk
  obtain ⟨nodup', idle⟩ := L.listed
  have apart : (order.map Prod.snd ++ s.slabs.flatMap Slab.freeList).Nodup := by
    apply nodup.append nodup'
    intro b ha hi
    obtain ⟨i, hb⟩ := (idle b).mp hi
    cases hb.symm.trans ((active b).mp ha)
  have all (b : Addr) :
      b ∈ order.map Prod.snd ++ s.slabs.flatMap Slab.freeList ↔ place b ≠ .gone := by
    rw [List.mem_append, active, idle]
    cases place b <;> simp
  have live : ∀ b ∈ order.map Prod.snd, ∃ v, s.blocks.lookup b = some v :=
    fun b hb => L.block (b := b) (by simp [(active b).mp hb])
  obtain ⟨leaks, report⟩ := dumpLeaks_returns live
  obtain ⟨freed, ret, once, owed⟩ := freeBlocks_all (h := s.store) L.placed apart all
  rw [freeBlocks_append] at ret
  obtain ⟨⟨h, early⟩, first, ret⟩ := Option.bind_eq_some_iff.mp ret
  obtain ⟨⟨h', later⟩, second, eq⟩ := Option.map_eq_some_iff.mp ret
  obtain ⟨rfl, rfl⟩ := Prod.mk.inj eq
  let d : Destroyed :=
    { store := ⟨∅, ∅⟩, freed := early ++ later, stats := s.dumpSlabStats, leaks := leaks }
  refine ⟨d, by simp [MemoryPool.destroy, report, first, destroySlabs_eq, second, d], once, ?_, rfl⟩
  intro x
  simp [d, owed, MemoryPool.Survives, Owed, Store.span, MemoryPool.store]

/-- In every run each block is in one place; a pointer that is not a key changes
nothing; and the destructor frees every buffer and deletes every block once. -/
theorem blocks_partitioned (ops : List Op) (w : World MemoryPool)
    (run : Run (Step cxx) (World.start MemoryPool.init) ops w) :
    (∃ place, Partition w.state place) ∧
    (∀ ptr, w.state.activeBlocks.lookup ptr = none →
      w.state.deallocate (some ptr) = some (w.state, some .invalid)) ∧
    ∀ order, Walks w.state.activeBlocks order →
      ∃ d, w.state.destroy order = some d ∧ d.freed.Nodup ∧
        (∀ x, x ∈ d.freed ↔ w.state.Survives x) ∧ d.store = ⟨∅, ∅⟩ := by
  obtain ⟨place, L⟩ := (run_roomy run).1
  exact ⟨⟨place, L.partition⟩, fun _ => deallocate_rejected, fun _ => L.destroy⟩

end

/-- One block is active, and one stands on its slab's list. -/
def scattered : List Op := [.alloc 8 (fresh 1 1000), .alloc 40 (fresh 2 2000), .free (some 2016)]

theorem walks_singleton (ptr b : Addr) : Walks (Finmap.singleton ptr b) [(ptr, b)] := by
  constructor
  · exact List.nodup_singleton _
  · intro p c
    by_cases key : p = ptr
    · subst key
      simp [eq_comm]
    · have absent : (Finmap.singleton ptr b : Finmap fun _ : Addr => Addr).lookup p = none := by
        simpa [Finmap.lookup_eq_none] using key
      simp [key, absent]

theorem walked_table_destroyed : ∃ d,
    (World.after cxx MemoryPool.init scattered).state.destroy [(1016, 1)] = some d ∧
      d.freed.Nodup := by
  obtain ⟨_, _, destroys⟩ := blocks_partitioned scattered _ (after_run (by decide))
  have table : (World.after cxx MemoryPool.init scattered).state.activeBlocks =
      Finmap.singleton 1016 1 := by decide
  obtain ⟨d, ret, once, _⟩ := destroys [(1016, 1)] (table ▸ walks_singleton 1016 1)
  exact ⟨d, ret, once⟩

end LearnC.SlabPool.Cxx
