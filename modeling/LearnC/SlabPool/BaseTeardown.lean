import LearnC.SlabPool.Capacity
import LearnC.SlabPool.Teardown

/-! `mem_pool_destroy` of `1.base`. -/

namespace LearnC.SlabPool.Base

/-- A line of the leak report, with the addresses whose symbols follow it. -/
structure Leak where
  userPtr : Addr
  size : Nat
  backtrace : List Addr

/-- What `mem_pool_destroy` leaves, frees and prints. -/
structure Destroyed where
  pool : Pool
  freed : List Freed
  stats : List (Nat × UInt64 × UInt64 × UInt64)
  leaks : List Leak

namespace Pool

def store (s : Pool) : Store Block := ⟨s.mem, s.desc⟩

/-- `__mem_pool_dump_stats_nolock`. -/
def dumpStats (s : Pool) : List (Nat × UInt64 × UInt64 × UInt64) :=
  (List.range slabCount).map fun i =>
    let slab := s.slabs i
    (slab.chunkSize, slab.total, slab.inUse, slab.total - slab.inUse)

/-- `__mem_pool_dump_leaks_nolock`, over the active blocks. -/
def dumpLeaks (s : Pool) : List Addr → Option (List Leak × List Freed)
  | [] => some ([], [])
  | b :: rest => do
    let v ← s.desc.lookup b
    let (leaks, freed) ← s.dumpLeaks rest
    some (⟨v.userPtr, v.size, v.backtrace⟩ :: leaks, .symbols b :: freed)

end Pool

/-- The loop of `mem_pool_destroy` over one free list. -/
def destroyList : Nat → Store Block → Option Addr → Option (Store Block × List Freed)
  | _, h, none => some (h, [])
  | 0, _, some _ => none
  | fuel + 1, h, some b => do
    let v ← h.desc.lookup b
    let (h, freed) ← h.freeBlock Block.toSpan b
    let (h, later) ← destroyList fuel h v.next
    some (h, freed ++ later)

/-- The loop over the slabs. Each block that is freed is one less in the store. -/
def destroySlabs (slabs : Nat → Slab) :
    Store Block → List Nat → Option (Store Block × List Freed)
  | h, [] => some (h, [])
  | h, i :: rest => do
    let (h, freed) ← destroyList h.desc.keys.card h (slabs i).freeList
    let (h, later) ← destroySlabs slabs h rest
    some (h, freed ++ later)

/-- `free(active_blocks)` frees an array only once one was made. -/
def Pool.memPoolDestroy (s : Pool) : Option Destroyed := do
  let (leaks, symbols) ← s.dumpLeaks s.activeBlocks
  let (h, idle) ← destroySlabs s.slabs s.store (List.range slabCount)
  let (h, active) ← h.freeBlocks Block.toSpan s.activeBlocks
  some
    { pool := { s with mem := h.mem, desc := h.desc, activeBlocks := [], activeCapacity := 0 }
      freed := symbols ++ (idle ++ active) ++ if s.activeCapacity = 0 then [] else [.array]
      stats := s.dumpStats
      leaks := leaks }

/-- Every block is in one place: in the active array, where it is once, or on the free
list of the slab of its size, where it is once. -/
structure Partition (s : Pool) (place : Addr → Place) : Prop where
  live : ∀ b, b ∈ s.desc ↔ place b ≠ .gone
  once : s.activeBlocks.Nodup
  active : ∀ b, b ∈ s.activeBlocks ↔ place b = .active
  slab : ∀ i, ∃ free, Chain s.next (s.slabs i).freeList free ∧ free.Nodup ∧
    ∀ b, b ∈ free ↔ place b = .slab i
  cls : ∀ b v i, place b = .slab i → s.desc.lookup b = some v → slabIndex v.size = some i
  buffers : ∀ a, a ∈ s.mem ↔ ∃ b v, s.desc.lookup b = some v ∧ v.realPtr = a

/-- What the teardown owes the system: every buffer and every descriptor, and from
its own doing the symbols that the leak report had made and the active array. -/
def Pool.Owes (s : Pool) : Freed → Prop
  | .buffer a => ∃ b v, s.desc.lookup b = some v ∧ v.realPtr = a
  | .block b => b ∈ s.desc
  | .symbols b => b ∈ s.activeBlocks
  | .array => s.activeCapacity ≠ 0

section
variable {s : Pool} {place : Addr → Place} {h : Store Block} {head : Option Addr} {xs : List Addr}

theorem Layout.partition (L : Layout s place) : Partition s place where
  live b := by
    rw [← L.placed.live, Pool.span, Option.isSome_map, Finmap.lookup_isSome]
  once := L.once
  active := L.active
  slab i := by
    obtain ⟨free, chain, mem⟩ := L.slab i
    exact ⟨free, chain, chain.nodup, mem⟩
  cls b v i hb hv := L.placed.idle b v.toSpan i hb (span_some hv)
  buffers := L.placed.mem_iff

def Store.next (h : Store Block) (b : Addr) : Option Addr := (h.desc.lookup b).bind Block.next

theorem destroyList_eq (P : Placed h.mem (h.span Block.toSpan) place)
    (chain : Chain (Store.next h) head xs) (live : ∀ b ∈ xs, place b ≠ .gone) {fuel : Nat}
    (enough : xs.length ≤ fuel) : destroyList fuel h head = h.freeBlocks Block.toSpan xs := by
  induction xs generalizing h head place fuel with
  | nil =>
    cases chain_nil.mp chain
    cases fuel <;> rfl
  | cons b xs ih =>
    obtain ⟨out, _⟩ := List.nodup_cons.mp chain.nodup
    obtain ⟨rfl, rest⟩ := chain_cons.mp chain
    rw [List.forall_mem_cons] at live
    obtain ⟨fuel, rfl⟩ := Nat.exists_eq_succ_of_ne_zero (Nat.ne_of_gt (Nat.zero_lt_of_lt enough))
    obtain ⟨h₁, u, hu, free, P₁, other⟩ := freeBlock_spec P live.1
    obtain ⟨v, hv, _⟩ := Option.map_eq_some_iff.mp hu
    have away (c : Addr) (hc : c ∈ xs) : c ≠ b := by
      rintro rfl
      exact out hc
    have chain₁ : Chain (Store.next h₁) v.next xs := by
      rw [Store.next, hv, Option.bind_some] at rest
      apply rest.congr
      intro c hc
      rw [Store.next, other c (away c hc), Store.next]
    have later := ih P₁ chain₁ (fun c hc => by simpa [away c hc] using live.2 c hc)
      (Nat.le_of_succ_le_succ enough)
    simp [destroyList, Store.freeBlocks, hv, free, later]

theorem placed_mem (P : Placed h.mem (h.span Block.toSpan) place) {b : Addr}
    (hb : place b ≠ .gone) : b ∈ h.desc := by
  obtain ⟨v, hv⟩ := P.block hb
  obtain ⟨w, hw, _⟩ := Option.map_eq_some_iff.mp hv
  exact Finmap.mem_iff.mpr ⟨w, hw⟩

theorem destroySlabs_eq {slabs : Nat → Slab} {is : List Nat}
    (P : Placed h.mem (h.span Block.toSpan) place) (nodup : is.Nodup)
    (lists : ∀ i ∈ is, Holds (Store.next h) (slabs i).freeList fun b => place b = .slab i) :
    ∃ xs out, destroySlabs slabs h is = some out ∧ h.freeBlocks Block.toSpan xs = some out ∧
      xs.Nodup ∧ ∀ b, b ∈ xs ↔ ∃ i ∈ is, place b = .slab i := by
  induction is generalizing h place with
  | nil => exact ⟨[], (h, []), rfl, rfl, by simp, by simp⟩
  | cons i is ih =>
    obtain ⟨out, nodup⟩ := List.nodup_cons.mp nodup
    obtain ⟨xs, chain, mem⟩ := lists i List.mem_cons_self
    have live (b : Addr) (hb : b ∈ xs) : place b ≠ .gone := by simp [(mem b).mp hb]
    have enough : xs.length ≤ h.desc.keys.card :=
      length_le_keys chain.nodup fun b hb => placed_mem P (live b hb)
    obtain ⟨h₁, freed, free, _, _, P₁, other⟩ := freeBlocks_spec P chain.nodup live
    have first := (destroyList_eq P chain live enough).trans free
    -- The lists of the later slabs have none of these blocks.
    have later (j : Nat) (hj : j ∈ is) (b : Addr) :
        without place xs b = .slab j ↔ place b = .slab j := by
      rw [without]
      split
      · next hb =>
        have slab := (mem b).mp hb
        have ne : i ≠ j := by
          rintro rfl
          exact out hj
        simp [slab, ne]
      · exact Iff.rfl
    obtain ⟨ys, ⟨h₂, rest⟩, ret, free₂, nodup₂, mem₂⟩ := ih P₁ nodup fun j hj => by
      apply (lists j (List.mem_cons_of_mem i hj)).congr
      · intro b hb
        have off : b ∉ xs := by
          intro hx
          rw [← later j hj b, without, if_pos hx] at hb
          cases hb
        rw [Store.next, other b off, Store.next]
      · exact fun b => (later j hj b).symm
    refine ⟨xs ++ ys, (h₂, freed ++ rest), ?_, ?_, ?_, ?_⟩
    · simp [destroySlabs, first, ret]
    · simp [freeBlocks_append, free, free₂]
    · apply chain.nodup.append nodup₂
      intro b hx hy
      obtain ⟨j, hj, slab⟩ := (mem₂ b).mp hy
      simp [without, hx] at slab
    · intro b
      rw [List.mem_append, mem, mem₂, List.exists_mem_cons_iff]
      exact or_congr_right (exists_congr fun j => and_congr_right fun hj => later j hj b)

theorem dumpLeaks_eq (live : ∀ b ∈ xs, ∃ v, s.desc.lookup b = some v) :
    ∃ leaks, s.dumpLeaks xs = some (leaks, xs.map .symbols) := by
  induction xs with
  | nil => exact ⟨[], rfl⟩
  | cons b xs ih =>
    rw [List.forall_mem_cons] at live
    obtain ⟨⟨v, hv⟩, live⟩ := live
    obtain ⟨leaks, ret⟩ := ih live
    exact ⟨⟨v.userPtr, v.size, v.backtrace⟩ :: leaks, by simp [Pool.dumpLeaks, hv, ret]⟩

theorem trace_nodup {freed array : List Freed} (nodup : xs.Nodup) (once : freed.Nodup)
    (owed : ∀ x ∈ freed, ∃ b, Owed (h.span Block.toSpan) b x)
    (single : array = [] ∨ array = [.array]) : (xs.map Freed.symbols ++ freed ++ array).Nodup := by
  have symbols : (xs.map Freed.symbols).Nodup := nodup.map fun _ _ => Freed.symbols.inj
  apply List.Nodup.append (symbols.append once ?_)
  · rcases single with rfl | rfl <;> simp
  · intro x hx ha
    have eq : x = .array := by
      rcases single with rfl | rfl
      · cases ha
      · exact List.mem_singleton.mp ha
    subst eq
    rcases List.mem_append.mp hx with hx | hx
    · simp at hx
    · obtain ⟨b, v, _, h | h⟩ := owed _ hx <;> cases h
  · intro x hs hx
    obtain ⟨b, _, rfl⟩ := List.mem_map.mp hs
    obtain ⟨c, v, _, h | h⟩ := owed _ hx <;> cases h

/-- The loops free each block once, wherever it is. -/
theorem Layout.destroy (L : Layout s place) :
    ∃ d, s.memPoolDestroy = some d ∧
      d.pool = { s with mem := ∅, desc := ∅, activeBlocks := [], activeCapacity := 0 } ∧
      d.freed.Nodup ∧ ∀ x, x ∈ d.freed ↔ s.Owes x := by
  obtain ⟨leaks, report⟩ := dumpLeaks_eq (s := s) fun b hb => L.active_block hb
  have indices : (List.range slabCount).Nodup := List.nodup_range
  obtain ⟨ys, ⟨h₁, idle⟩, first, free₁, nodup, mem⟩ :=
    destroySlabs_eq (h := s.store) L.placed indices fun i _ => L.slab i
  have all (b : Addr) : b ∈ ys ++ s.activeBlocks ↔ place b ≠ .gone := by
    rw [List.mem_append, mem, L.active]
    cases hb : place b with
    | gone => simp
    | active => simp
    | slab i =>
      obtain ⟨v, hv⟩ := L.placed.block (b := b) (by simp [hb])
      have bound : i < slabCount := classOf_lt (L.placed.idle b v i hb hv)
      simpa using bound
  have apart : (ys ++ s.activeBlocks).Nodup := by
    apply nodup.append L.once
    intro b hy ha
    obtain ⟨i, _, hb⟩ := (mem b).mp hy
    cases hb.symm.trans ((L.active b).mp ha)
  obtain ⟨freed, ret, once, owed⟩ := freeBlocks_all (h := s.store) L.placed apart all
  rw [freeBlocks_append, free₁, Option.bind_some] at ret
  obtain ⟨⟨h₂, active⟩, second, eq⟩ := Option.map_eq_some_iff.mp ret
  obtain ⟨rfl, rfl⟩ := Prod.mk.inj eq
  let d : Destroyed :=
    { pool := { s with mem := ∅, desc := ∅, activeBlocks := [], activeCapacity := 0 }
      freed := s.activeBlocks.map .symbols ++ (idle ++ active) ++
        if s.activeCapacity = 0 then [] else [.array]
      stats := s.dumpStats
      leaks := leaks }
  refine ⟨d, by simp [Pool.memPoolDestroy, report, first, second, d], rfl, ?_, ?_⟩
  · apply trace_nodup L.once once fun x => (owed x).mp
    split <;> simp
  · intro x
    rw [List.mem_append, List.mem_append, owed]
    cases x with
    | buffer a => simp [Pool.Owes, Owed, Store.span, Pool.store, eq_comm]
    | block b => simp [Pool.Owes, Owed, Store.span, Pool.store, Finmap.mem_iff]
    | symbols b => simp [Pool.Owes, Owed]
    | array =>
      by_cases empty : s.activeCapacity = 0 <;> simp [Pool.Owes, Owed, empty]

/-- In every run each block is in one place, and the teardown frees once what the
blocks have from the system, and its own symbols and array. -/
theorem destroy_frees_once (ops : List Op) (w : World Pool)
    (run : Run (Step base) (World.start Pool.init) ops w) :
    (∃ place, Partition w.state place) ∧
    ∃ d, w.state.memPoolDestroy = some d ∧ d.freed.Nodup ∧
      (∀ x, x ∈ d.freed ↔ w.state.Owes x) ∧ d.pool.mem = ∅ ∧ d.pool.desc = ∅ := by
  obtain ⟨place, L⟩ := ledger.run_inv init_inv run
  obtain ⟨d, ret, left, once, owes⟩ := L.destroy
  exact ⟨⟨place, L.partition⟩, d, ret, once, owes, by rw [left], by rw [left]⟩

end

def scattered : List Op := [.alloc 8 (fresh 1 1000), .alloc 40 (fresh 2 2000), .free (some 2016)]

theorem scattered_destroyed : ∃ d,
    (World.after base Pool.init scattered).state.memPoolDestroy = some d ∧ d.freed.Nodup := by
  obtain ⟨_, d, ret, once, _⟩ := destroy_frees_once scattered _ (after_run (by decide))
  exact ⟨d, ret, once⟩

/-- The teardown also frees what no block has from the system. -/
theorem destroy_frees_array : ∃ w d, Run (Step base) (World.start Pool.init) scattered w ∧
    w.state.memPoolDestroy = some d ∧ .array ∈ d.freed ∧
    ¬ ∀ x ∈ d.freed, ∃ b, Owed w.state.span b x := by
  have freed : ((World.after base Pool.init scattered).state.memPoolDestroy.map (·.freed)) =
      some [.symbols 1, .buffer 2000, .block 2, .buffer 1000, .block 1, .array] := by
    decide
  obtain ⟨d, ret, freed⟩ := Option.map_eq_some_iff.mp freed
  have array : .array ∈ d.freed := by simp [freed]
  refine ⟨_, d, after_run (by decide), ret, array, ?_⟩
  intro blocks
  obtain ⟨b, v, _, h | h⟩ := blocks _ array <;> cases h

end LearnC.SlabPool.Base
