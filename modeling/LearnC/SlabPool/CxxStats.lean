import LearnC.SlabPool.Books
import LearnC.SlabPool.CxxLayout

/-! What `dumpSlabStats` prints for the slabs of the C++ pool. -/

namespace LearnC.SlabPool.Cxx

/-- The slab of the block at `b`. -/
def MemoryPool.slabOf (s : MemoryPool) (b : Addr) : Option Nat :=
  (s.blocks.lookup b).bind fun v => s.findSlabIndex v.size

/-- `allocated_blocks` counts the entries of the table for each slab, and
`total_blocks` these and the blocks on its free list. -/
def MemoryPool.Balanced (s : MemoryPool) : Prop :=
  ∀ i slab, s.slabs[i]? = some slab →
    slab.allocatedBlocks.toNat = (s.activeBlocks.keys.filter fun ptr =>
      (s.activeBlocks.lookup ptr).bind s.slabOf = some i).card ∧
    slab.totalBlocks.toNat = slab.allocatedBlocks.toNat + slab.freeList.length

/-- A counter of slab `i`, zero where there is no slab. -/
def MemoryPool.counter (s : MemoryPool) (field : Slab → UInt64) (i : Nat) : UInt64 :=
  (s.slabs[i]?.map field).getD 0

def MemoryPool.books (s : MemoryPool) : Books where
  keys := s.blocks.keys
  cls := s.slabOf
  total := s.counter Slab.totalBlocks
  inUse := s.counter Slab.allocatedBlocks

section
variable {s s' s₁ : MemoryPool} {place : Addr → Place} {b c ptr : Addr} {v : Block} {slab : Slab}
  {i size : Nat} {env : Env} {f : Slab → Slab} {field : Slab → UInt64}

theorem slabOf_some (h : s.blocks.lookup b = some v) : s.slabOf b = s.findSlabIndex v.size := by
  simp [MemoryPool.slabOf, h]

theorem counter_some (h : s.slabs[i]? = some slab) : s.counter field i = field slab := by
  simp [MemoryPool.counter, h]

/-- A call that keeps a counter. -/
theorem counter_keep (slabs : s'.slabs = s.slabs.modify i f)
    (keep : ∀ slab, field (f slab) = field slab) : s'.counter field = s.counter field := by
  funext j
  by_cases hj : i = j
  · simp [MemoryPool.counter, slabs, hj, Function.comp_def, keep]
  · simp [MemoryPool.counter, slabs, hj]

/-- A call that changes a counter. -/
theorem counter_modify (slabs : s'.slabs = s.slabs.modify i f) (h : s.slabs[i]? = some slab) :
    s'.counter field = Function.update (s.counter field) i (field (f slab)) := by
  funext j
  by_cases hj : i = j
  · subst hj
    simp [MemoryPool.counter, slabs, h]
  · simp [MemoryPool.counter, slabs, hj, Ne.symm hj]

theorem find_modify (slabs : s'.slabs = s.slabs.modify i f)
    (keep : ∀ slab, (f slab).chunkSize = slab.chunkSize) (size : Nat) :
    s'.findSlabIndex size = s.findSlabIndex size := by
  rw [MemoryPool.findSlabIndex, slabs, modify_sizes keep]
  rfl

/-! ## Allocation -/

/-- The block found for a request takes on its size. -/
theorem allocate_books (take : s.take size env = some (s₁, b))
    (ret : s.allocate size env = some (s', ptr)) :
    s'.books = ⟨insert b s₁.blocks.keys, Function.update s₁.slabOf b (s₁.findSlabIndex size),
      s₁.counter Slab.totalBlocks, s₁.counter Slab.allocatedBlocks⟩ := by
  simp only [MemoryPool.allocate, take, Option.bind_eq_bind, Option.bind_some] at ret
  obtain ⟨v, hv, ret⟩ := Option.bind_eq_some_iff.mp ret
  obtain ⟨mem, _, ret⟩ := Option.bind_eq_some_iff.mp ret
  cases ret
  apply Books.ext
  · ext c
    simp [MemoryPool.books, Finmap.mem_keys]
  · funext c
    by_cases hc : c = b
    · subst hc
      simp [MemoryPool.books, MemoryPool.slabOf, MemoryPool.findSlabIndex]
    · simp [MemoryPool.books, MemoryPool.slabOf, MemoryPool.findSlabIndex, hc]
  · rfl
  · rfl

theorem Layout.slabOf (L : Layout s place) (h : s.blocks.lookup b = some v) :
    s.slabOf b = classOf slabSizes v.size :=
  (slabOf_some h).trans (L.findSlabIndex v.size)

/-- A request served from a slab's list: the block keeps its slab with its new size. -/
theorem reuse_books (L : Layout s place) (front : s.serving size = some b)
    (ret : s.allocate size env = some (s', ptr)) :
    ∃ i, place b = .slab i ∧ s'.books = s.books.reuse i := by
  obtain ⟨i, find, front⟩ := Option.bind_eq_some_iff.mp front
  obtain ⟨slab, hslab, front⟩ := Option.bind_eq_some_iff.mp front
  obtain ⟨rest, list⟩ := List.head?_eq_some_iff.mp front
  have hb : place b = .slab i := ((L.slab i slab hslab).2 b).mp (by simp [list])
  obtain ⟨v, hv⟩ := L.block (b := b) (by simp [hb])
  let pop (slab : Slab) : Slab :=
    { slab with freeList := rest, allocatedBlocks := slab.allocatedBlocks + 1 }
  let s₁ : MemoryPool := { s with slabs := s.slabs.modify i pop }
  have take : s.take size env = some (s₁, b) := by
    simp [MemoryPool.take, find, hslab, list, s₁, pop]
  have find₁ (n : Nat) : s₁.findSlabIndex n = s.findSlabIndex n :=
    find_modify (f := pop) rfl (fun _ => rfl) n
  refine ⟨i, hb, (allocate_books take ret).trans ?_⟩
  apply Books.ext
  · apply Finset.insert_eq_of_mem
    exact Finmap.mem_keys.mpr (Finmap.mem_iff.mpr ⟨v, hv⟩)
  · funext c
    by_cases hc : c = b
    · subst hc
      have old : s.slabOf c = some i :=
        (L.slabOf hv).trans (L.placed.idle c _ i hb (span_some hv))
      simpa [Books.reuse, MemoryPool.books, old, find₁] using find
    · simp only [Function.update_of_ne hc, Books.reuse, MemoryPool.books, MemoryPool.slabOf, find₁]
      rfl
  · exact counter_keep (f := pop) rfl fun _ => rfl
  · have slabs : s₁.slabs = s.slabs.modify i pop := rfl
    refine (counter_modify slabs hslab).trans ?_
    simp [Books.reuse, MemoryPool.books, counter_some hslab, pop]

/-- A new block, and the counter of its slab. -/
theorem create_eq (L : Layout s place) (blk : env.blk = some b)
    (ret : s.create (s.findSlabIndex size) size env = some (s₁, c)) :
    c = b ∧ (∃ v, s₁.blocks = s.blocks.insert b v) ∧
      (∀ n, s₁.findSlabIndex n = s.findSlabIndex n) ∧
      s₁.counter Slab.totalBlocks = (s.books.create b (s.findSlabIndex size)).total ∧
      s₁.counter Slab.allocatedBlocks = s.counter Slab.allocatedBlocks := by
  simp only [MemoryPool.create, blk, Option.bind_eq_bind, Option.bind_some] at ret
  obtain ⟨raw, _, ret⟩ := Option.bind_eq_some_iff.mp ret
  cases find : s.findSlabIndex size with
  | none =>
    simp only [find] at ret
    cases ret
    exact ⟨rfl, ⟨_, rfl⟩, fun _ => rfl, rfl, rfl⟩
  | some i =>
    obtain ⟨slab, hslab⟩ := L.slab_exists ((L.findSlabIndex size).symm.trans find)
    let count (slab : Slab) : Slab := { slab with totalBlocks := slab.totalBlocks + 1 }
    have slabs : s₁.slabs = s.slabs.modify i count := by
      simp only [find] at ret
      cases ret
      rfl
    refine ⟨?_, ?_, ?_, ?_, ?_⟩
    · simp only [find] at ret
      cases ret
      rfl
    · simp only [find] at ret
      cases ret
      exact ⟨_, rfl⟩
    · exact find_modify slabs fun _ => rfl
    · rw [counter_modify slabs hslab]
      simp [Books.create, MemoryPool.books, counter_some hslab, count]
    · exact counter_keep slabs fun _ => rfl

/-- Any other request makes a block. -/
theorem create_books (L : Layout s place) (idle : s.serving size = none) (blk : env.blk = some b)
    (ret : s.allocate size env = some (s', ptr)) :
    s'.books = s.books.create b (classOf slabSizes size) := by
  obtain ⟨⟨s₁, c⟩, take, _⟩ := Option.bind_eq_some_iff.mp ret
  have made : s.create (s.findSlabIndex size) size env = some (s₁, c) := by
    cases find : s.findSlabIndex size with
    | none => simpa [MemoryPool.take, find] using take
    | some i =>
      obtain ⟨slab, hslab⟩ := L.slab_exists ((L.findSlabIndex size).symm.trans find)
      have empty : slab.freeList = [] := by simpa [MemoryPool.serving, find, hslab] using idle
      simpa [MemoryPool.take, find, hslab, empty] using take
  obtain ⟨rfl, ⟨v, blocks⟩, find, total, allocated⟩ := create_eq L blk made
  refine (allocate_books take ret).trans ?_
  rw [← L.findSlabIndex]
  apply Books.ext
  · ext d
    simp [blocks, Books.create, MemoryPool.books, Finmap.mem_keys]
  · funext d
    by_cases hd : d = c
    · subst hd
      simp [Books.create, find]
    · simp [Books.create, MemoryPool.books, MemoryPool.slabOf, find, blocks, hd]
  · exact total
  · exact allocated

/-! ## Freeing -/

theorem release_books (L : Layout s place) (hv : s.blocks.lookup b = some v)
    (ret : (s.removeKey ptr).release b v = some s') :
    s'.books = match classOf slabSizes v.size with
      | some i => s.books.release i
      | none => s.books.drop b := by
  have find : (s.removeKey ptr).findSlabIndex v.size = classOf slabSizes v.size :=
    L.findSlabIndex v.size
  cases cls : classOf slabSizes v.size with
  | some i =>
    obtain ⟨slab, hslab⟩ := L.slab_exists cls
    let push (slab : Slab) : Slab :=
      { slab with freeList := slab.freeList ++ [b], allocatedBlocks := slab.allocatedBlocks - 1 }
    simp only [MemoryPool.release, find, cls] at ret
    cases ret
    let s' : MemoryPool := { s.removeKey ptr with slabs := s.slabs.modify i push }
    have slabs : s'.slabs = s.slabs.modify i push := rfl
    apply Books.ext
    · rfl
    · funext c
      have same (n : Nat) : s'.findSlabIndex n = s.findSlabIndex n :=
        find_modify (f := push) rfl (fun _ => rfl) n
      show (s.blocks.lookup c).bind (fun v => s'.findSlabIndex v.size) = s.slabOf c
      simp only [same, MemoryPool.slabOf]
    · exact counter_keep slabs fun _ => rfl
    · refine (counter_modify slabs hslab).trans ?_
      simp [Books.release, MemoryPool.books, counter_some hslab, push]
  | none =>
    simp only [MemoryPool.release, find, cls] at ret
    split at ret
    · cases ret
      apply Books.ext
      · exact Finmap.keys_erase b s.blocks
      · funext c
        by_cases hc : c = b
        · subst hc
          simp [MemoryPool.books, MemoryPool.slabOf, Books.drop]
        · simp only [MemoryPool.books, MemoryPool.slabOf, Books.drop, Function.update_of_ne hc,
            Finmap.lookup_erase_ne hc]
          rfl
      · rfl
      · rfl
    · cases ret

theorem Layout.live (L : Layout s place) : b ∈ s.books.keys ↔ place b ≠ .gone := by
  rw [← L.placed.live, MemoryPool.span, Option.isSome_map, Finmap.lookup_isSome]
  exact Finmap.mem_keys

theorem accounts : Accounts cxx Layout MemoryPool.books where
  cls s place b i L h := by
    obtain ⟨v, _, cls⟩ := Option.bind_eq_some_iff.mp h
    exact classOf_lt ((L.findSlabIndex v.size).symm.trans cls)
  alloc s place size env s' ptr L fit supply ret := by
    cases front : s.serving size with
    | none =>
      obtain ⟨c, blk, new⟩ := supply.1
      obtain ⟨s₁, b, v, ok, _, _, _, _, L'⟩ := alloc_create L fit front supply
      cases ok.symm.trans ret
      have books := create_books L front blk ret
      have eq : b = c := Books.made_block (fun _ => L.live) (fun _ => books ▸ L'.live) new
      have gone : place b = .gone := by
        by_contra live
        exact new (eq ▸ L.live.mpr live)
      exact ⟨b, L', Or.inr ⟨gone, eq ▸ books⟩⟩
    | some b =>
      obtain ⟨v, hv, _, small, large⟩ := alloc_reuse L front env
      obtain ⟨i, hb, books⟩ := reuse_books L front ret
      by_cases inside : s.mem.Inside v.realPtr 0 (size + guardSize * 2)
      · obtain ⟨s₁, u, ok, _, _, _, L'⟩ := large inside
        cases ok.symm.trans ret
        exact ⟨b, L', Or.inl ⟨i, hb, books⟩⟩
      · cases (small inside).symm.trans ret
  free s place ptr s' L ret := by
    obtain ⟨⟨_, msg⟩, call, rfl⟩ := Option.map_eq_some_iff.mp ret
    cases key : s.activeBlocks.lookup ptr with
    | none =>
      left
      cases (deallocate_rejected key).symm.trans call
      rfl
    | some b =>
      obtain ⟨active, user⟩ := (L.active ptr b).mp key
      obtain ⟨u, hu, rfl⟩ := Option.map_eq_some_iff.mp user
      obtain ⟨v, hv, rfl⟩ := Option.map_eq_some_iff.mp hu
      refine Or.inr ⟨b, active, ?_⟩
      simp only [MemoryPool.deallocate, key, hv, Option.bind_eq_bind, Option.bind_some] at call
      obtain ⟨intact, _, call⟩ := Option.bind_eq_some_iff.mp call
      obtain ⟨s₁, release, call⟩ := Option.bind_eq_some_iff.mp call
      cases call
      have books := release_books L hv release
      cases cls : classOf slabSizes v.size with
      | some i =>
        obtain ⟨_, ok, _, L'⟩ := release_slab L active hv cls
        cases ok.symm.trans release
        rw [cls] at books
        exact Or.inl ⟨i, (L.slabOf hv).trans cls, L', books⟩
      | none =>
        obtain ⟨_, ok, _, L'⟩ := release_system L active hv cls
        cases ok.symm.trans release
        rw [cls] at books
        exact Or.inr ⟨(L.slabOf hv).trans cls, L', books⟩
  freeNull s := rfl
  write s place mem L extent := ⟨L.store extent, rfl⟩

/-! ## What the counters count -/

theorem Layout.busy (L : Layout s place) (i : Nat) :
    (s.activeBlocks.keys.filter fun ptr =>
      (s.activeBlocks.lookup ptr).bind s.slabOf = some i).card = s.books.busy place i := by
  apply Finset.card_bij fun ptr _ => (s.activeBlocks.lookup ptr).getD 0
  · intro ptr hp
    obtain ⟨b, key, cls⟩ := Option.bind_eq_some_iff.mp (Finset.mem_filter.mp hp).2
    have active := ((L.active ptr b).mp key).1
    rw [key, Option.getD_some, Finset.mem_filter]
    exact ⟨L.live.mpr (by simp [active]), active, cls⟩
  · intro p hp q hq eq
    obtain ⟨b, keyP, _⟩ := Option.bind_eq_some_iff.mp (Finset.mem_filter.mp hp).2
    obtain ⟨c, keyQ, _⟩ := Option.bind_eq_some_iff.mp (Finset.mem_filter.mp hq).2
    rw [keyP, keyQ, Option.getD_some, Option.getD_some] at eq
    subst eq
    exact Option.some.inj (((L.active p b).mp keyP).2.symm.trans ((L.active q b).mp keyQ).2)
  · intro b hb
    obtain ⟨_, active, cls⟩ := Finset.mem_filter.mp hb
    obtain ⟨v, hv⟩ := L.block (b := b) (by simp [active])
    have key : s.activeBlocks.lookup v.userPtr = some b :=
      (L.active _ b).mpr ⟨active, by simp [span_some hv]⟩
    have mem : v.userPtr ∈ s.activeBlocks.keys :=
      Finmap.mem_keys.mpr (Finmap.mem_iff.mpr ⟨b, key⟩)
    refine ⟨v.userPtr, Finset.mem_filter.mpr ⟨mem, ?_⟩, by simp [key]⟩
    rw [key]
    exact cls

theorem Layout.idle (L : Layout s place) (h : s.slabs[i]? = some slab) :
    s.books.idle place i = slab.freeList.length := by
  obtain ⟨nodup, mem⟩ := L.slab i slab h
  apply card_filter_eq_length nodup
  intro b
  rw [mem]
  constructor
  · intro hb
    exact ⟨L.live.mpr (by simp [hb]), hb⟩
  · exact And.right

theorem Layout.balanced (L : Layout s place) :
    s.Balanced ↔ ∀ i < slabCount, (s.books.inUse i).toNat = s.books.busy place i ∧
      (s.books.total i).toNat = (s.books.inUse i).toNat + s.books.idle place i := by
  have length : s.slabs.length = slabCount := by
    rw [show slabCount = slabSizes.length from rfl, ← L.sizes, List.length_map]
  have counters (i : Nat) (slab : Slab) (h : s.slabs[i]? = some slab) :
      s.books.inUse i = slab.allocatedBlocks ∧ s.books.total i = slab.totalBlocks :=
    ⟨counter_some h, counter_some h⟩
  constructor
  · intro balanced i hi
    have h := List.getElem?_eq_getElem (l := s.slabs) (i := i) (length ▸ hi)
    obtain ⟨inUse, total⟩ := counters i _ h
    rw [inUse, total, L.idle h, ← L.busy]
    exact balanced i _ h
  · intro balanced i slab h
    obtain ⟨inUse, total⟩ := counters i slab h
    have hi : i < slabCount := length ▸ (List.getElem?_eq_some_iff.mp h).1
    have both := balanced i hi
    rw [inUse, total, L.idle h, ← L.busy] at both
    exact both

theorem init_tally : Tally MemoryPool.init.books fun _ => .gone := by
  have zero (field : Slab → UInt64) (zeros : ∀ size, field ⟨size, [], 0, 0⟩ = 0) (i : Nat) :
      MemoryPool.init.counter field i = 0 := by
    simp only [MemoryPool.counter, MemoryPool.init, List.getElem?_map, Option.map_map]
    cases slabSizes[i]? with
    | none => rfl
    | some size => exact zeros size
  exact tally_nothing rfl (zero _ fun _ => rfl) (zero _ fun _ => rfl)

/-- A request of any size that is answered is a step. -/
theorem alloc_step {w : World MemoryPool} (L : Layout w.state place)
    (supply : Supplies cxx w.state env) (ret : w.state.allocate size env = some (s', ptr)) :
    Step cxx w (.alloc size env) ⟨s', Function.update w.owner ptr (some size)⟩ :=
  .alloc (L.alloc_fits ret) supply ret

/-- In every run the counters balance exactly if each request so far was too large
for a slab. -/
theorem slab_stats_balanced_iff (ops : List Op) (w : World MemoryPool)
    (run : Run (Step cxx) (World.start MemoryPool.init) ops w) :
    w.state.Balanced ↔ ∀ size env, .alloc size env ∈ ops → 4096 < size := by
  obtain ⟨place, L, iff⟩ := accounts.balanced_iff init_layout init_tally rfl run
  exact L.balanced.trans iff

end

/-- A block too large for any slab. -/
def oversized : List Op := [.alloc 5000 (fresh 1 1000)]

theorem oversized_stats_balanced :
    (World.after cxx MemoryPool.init oversized).state.Balanced := by
  apply (slab_stats_balanced_iff oversized (World.after cxx MemoryPool.init oversized)
    (after_run (by decide))).mpr
  intro size env mem
  cases List.mem_singleton.mp mem
  decide

/-- The first block of a slab comes and goes. -/
def returned : List Op := [.alloc 8 (fresh 1 1000), .free (some 1016)]

/-- Coming, it is not counted, and going it is: the table is empty, and the counter
has wrapped. -/
theorem returned_block_stats_wrap : ∃ w,
    Run (Step cxx) (World.start MemoryPool.init) returned w ∧
    (w.state.slabs[0]?.map fun slab => slab.allocatedBlocks.toNat) = some (2 ^ 64 - 1) ∧
    w.state.activeBlocks.keys = ∅ ∧ ¬ w.state.Balanced := by
  have run : Run (Step cxx) (World.start MemoryPool.init) returned
      (World.after cxx MemoryPool.init returned) := after_run (by decide)
  have counter : ((World.after cxx MemoryPool.init returned).state.slabs[0]?.map fun slab =>
      slab.allocatedBlocks.toNat) = some (2 ^ 64 - 1) := by decide
  have active : (World.after cxx MemoryPool.init returned).state.activeBlocks.keys = ∅ := by
    decide
  refine ⟨_, run, counter, active, ?_⟩
  intro balanced
  obtain ⟨slab, hslab, wrapped⟩ := Option.map_eq_some_iff.mp counter
  have allocated := (balanced 0 slab hslab).1
  rw [wrapped, active] at allocated
  cases allocated

end LearnC.SlabPool.Cxx
