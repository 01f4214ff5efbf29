import LearnC.SlabPool.Cxx

/-! Where the blocks of the C++ pool are, and what each call moves. -/

namespace LearnC.SlabPool.Cxx

/-- The table has each block in use under its pointer, and each slab's list the
blocks that are its own. -/
structure Layout (s : MemoryPool) (place : Addr → Place) : Prop where
  placed : Placed s.mem s.span place
  sizes : s.slabs.map Slab.chunkSize = slabSizes
  active : ∀ ptr b, s.activeBlocks.lookup ptr = some b ↔
    place b = .active ∧ (s.span b).map Span.userPtr = some ptr
  slab : ∀ i slab, s.slabs[i]? = some slab →
    slab.freeList.Nodup ∧ ∀ b, b ∈ slab.freeList ↔ place b = .slab i

section
variable {s s' : MemoryPool} {place : Addr → Place} {dest : Place} {b c : Addr} {v : Block}
  {u : Span} {i j size : Nat} {env : Env} {slab : Slab} {ptr : Addr}

theorem span_some (h : s.blocks.lookup b = some v) : s.span b = some v.toSpan := by
  simp [MemoryPool.span, h]

theorem Layout.block (L : Layout s place) (h : place b ≠ .gone) :
    ∃ v, s.blocks.lookup b = some v := by
  obtain ⟨_, hv⟩ := L.placed.block h
  obtain ⟨v, hv, _⟩ := Option.map_eq_some_iff.mp hv
  exact ⟨v, hv⟩

/-- Only the block at `b` changes. -/
def Same (s s' : MemoryPool) (b : Addr) : Prop :=
  ∀ c, c ≠ b → s'.blocks.lookup c = s.blocks.lookup c

theorem Same.span (same : Same s s' b) (c : Addr) (hc : c ≠ b) : s'.span c = s.span c := by
  simp [MemoryPool.span, same c hc]

theorem Layout.findSlabIndex (L : Layout s place) (size : Nat) :
    s.findSlabIndex size = classOf slabSizes size := by
  rw [MemoryPool.findSlabIndex, L.sizes]

theorem Layout.slab_exists (L : Layout s place) (cls : classOf slabSizes size = some i) :
    ∃ slab, s.slabs[i]? = some slab := by
  have length : s.slabs.length = slabSizes.length := by rw [← L.sizes, List.length_map]
  have lt := classOf_lt cls
  exact ⟨_, List.getElem?_eq_getElem (length ▸ lt)⟩

theorem modify_sizes {l : List Slab} {f : Slab → Slab}
    (keep : ∀ slab, (f slab).chunkSize = slab.chunkSize) :
    (l.modify i f).map Slab.chunkSize = l.map Slab.chunkSize := by
  apply List.ext_getElem?
  intro j
  by_cases hj : i = j
  · simp [hj, keep, Function.comp_def]
  · simp [hj]

theorem Layout.slab_off (L : Layout s place) (h : s.slabs[j]? = some slab)
    (off : place b ≠ .slab j) (on : dest ≠ .slab j) :
    slab.freeList.Nodup ∧ ∀ c, c ∈ slab.freeList ↔ Function.update place b dest c = .slab j := by
  obtain ⟨nodup, mem⟩ := L.slab j slab h
  refine ⟨nodup, ?_⟩
  intro c
  rw [mem]
  by_cases hc : c = b
  · subst hc
    simp [off, on]
  · simp [hc]

theorem Layout.slab_modify (L : Layout s place) {f : Slab → Slab}
    (off : ∀ j, j ≠ i → place b ≠ .slab j ∧ dest ≠ .slab j)
    (changed : ∀ slab, s.slabs[i]? = some slab → (f slab).freeList.Nodup ∧
      ∀ c, c ∈ (f slab).freeList ↔ Function.update place b dest c = .slab i) :
    ∀ j slab, (s.slabs.modify i f)[j]? = some slab → slab.freeList.Nodup ∧
      ∀ c, c ∈ slab.freeList ↔ Function.update place b dest c = .slab j := by
  intro j slab h
  rw [List.getElem?_modify] at h
  obtain ⟨old, hold, rfl⟩ := Option.map_eq_some_iff.mp h
  by_cases hj : i = j
  · subst hj
    simpa using changed old hold
  · obtain ⟨leave, join⟩ := off j (Ne.symm hj)
    simpa [hj] using L.slab_off hold leave join

theorem Layout.slab_pop (L : Layout s place) (h : s.slabs[i]? = some slab) {rest : List Addr}
    (list : slab.freeList = b :: rest) {f : Slab → Slab} (pops : (f slab).freeList = rest) :
    place b = .slab i ∧ ∀ j slab, (s.slabs.modify i f)[j]? = some slab → slab.freeList.Nodup ∧
      ∀ c, c ∈ slab.freeList ↔ Function.update place b .active c = .slab j := by
  obtain ⟨nodup, mem⟩ := L.slab i slab h
  have hb : place b = .slab i := (mem b).mp (by simp [list])
  refine ⟨hb, L.slab_modify ?_ ?_⟩
  · intro j hj
    exact ⟨by simpa [hb] using Ne.symm hj, Place.noConfusion⟩
  · intro old hold
    cases h.symm.trans hold
    rw [list] at nodup mem
    obtain ⟨notMem, nodup⟩ := List.nodup_cons.mp nodup
    rw [pops]
    refine ⟨nodup, ?_⟩
    intro c
    by_cases hc : c = b
    · subst hc
      simpa using notMem
    · simpa [hc] using mem c

theorem Layout.slab_push (L : Layout s place) (hb : place b = .active) {f : Slab → Slab}
    (pushes : ∀ slab, (f slab).freeList = slab.freeList ++ [b]) :
    ∀ j slab, (s.slabs.modify i f)[j]? = some slab → slab.freeList.Nodup ∧
      ∀ c, c ∈ slab.freeList ↔ Function.update place b (.slab i) c = .slab j := by
  apply L.slab_modify
  · intro j hj
    exact ⟨by simp [hb], by simpa using Ne.symm hj⟩
  · intro slab hslab
    obtain ⟨nodup, mem⟩ := L.slab i slab hslab
    have off : b ∉ slab.freeList := by simp [mem, hb]
    rw [pushes]
    constructor
    · apply List.Nodup.append nodup (List.nodup_singleton b)
      intro c hc hcb
      cases List.mem_singleton.mp hcb
      exact off hc
    · intro c
      by_cases hc : c = b
      · subst hc
        simp
      · simp [hc, mem]

theorem Layout.active_insert (L : Layout s place) {m : Memory} {span : Addr → Option Span}
    (P : Placed m span (Function.update place b .active))
    (other : ∀ c, c ≠ b → span c = s.span c) (off : place b ≠ .active) (hv : span b = some u)
    (ptr : Addr) :
    (s.activeBlocks.insert u.userPtr b).lookup ptr = some c ↔
      Function.update place b .active c = .active ∧ (span c).map Span.userPtr = some ptr := by
  by_cases hp : ptr = u.userPtr
  · subst hp
    rw [Finmap.lookup_insert, Option.some.injEq]
    constructor
    · rintro rfl
      exact ⟨by simp, by simp [hv]⟩
    · rintro ⟨_, user⟩
      obtain ⟨w, hw, user⟩ := Option.map_eq_some_iff.mp user
      exact (P.same_block hv hw user).symm
  · rw [Finmap.lookup_insert_of_ne _ hp, L.active]
    by_cases hc : c = b
    · subst hc
      simp [off, hv, Ne.symm hp]
    · simp [hc, other c hc]

theorem Layout.active_erase (L : Layout s place) {span : Addr → Option Span}
    (other : ∀ c, c ≠ b → span c = s.span c) (off : dest ≠ .active) (hv : s.span b = some u)
    (ptr : Addr) :
    (s.activeBlocks.erase u.userPtr).lookup ptr = some c ↔
      Function.update place b dest c = .active ∧ (span c).map Span.userPtr = some ptr := by
  by_cases hc : c = b
  · subst hc
    simp only [Function.update_self, off, false_and, iff_false]
    intro found
    by_cases hp : ptr = u.userPtr
    · subst hp
      rw [Finmap.lookup_erase] at found
      cases found
    · rw [Finmap.lookup_erase_ne hp, L.active, hv] at found
      exact hp (Option.some.inj found.2).symm
  · by_cases hp : ptr = u.userPtr
    · subst hp
      rw [Finmap.lookup_erase]
      simp only [ne_eq, hc, not_false_eq_true, Function.update_of_ne, other c hc, reduceCtorEq,
        false_iff, not_and]
      intro _ user
      obtain ⟨w, hw, user⟩ := Option.map_eq_some_iff.mp user
      exact hc (L.placed.same_block hv hw user)
    · rw [Finmap.lookup_erase_ne hp, L.active]
      simp [hc, other c hc]

theorem Layout.store (L : Layout s place) {mem : Memory}
    (extent : ∀ a, mem.extent a = s.mem.extent a) : Layout { s with mem := mem } place where
  placed := L.placed.store extent
  sizes := L.sizes
  active := L.active
  slab := L.slab

/-! ## Allocation -/

/-- The block at the front of the list that serves a request. -/
def MemoryPool.serving (s : MemoryPool) (size : Nat) : Option Addr :=
  (s.findSlabIndex size).bind fun i => s.slabs[i]?.bind fun slab => slab.freeList.head?

theorem take_create (idle : s.serving size = none)
    (take : s.take size env = some (s', b)) : ∃ idx, s.create idx size env = some (s', b) := by
  unfold MemoryPool.take at take
  split at take
  · next i find =>
    obtain ⟨slab, here, take⟩ := Option.bind_eq_some_iff.mp take
    split at take
    · next list => simp [MemoryPool.serving, find, here, list] at idle
    · exact ⟨_, take⟩
  · exact ⟨_, take⟩

/-- A new block has its buffer's address, and the buffer the bytes that were asked for. -/
theorem create_made {idx : Option Nat}
    (create : s.create idx size env = some (s', b)) :
    env.blk = some b ∧ ∃ a, env.raw = some a ∧
      s'.mem = s.mem.insert a ⟨totalSize size, env.junk⟩ ∧
      s'.blocks.lookup b = some ⟨⟨a, 0, 0⟩, []⟩ := by
  obtain ⟨blk, made, create⟩ := Option.bind_eq_some_iff.mp create
  obtain ⟨a, raw, create⟩ := Option.bind_eq_some_iff.mp create
  cases idx with
  | none =>
    cases create
    exact ⟨made, a, raw, rfl, Finmap.lookup_insert _⟩
  | some i =>
    cases create
    exact ⟨made, a, raw, rfl, Finmap.lookup_insert _⟩

theorem Layout.serving_fits (L : Layout s place) (front : s.serving size = some b) :
    size + guardSize * 2 < 2 ^ 64 := by
  obtain ⟨i, find, _⟩ := Option.bind_eq_some_iff.mp front
  exact fits_of_class ((L.findSlabIndex size).symm.trans find)

/-- A call that returns without a waiting block has made one, in a buffer of its full size. -/
theorem allocate_made (idle : s.serving size = none) (ret : s.allocate size env = some (s', ptr)) :
    (∃ b, env.blk = some b) ∧ (∃ a, env.raw = some a) ∧ size + guardSize * 2 < 2 ^ 64 := by
  obtain ⟨⟨s₁, b⟩, take, ret⟩ := Option.bind_eq_some_iff.mp ret
  obtain ⟨v, hv, ret⟩ := Option.bind_eq_some_iff.mp ret
  obtain ⟨mem, fill, _⟩ := Option.bind_eq_some_iff.mp ret
  obtain ⟨idx, create⟩ := take_create idle take
  obtain ⟨blk, a, raw, made, block⟩ := create_made create
  cases hv.symm.trans block
  dsimp only at fill
  rw [made] at fill
  exact ⟨⟨b, blk⟩, ⟨a, raw⟩, fits_of_fill fill⟩

theorem Layout.alloc_fits (L : Layout s place) (ret : s.allocate size env = some (s', ptr)) :
    size + guardSize * 2 < 2 ^ 64 := by
  cases front : s.serving size with
  | none => exact (allocate_made front ret).2.2
  | some b => exact L.serving_fits front

/-- A block found for a request is given its guards, if its buffer has room for them. -/
theorem allocate_eq {s₁ : MemoryPool} (take : s.take size env = some (s₁, b))
    (hv : s₁.blocks.lookup b = some v) :
    s.allocate size env = (fillGuards s₁.mem v.realPtr size).map fun mem =>
      ({ s₁ with
        mem := mem
        blocks := s₁.blocks.insert b
          ⟨⟨v.realPtr, v.realPtr + guardSize, size⟩, env.trace.take maxBacktrace⟩
        activeBlocks := s₁.activeBlocks.insert (v.realPtr + guardSize) b },
        v.realPtr + guardSize) := by
  simp only [MemoryPool.allocate, take, Option.bind_eq_bind, Option.bind_some, hv]
  cases fillGuards s₁.mem v.realPtr size <;> rfl

/-- A request served from a slab's list takes the first block, whatever its buffer. -/
theorem alloc_reuse (L : Layout s place) (front : s.serving size = some b) (env : Env) :
    ∃ v, s.blocks.lookup b = some v ∧ place b ≠ .active ∧
      (¬ s.mem.Inside v.realPtr 0 (size + guardSize * 2) → s.allocate size env = none) ∧
      (s.mem.Inside v.realPtr 0 (size + guardSize * 2) →
        ∃ s' u, s.allocate size env = some (s', u.userPtr) ∧ u.size = size ∧ Same s s' b ∧
          s'.span b = some u ∧ Layout s' (Function.update place b .active)) := by
  obtain ⟨i, find, front⟩ := Option.bind_eq_some_iff.mp front
  obtain ⟨slab, hslab, front⟩ := Option.bind_eq_some_iff.mp front
  obtain ⟨rest, list⟩ := List.head?_eq_some_iff.mp front
  let pop (slab : Slab) : Slab :=
    { slab with freeList := rest, allocatedBlocks := slab.allocatedBlocks + 1 }
  obtain ⟨hb, lists⟩ := L.slab_pop hslab list (f := pop) rfl
  obtain ⟨v, hv⟩ := L.block (b := b) (by simp [hb])
  let s₁ : MemoryPool := { s with slabs := s.slabs.modify i pop }
  have take : s.take size env = some (s₁, b) := by
    simp [MemoryPool.take, find, hslab, list, s₁, pop]
  have eq := allocate_eq take (v := v) hv
  rw [show s₁.mem = s.mem from rfl] at eq
  refine ⟨v, hv, by simp [hb], ?_, ?_⟩
  · intro small
    have none : fillGuards s.mem v.realPtr size = none := by
      rw [← Option.not_isSome_iff_eq_none, fillGuards_isSome]
      exact small
    rw [eq, none]
    rfl
  · intro large
    obtain ⟨mem, fill⟩ := Option.isSome_iff_exists.mp (fillGuards_isSome.mpr large)
    rw [fill, Option.map_some] at eq
    let u : Span := ⟨v.realPtr, v.realPtr + guardSize, size⟩
    let s' : MemoryPool := { s₁ with
      mem := mem
      blocks := s₁.blocks.insert b ⟨u, env.trace.take maxBacktrace⟩
      activeBlocks := s₁.activeBlocks.insert u.userPtr b }
    have same : Same s s' b := fun c hc => Finmap.lookup_insert_of_ne _ hc
    have here : s'.span b = some u := by simp [MemoryPool.span, s']
    have placed : Placed s'.mem s'.span (Function.update place b .active) := by
      apply L.placed.keep same.span (fillGuards_extent fill) (span_some hv) here rfl
      · exact Made.of_fill fill
      · exact Place.noConfusion
      · exact fun _ => Place.noConfusion
    refine ⟨s', u, eq, rfl, same, here, placed, ?_, ?_, lists⟩
    · exact (modify_sizes (f := pop) fun _ => rfl).trans L.sizes
    · intro ptr c
      exact L.active_insert placed same.span (by simp [hb]) here ptr

theorem alloc_create (L : Layout s place) (fit : size + guardSize * 2 < 2 ^ 64)
    (idle : s.serving size = none) (supply : Supplies cxx s env) :
    ∃ s' b u, s.allocate size env = some (s', u.userPtr) ∧ place b ≠ .active ∧ u.size = size ∧
      Same s s' b ∧ s'.span b = some u ∧ Layout s' (Function.update place b .active) := by
  obtain ⟨⟨b, blk, newBlk⟩, a, raw, newRaw⟩ := supply
  replace newBlk : b ∉ s.blocks := newBlk
  have hb : place b = .gone := by
    by_contra h
    exact newBlk (Finmap.mem_iff.mpr (L.block h))
  obtain ⟨mem, fill, made, extent⟩ := fillGuards_new (m := s.mem) fit a env.junk
  let m : Memory := s.mem.insert a ⟨totalSize size, env.junk⟩
  let v : Block := ⟨⟨a, 0, 0⟩, []⟩
  -- The counters of the slab change, its list does not.
  obtain ⟨slabs, take, sizes, lists⟩ : ∃ slabs,
      s.take size env =
        some ({ s with mem := m, blocks := s.blocks.insert b v, slabs := slabs }, b) ∧
      slabs.map Slab.chunkSize = slabSizes ∧
      ∀ j slab, slabs[j]? = some slab → slab.freeList.Nodup ∧
        ∀ c, c ∈ slab.freeList ↔ Function.update place b .active c = .slab j := by
    cases find : s.findSlabIndex size with
    | none =>
      refine ⟨s.slabs, ?_, L.sizes, ?_⟩
      · simp [MemoryPool.take, find, MemoryPool.create, blk, raw, m, v]
      · intro j slab h
        exact L.slab_off h (by simp [hb]) Place.noConfusion
    | some i =>
      obtain ⟨slab, hslab⟩ := L.slab_exists ((L.findSlabIndex size).symm.trans find)
      have empty : slab.freeList = [] := by simpa [MemoryPool.serving, find, hslab] using idle
      let count (slab : Slab) : Slab := { slab with totalBlocks := slab.totalBlocks + 1 }
      refine ⟨s.slabs.modify i count, ?_, ?_, ?_⟩
      · simp [MemoryPool.take, find, hslab, empty, MemoryPool.create, blk, raw, m, v, count]
      · exact (modify_sizes (f := count) fun _ => rfl).trans L.sizes
      · apply L.slab_modify
        · intro j _
          exact ⟨by simp [hb], Place.noConfusion⟩
        · intro old hold
          have kept : old.freeList.Nodup ∧
              ∀ c, c ∈ old.freeList ↔ Function.update place b .active c = .slab i :=
            L.slab_off hold (by simp [hb]) Place.noConfusion
          exact kept
  have eq := allocate_eq take (v := v) (Finmap.lookup_insert _)
  rw [show fillGuards m v.realPtr size = some mem from fill, Option.map_some] at eq
  let u : Span := ⟨a, a + guardSize, size⟩
  let s' : MemoryPool := { s with
    mem := mem
    slabs := slabs
    blocks := (s.blocks.insert b v).insert b ⟨u, env.trace.take maxBacktrace⟩
    activeBlocks := s.activeBlocks.insert u.userPtr b }
  have same : Same s s' b := by
    intro c hc
    exact (Finmap.lookup_insert_of_ne _ hc).trans (Finmap.lookup_insert_of_ne _ hc)
  have here : s'.span b = some u := by simp [MemoryPool.span, s']
  have placed : Placed s'.mem s'.span (Function.update place b .active) :=
    L.placed.malloc same.span extent newRaw hb here rfl made
  refine ⟨s', b, u, eq, by simp [hb], rfl, same, here, placed, sizes, ?_, lists⟩
  intro ptr c
  exact L.active_insert placed same.span (by simp [hb]) here ptr

/-! ## Freeing -/

theorem deallocate_rejected {ptr : Addr} (absent : s.activeBlocks.lookup ptr = none) :
    s.deallocate (some ptr) = some (s, some .invalid) := by
  simp [MemoryPool.deallocate, absent]

/-- The pool once a block's key is erased. -/
def MemoryPool.removeKey (s : MemoryPool) (ptr : Addr) : MemoryPool :=
  { s with activeBlocks := s.activeBlocks.erase ptr }

theorem release_slab (L : Layout s place) (hb : place b = .active)
    (hv : s.blocks.lookup b = some v) (cls : classOf slabSizes v.size = some i) :
    ∃ s', (s.removeKey v.userPtr).release b v = some s' ∧ Same s s' b ∧
      Layout s' (Function.update place b (.slab i)) := by
  let push (slab : Slab) : Slab :=
    { slab with freeList := slab.freeList ++ [b], allocatedBlocks := slab.allocatedBlocks - 1 }
  let s' : MemoryPool := { s.removeKey v.userPtr with slabs := s.slabs.modify i push }
  have same : Same s s' b := fun _ _ => rfl
  have find : (s.removeKey v.userPtr).findSlabIndex v.size = some i :=
    (L.findSlabIndex v.size).trans cls
  refine ⟨s', ?_, same, ?_, ?_, ?_, L.slab_push hb (f := push) fun _ => rfl⟩
  · rw [MemoryPool.release, find]
    rfl
  · apply L.placed.keep same.span (fun _ => rfl) (span_some hv) (span_some (v := v) hv) rfl
    · exact L.placed.made b _ (span_some hv)
    · exact Place.noConfusion
    · rintro j ⟨⟩
      exact cls
  · exact (modify_sizes (f := push) fun _ => rfl).trans L.sizes
  · intro ptr c
    exact L.active_erase same.span Place.noConfusion (span_some hv) ptr

theorem release_system (L : Layout s place) (hb : place b = .active)
    (hv : s.blocks.lookup b = some v) (cls : classOf slabSizes v.size = none) :
    ∃ s', (s.removeKey v.userPtr).release b v = some s' ∧ Same s s' b ∧
      Layout s' (Function.update place b .gone) := by
  let s' : MemoryPool := { s.removeKey v.userPtr with
    mem := s.mem.erase v.realPtr
    blocks := s.blocks.erase b }
  have same : Same s s' b := fun c hc => Finmap.lookup_erase_ne hc
  have owned : v.realPtr ∈ s.mem := L.placed.base_live (span_some hv)
  have find : (s.removeKey v.userPtr).findSlabIndex v.size = none :=
    (L.findSlabIndex v.size).trans cls
  refine ⟨s', ?_, same, ?_, L.sizes, ?_, ?_⟩
  · rw [MemoryPool.release, find]
    exact if_pos owned
  · apply L.placed.free same.span (span_some hv)
    simp [MemoryPool.span, s', Finmap.lookup_erase]
  · intro ptr c
    exact L.active_erase same.span Place.noConfusion (span_some hv) ptr
  · intro j slab hslab
    exact L.slab_off hslab (by simp [hb]) Place.noConfusion

theorem release_spec (L : Layout s place) (hb : place b = .active)
    (hv : s.blocks.lookup b = some v) :
    ∃ s', (s.removeKey v.userPtr).release b v = some s' ∧ Same s s' b ∧
      Layout s' (Function.update place b (home v.size)) := by
  cases cls : classOf slabSizes v.size with
  | some i => simpa [home, cls] using release_slab L hb hv cls
  | none => simpa [home, cls] using release_system L hb hv cls

/-- A key's block goes to its slab, or back to the system, whatever its guards say. -/
theorem deallocate_accepted (L : Layout s place) (hb : place b = .active)
    (hv : s.blocks.lookup b = some v) :
    ∃ s' intact, s.deallocate (some v.userPtr) =
        some (s', if intact then none else some .corruption) ∧
      checkGuards s.mem v.realPtr (guardSize + v.size) = some intact ∧ Same s s' b ∧
      Layout s' (Function.update place b (home v.size)) := by
  have key : s.activeBlocks.lookup v.userPtr = some b :=
    (L.active _ b).mpr ⟨hb, by simp [span_some hv]⟩
  have made := L.placed.made b _ (span_some hv)
  obtain ⟨intact, check⟩ := Option.isSome_iff_exists.mp (checkGuards_isSome made.room)
  obtain ⟨s', release, same, L'⟩ := release_spec L hb hv
  rw [MemoryPool.removeKey] at release
  refine ⟨s', intact, ?_, check, same, L'⟩
  simp [MemoryPool.deallocate, key, hv, made.tail, check, release]

/-! ## The first state -/

theorem init_layout : Layout MemoryPool.init fun _ => .gone := by
  refine ⟨placed_nothing fun _ => rfl, ?_, ?_, ?_⟩
  · simp [MemoryPool.init, Function.comp_def]
  · intro ptr b
    simp [MemoryPool.init]
  · intro i slab h
    obtain ⟨size, _, rfl⟩ := List.mem_map.mp (List.mem_of_getElem? h)
    simp

end

end LearnC.SlabPool.Cxx
