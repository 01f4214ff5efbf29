import LearnC.MemPool.Sections

/-! Where the blocks are. Each critical section moves one block from one place to
another and leaves the other blocks as they are, up to their links. -/

namespace LearnC.MemPool

/-- A block's place: given back to the system, on the active list, on the free
list of a slab, or held by a thread between two critical sections. -/
inductive Loc (T : Type) where
  | gone
  | active
  | slab (i : Nat)
  | held (t : T)

/-- The block sizes that `mem_pool_init` sets up. -/
def classSizes : List Nat := [8, 16, 32, 64, 128, 256, 512, 1024, 2048, 4096, 8192]

theorem classSizes_sorted : classSizes.Pairwise (· < ·) := by decide

theorem eight_le_roundUp (n : Nat) : 8 ≤ roundUp classSizes n := by
  cases h : classOf classSizes n with
  | none =>
    have := classOf_eq_none.mp h 8 (by decide)
    rw [roundUp_of_none h]
    omega
  | some i =>
    have hi := classOf_lt h
    have all : ∀ x ∈ classSizes, 8 ≤ x := by decide
    rw [roundUp_of_some h hi]
    exact all _ (List.getElem_mem hi)

namespace Pool

/-- All of a block but its link. -/
def view (s : Pool) (a : Addr) : MemBlk × Option Buffer :=
  ({ s.hdr a with next := none }, s.mem.lookup a)

end Pool

/-- Only block `a` may differ in more than its link; the switches stand. -/
structure Frame (s s' : Pool) (a : Addr) : Prop where
  view : ∀ b, b ≠ a → s'.view b = s.view b
  debug : s'.debugMode = s.debugMode
  protect : s'.protectMode = s.protectMode

/-- A block with a written header: the header names the block, the size is a
class size or above them all, and it fits the buffer. -/
structure Made (s : Pool) (a : Addr) : Prop where
  self : (s.hdr a).realPtr = a
  rounded : roundUp classSizes (s.hdr a).size = (s.hdr a).size
  room : s.mem.Inside a 0 (sizeofMemBlk + (s.hdr a).size)

/-- Every live block is in the place that `loc` gives, and the two kinds of list
hold exactly the blocks placed on them. -/
structure Layout {T : Type} (s : Pool) (loc : Addr → Loc T) : Prop where
  sizes : s.blockSizes = classSizes
  active : Holds s.next s.activeList fun a => loc a = .active
  slab : ∀ i, Holds s.next (s.slabs i).freeList fun a => loc a = .slab i
  live : ∀ a, a ∈ s.mem ↔ loc a ≠ .gone
  header : ∀ a, loc a ≠ .gone → s.mem.Inside a 0 sizeofMemBlk
  inUse : ∀ a, loc a = .active → Made s a ∧ (s.hdr a).freed = false
  idle : ∀ a i, loc a = .slab i → Made s a ∧ (s.hdr a).freed = true ∧
    classOf classSizes (s.hdr a).size = some i

section
variable {T : Type} {s s' : Pool} {loc : Addr → Loc T} {v place : Loc T} {a b : Addr} {i n : Nat}
  {t : T}

theorem length_lt_fuel {xs : List Addr} (nodup : xs.Nodup) (live : ∀ a ∈ xs, a ∈ s.mem) :
    xs.length < s.fuel :=
  Nat.lt_succ_of_le (length_le_keys nodup live)

theorem Frame.trans {s'' : Pool} (f : Frame s s' a) (g : Frame s' s'' a) : Frame s s'' a :=
  ⟨fun b hb => (g.view b hb).trans (f.view b hb), g.debug.trans f.debug,
    g.protect.trans f.protect⟩

/-- What two blocks with one view have in common. -/
theorem view_fields (h : s'.view a = s.view a) :
    (s'.hdr a).size = (s.hdr a).size ∧ (s'.hdr a).freed = (s.hdr a).freed ∧
    (s'.hdr a).realPtr = (s.hdr a).realPtr ∧ (s'.hdr a).guardHead = (s.hdr a).guardHead ∧
    s'.mem.lookup a = s.mem.lookup a := by
  have hdr : ({ s'.hdr a with next := none } : MemBlk) = { s.hdr a with next := none } :=
    congrArg Prod.fst h
  simp only [MemBlk.mk.injEq] at hdr
  exact ⟨hdr.1, hdr.2.1, hdr.2.2.2.1, hdr.2.2.2.2.2.2.2, congrArg Prod.snd h⟩

theorem inside_of_lookup {len off : Nat} (h : s'.mem.lookup a = s.mem.lookup a) :
    s'.mem.Inside a off len ↔ s.mem.Inside a off len := by
  unfold Memory.Inside Memory.extent
  rw [h]

theorem Made.of_view (m : Made s a) (same : s'.view a = s.view a) : Made s' a := by
  obtain ⟨size, _, self, _, mem⟩ := view_fields same
  refine ⟨self.trans m.self, by rw [size]; exact m.rounded, ?_⟩
  rw [size, inside_of_lookup mem]
  exact m.room

theorem Made.header (m : Made s a) : s.mem.Inside a 0 sizeofMemBlk := by
  obtain ⟨size, h, le⟩ := m.room
  exact ⟨size, h, by omega⟩

theorem update_place : Function.update loc a v b = place ↔
    (b = a ∧ v = place) ∨ (b ≠ a ∧ loc b = place) := by
  by_cases h : b = a
  · subst h
    simp
  · simp [h]

/-- A list that the moved block neither leaves nor joins. -/
theorem holds_off {next next' : Addr → Option Addr} {head : Option Addr}
    (h : Holds next head fun b => loc b = place)
    (same : ∀ b, loc b = place → b ≠ a → next' b = next b) (off : loc a ≠ place)
    (on : v ≠ place) : Holds next' head fun b => Function.update loc a v b = place := by
  refine h.congr (fun b hb => same b hb ?_) ?_
  · rintro rfl
    exact off hb
  · intro b
    rw [update_place]
    constructor
    · intro hb
      exact Or.inr ⟨fun e => off (e ▸ hb), hb⟩
    · rintro (⟨_, e⟩ | ⟨_, hb⟩)
      · exact absurd e on
      · exact hb

/-- Moving one block: the lists must follow, and the block must suit its new place. -/
theorem Layout.move (L : Layout s loc) (f : Frame s s' a) (sizes : s'.blockSizes = s.blockSizes)
    (active : Holds s'.next s'.activeList fun b => Function.update loc a v b = .active)
    (slab : ∀ i, Holds s'.next (s'.slabs i).freeList fun b => Function.update loc a v b = .slab i)
    (live : a ∈ s'.mem ↔ v ≠ .gone) (header : v ≠ .gone → s'.mem.Inside a 0 sizeofMemBlk)
    (inUse : v = .active → Made s' a ∧ (s'.hdr a).freed = false)
    (idle : ∀ i, v = .slab i → Made s' a ∧ (s'.hdr a).freed = true ∧
      classOf classSizes (s'.hdr a).size = some i) :
    Layout s' (Function.update loc a v) := by
  have other {b : Addr} (hb : b ≠ a) := view_fields (f.view b hb)
  refine ⟨sizes.trans L.sizes, active, slab, fun b => ?_, fun b => ?_, fun b => ?_, fun b i => ?_⟩
  all_goals by_cases hb : b = a
  · subst hb
    simpa using live
  · have := L.live b
    rw [Finmap.mem_iff] at this ⊢
    simpa [hb, (other hb).2.2.2.2] using this
  · subst hb
    simpa using header
  · simpa [hb, inside_of_lookup (other hb).2.2.2.2] using L.header b
  · subst hb
    simpa using inUse
  · intro h
    obtain ⟨made, freed⟩ := L.inUse b (by simpa [hb] using h)
    exact ⟨made.of_view (f.view b hb), (other hb).2.1.trans freed⟩
  · subst hb
    simpa using idle i
  · intro h
    obtain ⟨made, freed, cls⟩ := L.idle b i (by simpa [hb] using h)
    exact ⟨made.of_view (f.view b hb), (other hb).2.1.trans freed, by rw [(other hb).1]; exact cls⟩

@[simp] theorem setFreeList_freeList (head : Option Addr) (j : Nat) :
    ((s.setFreeList i head).slabs j).freeList = if j = i then head else (s.slabs j).freeList := by
  by_cases h : j = i
  · subst h
    simp [Pool.setFreeList]
  · simp [Pool.setFreeList, h]

@[simp] theorem setFreeList_blockSizes (head : Option Addr) :
    (s.setFreeList i head).blockSizes = s.blockSizes := by
  simp only [Pool.blockSizes, Pool.setFreeList]
  apply List.map_congr_left
  intro j _
  by_cases h : j = i
  · subst h
    simp
  · simp [h]

theorem blk_ok (h : s.mem.Inside a 0 sizeofMemBlk) : s.blk a = .ok (s.hdr a) := if_pos h

theorem setBlk_ok (h : s.mem.Inside a 0 sizeofMemBlk) (b : MemBlk) :
    s.setBlk a b = .ok { s with hdr := Function.update s.hdr a b } := if_pos h

/-! ## The sections -/

/-- The slab's lock in `mem_pool_alloc_label`: the head of the list becomes the
thread's. -/
theorem slabPop_spec (L : Layout s loc) (i : Nat) (t : T) :
    ((s.slabs i).freeList = none ∧ s.slabPop i = .ok (s, none)) ∨
    ∃ a s', loc a = .slab i ∧ s.slabPop i = .ok (s', some a) ∧ Frame s s' a ∧
      s'.hdr = s.hdr ∧ s'.mem = s.mem ∧ Layout s' (Function.update loc a (.held t)) := by
  cases head : (s.slabs i).freeList with
  | none => exact Or.inl ⟨rfl, by simp [Pool.slabPop, head]⟩
  | some a =>
    have list := L.slab i
    rw [head] at list
    have ha : loc a = .slab i := Holds.head_mem (P := fun a => loc a = .slab i) list
    have header := L.header a (by simp [ha])
    refine Or.inr ⟨a, s.setFreeList i (s.next a), ha, ?_, ⟨fun _ _ => rfl, rfl, rfl⟩, rfl, rfl, ?_⟩
    · simp [Pool.slabPop, head, blk_ok header, bind, Except.bind, Pool.next]
    · refine L.move ⟨fun _ _ => rfl, rfl, rfl⟩ (by simp) ?_ ?_ ?_ ?_ ?_ ?_
      · exact holds_off L.active (fun _ _ _ => rfl) (by simp [ha]) (by simp)
      · intro j
        by_cases hj : j = i
        · subst hj
          simp only [setFreeList_freeList, ↓reduceIte]
          exact list.pop (fun _ _ _ => rfl) fun b => by simp [update_place]
        · simp only [setFreeList_freeList, hj, ↓reduceIte]
          exact holds_off (L.slab j) (fun _ _ _ => rfl) (by simpa [ha] using Ne.symm hj) (by simp)
      · exact ⟨fun _ => by simp, fun _ => (L.live a).mpr (by simp [ha])⟩
      · exact fun _ => header
      · simp
      · simp

/-- `malloc`: the new buffer is the thread's. -/
theorem malloc_spec (L : Layout s loc) {env : Env} {total : Nat} (raw : env.raw = some a)
    (new : a ∉ s.mem) (room : sizeofMemBlk ≤ total) (t : T) :
    ∃ s', s.malloc env total = (s', some a) ∧ Frame s s' a ∧ s'.mem.extent a = some total ∧
      Layout s' (Function.update loc a (.held t)) := by
  have gone : loc a = .gone := by
    by_contra h
    exact new ((L.live a).mpr h)
  let s' : Pool := { s with mem := s.mem.insert a ⟨total, env.junk⟩
                            hdr := Function.update s.hdr a env.junkHdr }
  have frame : Frame s s' a :=
    ⟨fun b hb => by simp [s', Pool.view, hb, Finmap.lookup_insert_of_ne], rfl, rfl⟩
  have same (b : Addr) (hb : b ≠ a) : s'.next b = s.next b := by simp [s', Pool.next, hb]
  have extent : s'.mem.extent a = some total := by simp [s']
  refine ⟨s', by rw [Pool.malloc, raw], frame, extent, L.move frame rfl ?_ ?_ ?_ ?_ ?_ ?_⟩
  · exact holds_off L.active (fun b _ => same b) (by simp [gone]) (by simp)
  · intro i
    exact holds_off (L.slab i) (fun b _ => same b) (by simp [gone]) (by simp)
  · simp [s', Finmap.mem_insert]
  · exact fun _ => ⟨total, extent, by omega⟩
  · simp
  · simp

/-- Writing a held block's header, and storing bytes in its buffer, disturbs no list. -/
theorem Layout.rewrite (L : Layout s loc) (ha : loc a = .held t) (f : Frame s s' a)
    (slabs : s'.slabs = s.slabs) (cnt : s'.slabClsCnt = s.slabClsCnt)
    (head : s'.activeList = s.activeList) (next : ∀ b, b ≠ a → s'.next b = s.next b)
    (mem : s'.mem.extent a = s.mem.extent a) : Layout s' loc := by
  have same : Function.update loc a (.held t) = loc := by
    rw [← ha]
    exact Function.update_eq_self a loc
  rw [← same]
  apply L.move f (by rw [Pool.blockSizes, slabs, cnt, Pool.blockSizes])
  · rw [head]
    exact holds_off L.active (fun b _ => next b) (by simp [ha]) (by simp)
  · intro i
    rw [slabs]
    exact holds_off (L.slab i) (fun b _ => next b) (by simp [ha]) (by simp)
  · rw [Memory.mem_iff_extent, mem, ← Memory.mem_iff_extent, L.live]
    simp [ha]
  · intro _
    unfold Memory.Inside
    rw [mem]
    exact L.header a (by simp [ha])
  · simp
  · simp

theorem tailOffset_add (size : Nat) : Pool.tailOffset size + sizeofGuard = sizeofMemBlk + size := by
  simp only [Pool.tailOffset, sizeofGuard, sizeofMemBlk]
  omega

/-- Writing the header and the tail guard of a held block whose buffer is large enough. -/
theorem initBlk_spec (L : Layout s loc) (ha : loc a = .held t) {actual : Nat}
    (room : s.mem.Inside a 0 (sizeofMemBlk + actual)) (label : Option (List UInt8)) (env : Env) :
    ∃ s', s.initBlk a actual label env = .ok s' ∧ Frame s s' a ∧ Layout s' loc ∧
      (s'.hdr a).size = actual ∧ (s'.hdr a).realPtr = a ∧ (s'.hdr a).freed = false ∧
      (s'.hdr a).guardHead = (if s.protectMode then protectMagic else 0) ∧
      s'.mem.extent a = s.mem.extent a ∧
      (s.protectMode = true → ∀ k, k < sizeofGuard →
        s'.mem.byte a (Pool.tailOffset actual + k) = tailMagic[k]?) := by
  have header := L.header a (by simp [ha])
  let b : MemBlk := { s.hdr a with
    size := actual, realPtr := a, freed := false, allocTime := env.now
    guardHead := if s.protectMode then protectMagic else 0
    label := (label.getD Pool.unknownLabel).take (maxLabelLen - 1)
    callstack := if s.debugMode then env.trace else [] }
  let s₁ : Pool := { s with hdr := Function.update s.hdr a b }
  have frame : Frame s s₁ a := ⟨fun c hc => by simp [s₁, Pool.view, hc], rfl, rfl⟩
  have next (c : Addr) (hc : c ≠ a) : s₁.next c = s.next c := by simp [s₁, Pool.next, hc]
  have ok : s.initBlk a actual label env =
      if s.protectMode then s₁.storeTail a actual else .ok s₁ := by
    simp [Pool.initBlk, blk_ok header, setBlk_ok header, bind, Except.bind, s₁, b]
  cases hp : s.protectMode with
  | false =>
    refine ⟨s₁, by simp [ok, hp], frame, L.rewrite ha frame rfl rfl rfl next rfl, ?_⟩
    simp [s₁, b, hp]
  | true =>
    have inside : s₁.mem.Inside a (Pool.tailOffset actual) tailMagic.length := by
      obtain ⟨size, he, hle⟩ := room
      exact ⟨size, he, by rw [show tailMagic.length = sizeofGuard from rfl, tailOffset_add]; omega⟩
    obtain ⟨mem, store⟩ := Option.isSome_iff_exists.mp (Memory.store_isSome.mpr inside)
    have frame' : Frame s { s₁ with mem := mem } a := by
      refine frame.trans ⟨?_, rfl, rfl⟩
      intro c hc
      simp [Pool.view, Memory.store_lookup_of_ne store hc]
    have extent : mem.extent a = s.mem.extent a := Memory.store_extent store a
    refine ⟨{ s₁ with mem := mem }, by simp [ok, hp, Pool.storeTail, store], frame',
      L.rewrite ha frame' rfl rfl rfl next extent, ?_⟩
    refine ⟨by simp [s₁, b], by simp [s₁, b], by simp [s₁, b], by simp [s₁, b, hp], extent, ?_⟩
    exact fun _ k hk => Memory.store_byte store hk

/-- The global lock in `mem_pool_alloc_label`. -/
theorem activePush_spec (L : Layout s loc) (ha : loc a = .held t) (made : Made s a)
    (fresh : (s.hdr a).freed = false) :
    ∃ s', s.activePush a = .ok s' ∧ (∀ b, s'.view b = s.view b) ∧ Frame s s' a ∧
      Layout s' (Function.update loc a .active) := by
  let s' : Pool := { s with hdr := Function.update s.hdr a { s.hdr a with next := s.activeList }
                            activeList := some a }
  have views (b : Addr) : s'.view b = s.view b := by
    by_cases hb : b = a
    · subst hb
      simp [s', Pool.view]
    · simp [s', Pool.view, hb]
  have frame : Frame s s' a := ⟨fun b _ => views b, rfl, rfl⟩
  have same (b : Addr) (hb : b ≠ a) : s'.next b = s.next b := by simp [s', Pool.next, hb]
  have ok : s.activePush a = .ok s' := by
    simp [Pool.activePush, blk_ok made.header, setBlk_ok made.header, bind, Except.bind, s']
  have off {b : Addr} (hb : loc b = .active) : b ≠ a := by
    rintro rfl
    simp [ha] at hb
  refine ⟨s', ok, views, frame, L.move frame rfl ?_ ?_ ?_ ?_ ?_ ?_⟩
  · apply L.active.push (by simp [s', Pool.next]) (fun b hb => same b (off hb))
    intro b
    rw [update_place]
    constructor
    · rintro (⟨hb, _⟩ | ⟨_, hb⟩)
      · exact Or.inl hb
      · exact Or.inr hb
    · rintro (hb | hb)
      · exact Or.inl ⟨hb, rfl⟩
      · exact Or.inr ⟨off hb, hb⟩
  · intro i
    exact holds_off (L.slab i) (fun b _ => same b) (by simp [ha]) (by simp)
  · exact ⟨fun _ => by simp, fun _ => (L.live a).mpr (by simp [ha])⟩
  · exact fun _ => made.header
  · exact fun _ => ⟨made.of_view (views a), (view_fields (views a)).2.1.trans fresh⟩
  · simp

end

end LearnC.MemPool
