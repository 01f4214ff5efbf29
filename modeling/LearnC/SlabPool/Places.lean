import LearnC.Machine.Ownership
import LearnC.SlabPool.Calls

/-! Blocks in their places, as both pools keep them: each owns its buffer, and a
call moves one of them. -/

namespace LearnC.SlabPool

/-- The fields that both kinds of `Block` start with. -/
structure Span where
  realPtr : Addr
  userPtr : Addr
  size : Nat

/-- A block's place: freed, in use, or on the free list of a slab. -/
inductive Place where
  | gone
  | active
  | slab (i : Nat)
  deriving DecidableEq

/-- The user bytes stand between two guards inside the buffer. -/
structure Made (m : Memory) (v : Span) : Prop where
  user : v.userPtr = v.realPtr + guardSize
  room : m.Inside v.realPtr 0 (v.size + guardSize * 2)

/-- The blocks that exist own all buffers, and those on a slab's list are of its size. -/
structure Placed (m : Memory) (span : Addr → Option Span) (place : Addr → Place) : Prop where
  live : ∀ b, (span b).isSome = true ↔ place b ≠ .gone
  owns : Owns m fun b => (span b).map Span.realPtr
  made : ∀ b v, span b = some v → Made m v
  idle : ∀ b v i, place b = .slab i → span b = some v → classOf slabSizes v.size = some i

/-- The block in use at `ptr` has `n` user bytes. -/
def InUse (span : Addr → Option Span) (place : Addr → Place) (ptr : Addr) (n : Nat) : Prop :=
  ∃ b v, place b = .active ∧ span b = some v ∧ v.userPtr = ptr ∧ v.size = n

/-- Where a block of a size goes when it is freed. -/
def home (size : Nat) : Place :=
  match classOf slabSizes size with
  | some i => .slab i
  | none => .gone

section
variable {m m' : Memory} {span span' : Addr → Option Span} {place : Addr → Place} {dest : Place}
  {a b c : Addr} {u v : Span} {p n : Nat}

theorem home_ne_active (size : Nat) : home size ≠ .active := by
  unfold home
  split <;> exact Place.noConfusion

theorem Made.congr (h : Made m v) (same : m'.extent v.realPtr = m.extent v.realPtr) :
    Made m' v := by
  obtain ⟨e, extent, le⟩ := h.room
  exact ⟨h.user, e, same.trans extent, le⟩

theorem Made.tail (h : Made m v) : v.userPtr - v.realPtr + v.size = guardSize + v.size := by
  rw [h.user, Nat.add_sub_cancel_left]

theorem Made.of_fill (fill : fillGuards m a n = some m') : Made m' ⟨a, a + guardSize, n⟩ := by
  obtain ⟨e, extent, le⟩ := fillGuards_isSome.mp (Option.isSome_iff_exists.mpr ⟨m', fill⟩)
  exact ⟨rfl, e, (fillGuards_extent fill a).trans extent, le⟩

theorem fillGuards_new (fit : n + guardSize * 2 < 2 ^ 64) (a : Addr) (junk : Nat → UInt8) :
    ∃ m', fillGuards (m.insert a ⟨totalSize n, junk⟩) a n = some m' ∧
      Made m' ⟨a, a + guardSize, n⟩ ∧ ∀ c, c ≠ a → m'.extent c = m.extent c := by
  have extent : Memory.extent (m.insert a ⟨totalSize n, junk⟩) a = some (n + guardSize * 2) := by
    rw [← totalSize_eq fit]
    exact Memory.extent_insert_self
  obtain ⟨m', fill⟩ := Option.isSome_iff_exists.mp
    (fillGuards_isSome.mpr ⟨_, extent, Nat.le_of_eq (Nat.zero_add _)⟩)
  refine ⟨m', fill, Made.of_fill fill, ?_⟩
  intro c hc
  exact (fillGuards_extent fill c).trans (Memory.extent_insert_of_ne hc)

theorem Placed.block (P : Placed m span place) (h : place b ≠ .gone) : ∃ v, span b = some v :=
  Option.isSome_iff_exists.mp ((P.live b).mpr h)

theorem Placed.base_live (P : Placed m span place) (hv : span b = some v) : v.realPtr ∈ m :=
  P.owns.live b v.realPtr (by simp [hv])

theorem Placed.mem_iff {Block : Type} {desc : Addr → Option Block} {toSpan : Block → Span}
    (P : Placed m (fun b => (desc b).map toSpan) place) (a : Addr) :
    a ∈ m ↔ ∃ b v, desc b = some v ∧ (toSpan v).realPtr = a := by
  constructor
  · intro ha
    obtain ⟨b, hb⟩ := P.owns.all a ha
    obtain ⟨u, hu, rfl⟩ := Option.map_eq_some_iff.mp hb
    obtain ⟨v, hv, rfl⟩ := Option.map_eq_some_iff.mp hu
    exact ⟨b, v, hv, rfl⟩
  · rintro ⟨b, v, hv, rfl⟩
    exact P.base_live (congrArg (Option.map toSpan) hv)

theorem Placed.same_block (P : Placed m span place) (hb : span b = some v) (hc : span c = some u)
    (user : u.userPtr = v.userPtr) : c = b := by
  have mb := (P.made b v hb).user
  have mc := (P.made c u hc).user
  have real : u.realPtr = v.realPtr := Nat.add_right_cancel (mc.symm.trans (user.trans mb))
  apply P.owns.one c b v.realPtr
  · simp [hc, real]
  · simp [hb]

theorem placed_nothing (none : ∀ b, span b = none) : Placed ∅ span fun _ => .gone where
  live b := by simp [none b]
  owns := by
    constructor
    · intro b a hb
      simp [none b] at hb
    · intro b c a hb
      simp [none b] at hb
    · intro a ha
      exact absurd ha Finmap.notMem_empty
  made b v hv := by
    cases (none b).symm.trans hv
  idle _ _ _ := Place.noConfusion

/-- One block moves; the others stay as they are, and so do their buffers. -/
theorem Placed.move (P : Placed m span place) (other : ∀ c, c ≠ b → span' c = span c)
    (extent : ∀ a, a ∈ m' → a ∈ m → m'.extent a = m.extent a)
    (owns : Owns m' fun b => (span' b).map Span.realPtr)
    (live : (span' b).isSome = true ↔ dest ≠ .gone)
    (made : ∀ v, span' b = some v →
      Made m' v ∧ ∀ i, dest = .slab i → classOf slabSizes v.size = some i) :
    Placed m' span' (Function.update place b dest) where
  live c := by
    by_cases hc : c = b
    · subst hc
      simpa using live
    · simpa [hc, other c hc] using P.live c
  owns := owns
  made c v hv := by
    by_cases hc : c = b
    · subst hc
      exact (made v hv).1
    · have hv' := (other c hc).symm.trans hv
      apply (P.made c v hv').congr
      apply extent
      · exact owns.live c v.realPtr (by simp [hv])
      · exact P.base_live hv'
  idle c v i hp hv := by
    by_cases hc : c = b
    · subst hc
      exact (made v hv).2 i (by simpa using hp)
    · exact P.idle c v i (by simpa [hc] using hp) ((other c hc).symm.trans hv)

theorem Placed.keep (P : Placed m span place) (other : ∀ c, c ≠ b → span' c = span c)
    (extent : ∀ a, m'.extent a = m.extent a) (hu : span b = some u) (hv : span' b = some v)
    (real : v.realPtr = u.realPtr) (made : Made m' v) (stays : dest ≠ .gone)
    (cls : ∀ i, dest = .slab i → classOf slabSizes v.size = some i) :
    Placed m' span' (Function.update place b dest) := by
  apply P.move other (fun a _ _ => extent a)
  · apply P.owns.congr
    · intro a
      simp only [Memory.mem_iff_extent, extent]
    · intro c
      by_cases hc : c = b
      · subst hc
        simp [hu, hv, real]
      · simp [other c hc]
  · simpa [hv] using stays
  · intro w hw
    cases hv.symm.trans hw
    exact ⟨made, cls⟩

theorem Placed.malloc (P : Placed m span place) (other : ∀ c, c ≠ b → span' c = span c)
    (extent : ∀ c, c ≠ a → m'.extent c = m.extent c) (new : a ∉ m) (gone : place b = .gone)
    (hv : span' b = some v) (real : v.realPtr = a) (made : Made m' v) :
    Placed m' span' (Function.update place b .active) := by
  have none : span b = none := by
    rw [← Option.not_isSome_iff_eq_none, P.live]
    exact fun live => live gone
  apply P.move other
  · intro c _ hc
    apply extent
    rintro rfl
    exact new hc
  · apply P.owns.malloc (b := b) new
    · simp [hv, real]
    · simp [none]
    · intro c hc
      simp [other c hc]
    · intro c
      by_cases hc : c = a
      · subst hc
        obtain ⟨e, extent, _⟩ := made.room
        rw [real] at extent
        simpa using Memory.mem_iff_extent.mpr ⟨e, extent⟩
      · simp [hc, Memory.mem_iff_extent, extent c hc]
  · simp [hv]
  · intro w hw
    cases hv.symm.trans hw
    exact ⟨made, fun _ => Place.noConfusion⟩

theorem Placed.free (P : Placed m span place) (other : ∀ c, c ≠ b → span' c = span c)
    (hv : span b = some v) (none : span' b = none) :
    Placed (m.erase v.realPtr) span' (Function.update place b .gone) := by
  apply P.move other
  · intro a ha _
    exact Memory.extent_erase_of_ne (Finmap.mem_erase.mp ha).1
  · apply P.owns.free (b := b) (a := v.realPtr)
    · simp [hv]
    · simp [none]
    · intro c hc
      simp [other c hc]
    · intro c
      exact Finmap.mem_erase
  · simp [none]
  · intro w hw
    cases none.symm.trans hw

theorem Placed.store (P : Placed m span place) (extent : ∀ a, m'.extent a = m.extent a) :
    Placed m' span place where
  live := P.live
  owns := P.owns.congr (fun a => by simp only [Memory.mem_iff_extent, extent]) fun _ => rfl
  made b v hv := (P.made b v hv).congr (extent _)
  idle := P.idle

/-! ## The pointers in use -/

theorem inUse_add (P : Placed m' span' (Function.update place b .active))
    (other : ∀ c, c ≠ b → span' c = span c) (off : place b ≠ .active) (hv : span' b = some v) :
    InUse span' (Function.update place b .active) p n ↔
      (p = v.userPtr ∧ n = v.size) ∨ (p ≠ v.userPtr ∧ InUse span place p n) := by
  constructor
  · rintro ⟨c, u, hc, hu, rfl, rfl⟩
    by_cases eq : c = b
    · subst eq
      cases hv.symm.trans hu
      exact Or.inl ⟨rfl, rfl⟩
    · refine Or.inr ⟨?_, c, u, by simpa [eq] using hc, (other c eq).symm.trans hu, rfl, rfl⟩
      intro user
      exact eq (P.same_block hv hu user)
  · rintro (⟨rfl, rfl⟩ | ⟨_, c, u, hc, hu, user, size⟩)
    · exact ⟨b, v, by simp, hv, rfl, rfl⟩
    · have ne : c ≠ b := by
        rintro rfl
        exact off hc
      exact ⟨c, u, by simpa [ne] using hc, (other c ne).trans hu, user, size⟩

theorem inUse_remove (P : Placed m span place) (other : ∀ c, c ≠ b → span' c = span c)
    (off : dest ≠ .active) (hv : span b = some v) :
    InUse span' (Function.update place b dest) p n ↔ p ≠ v.userPtr ∧ InUse span place p n := by
  constructor
  · rintro ⟨c, u, hc, hu, rfl, rfl⟩
    have ne : c ≠ b := by
      rintro rfl
      rw [Function.update_self] at hc
      exact off hc
    have hu' := (other c ne).symm.trans hu
    refine ⟨?_, c, u, by simpa [ne] using hc, hu', rfl, rfl⟩
    intro user
    exact ne (P.same_block hv hu' user)
  · rintro ⟨away, c, u, hc, hu, rfl, rfl⟩
    have ne : c ≠ b := by
      rintro rfl
      cases hv.symm.trans hu
      exact away rfl
    exact ⟨c, u, by simpa [ne] using hc, (other c ne).trans hu, rfl, rfl⟩

/-- A pool whose allocations and frees each move one block keeps a ledger. -/
theorem Ledger.of_moves {S : Type} {prog : Program S} {Layout : S → (Addr → Place) → Prop}
    {span : S → Addr → Option Span} {bytes : S → Addr → Nat → Prop} {serves : S → Nat → Prop}
    (placed : ∀ s place, Layout s place → Placed (prog.mem s) (span s) place)
    (bytes_iff : ∀ s place p n, Layout s place → (bytes s p n ↔ InUse (span s) place p n))
    (alloc : ∀ s place size env s' ptr, Layout s place → size + guardSize * 2 < 2 ^ 64 →
      Supplies prog s env → prog.alloc s size env = some (s', ptr) →
      ∃ b v, ptr = v.userPtr ∧ place b ≠ .active ∧ (∀ c, c ≠ b → span s' c = span s c) ∧
        span s' b = some v ∧ Layout s' (Function.update place b .active) ∧
        (size ≤ v.size ↔ serves s size))
    (free : ∀ s place ptr s', Layout s place → prog.free s (some ptr) = some s' →
      (s' = s ∧ ∀ n, ¬ InUse (span s) place ptr n) ∨
      ∃ b v dest, ptr = v.userPtr ∧ dest ≠ .active ∧ (∀ c, c ≠ b → span s' c = span s c) ∧
        span s b = some v ∧ Layout s' (Function.update place b dest))
    (freeNull : ∀ s, prog.free s none = some s)
    (write : ∀ s place mem, Layout s place → (∀ a, mem.extent a = (prog.mem s).extent a) →
      Layout (prog.setMem s mem) place ∧ span (prog.setMem s mem) = span s) :
    Ledger prog (fun s => ∃ place, Layout s place) bytes serves where
  alloc s size env s' ptr inv fit supply ret := by
    obtain ⟨place, L⟩ := inv
    obtain ⟨b, v, rfl, off, other, hv, L', iff⟩ := alloc s place size env s' ptr L fit supply ret
    refine ⟨⟨_, L'⟩, v.size, iff, ?_⟩
    intro p n
    rw [bytes_iff s' _ p n L', bytes_iff s place p n L]
    exact inUse_add (placed s' _ L') other off hv
  free s ptr s' inv ret := by
    obtain ⟨place, L⟩ := inv
    rcases free s place ptr s' L ret with ⟨rfl, absent⟩ | ⟨b, v, dest, rfl, off, other, hv, L'⟩
    · refine ⟨⟨place, L⟩, ?_⟩
      intro p n
      rw [bytes_iff _ place p n L]
      constructor
      · intro held
        refine ⟨?_, held⟩
        rintro rfl
        exact absent n held
      · exact And.right
    · refine ⟨⟨_, L'⟩, ?_⟩
      intro p n
      rw [bytes_iff s' _ p n L', bytes_iff s place p n L]
      exact inUse_remove (placed s place L) other off hv
  freeNull s s' inv ret := by
    cases (freeNull s).symm.trans ret
    exact ⟨inv, fun _ _ => Iff.rfl⟩
  write s raw off byte mem inv ret := by
    obtain ⟨place, L⟩ := inv
    obtain ⟨L', same⟩ := write s place mem L (Memory.store_extent ret)
    refine ⟨⟨place, L'⟩, ?_⟩
    intro p n
    rw [bytes_iff _ place p n L', bytes_iff s place p n L, same]

end

end LearnC.SlabPool
