import LearnC.MemPool.Release
import LearnC.MemPool.Server

/-! Whole calls: what an allocation and a free do to the layout, and what the pool
keeps of the request. -/

namespace LearnC.MemPool

/-- The byte that the owner of a block leaves at byte `k` of its tail guard. -/
def Request.tailByte (q : Request) (k : Nat) : Option UInt8 :=
  q.written (roundUp classSizes q.size - sizeofGuard + k) <|> tailMagic[k]?

/-- What the pool keeps of a request: the rounded size, and the guards as the
allocation and then the owner wrote them. -/
structure Kept (s : Pool) (a : Addr) (q : Request) : Prop where
  size : (s.hdr a).size = roundUp classSizes q.size
  head : (s.hdr a).guardHead = if q.protect then protectMagic else 0
  tail : q.protect = true → ∀ k, k < sizeofGuard →
    s.mem.byte a (Pool.tailOffset (s.hdr a).size + k) = q.tailByte k

/-- The byte count for `malloc` does not wrap. -/
def Pool.Fits (s : Pool) (size : Nat) : Prop :=
  sizeofMemBlk + size + (if s.protectMode then sizeofGuard else 0) < 2 ^ 64

/-- A block that was in no owner's hands is now the thread's, with room for `n` bytes. -/
structure Taken {T : Type} (s s' : Pool) (loc : Addr → Loc T) (a : Addr) (n : Nat) (t : T) :
    Prop where
  off : loc a = .gone ∨ ∃ i, loc a = .slab i
  frame : Frame s s' a
  room : s'.mem.Inside a 0 (sizeofMemBlk + n)
  layout : Layout s' (Function.update loc a (.held t))

section
variable {T : Type} {s s' : Pool} {loc : Addr → Loc T} {a b : Addr} {i size : Nat}
  {label : Option (List UInt8)} {env : Env} {q : Request}

theorem Kept.of_view (k : Kept s a q) (same : s'.view a = s.view a) : Kept s' a q := by
  obtain ⟨size, _, _, head, mem⟩ := view_fields same
  refine ⟨size.trans k.size, head.trans k.head, ?_⟩
  intro on j hj
  rw [size, Memory.byte, mem]
  exact k.tail on j hj

theorem blockSize_eq (sizes : s.blockSizes = classSizes) {n : Nat}
    (cls : classOf classSizes n = some i) : (s.slabs i).blockSize = roundUp classSizes n := by
  have hi := classOf_lt cls
  have entry : s.blockSizes[i]? = some classSizes[i] := by rw [sizes, List.getElem?_eq_getElem hi]
  obtain ⟨j, hj, eq⟩ := Option.map_eq_some_iff.mp (List.getElem?_map ▸ entry)
  obtain ⟨_, rfl⟩ := List.getElem?_eq_some_iff.mp hj
  rw [roundUp_of_some cls hi, ← eq, List.getElem_range]

theorem actualSize_eq (sizes : s.blockSizes = classSizes) (n : Nat) :
    s.actualSize (classOf classSizes n) n = roundUp classSizes n := by
  cases cls : classOf classSizes n with
  | none => simp [Pool.actualSize, roundUp_of_none cls]
  | some i => simpa [Pool.actualSize] using blockSize_eq sizes cls

theorem malloc_cases (L : Layout s loc) (new : ∀ a, env.raw = some a → a ∉ s.mem) {total n : Nat}
    (room : sizeofMemBlk + n ≤ total) (t : T) :
    s.malloc env total = (s, none) ∨
    ∃ a s', s.malloc env total = (s', some a) ∧ Taken s s' loc a n t := by
  cases raw : env.raw with
  | none => exact Or.inl (by simp [Pool.malloc, raw])
  | some a =>
    have absent := new a raw
    have header : sizeofMemBlk ≤ total := by omega
    obtain ⟨s', malloc, frame, extent, L'⟩ := malloc_spec L raw absent header t
    refine Or.inr ⟨a, s', malloc, Or.inl ?_, frame, ⟨total, extent, by omega⟩, L'⟩
    by_contra h
    exact absent ((L.live a).mpr h)

theorem Layout.slab_room (L : Layout s loc) (ha : loc a = .slab i)
    (cls : classOf classSizes size = some i) :
    s.mem.Inside a 0 (sizeofMemBlk + roundUp classSizes size) := by
  obtain ⟨made, _, own⟩ := L.idle a i ha
  have same : roundUp classSizes size = (s.hdr a).size := by
    rw [← made.rounded, roundUp_of_some cls (classOf_lt cls), roundUp_of_some own (classOf_lt own)]
  rw [same]
  exact made.room

/-- The raw block comes off the free list or from the system, and in both cases
it has the room that the header and the rounded size need. -/
theorem takeRaw_spec (L : Layout s loc) (new : ∀ a, env.raw = some a → a ∉ s.mem) {total : Nat}
    (room : sizeofMemBlk + roundUp classSizes size ≤ total) (t : T) :
    s.takeRaw (classOf classSizes size) total env = .ok (s, none) ∨
    ∃ a s', s.takeRaw (classOf classSizes size) total env = .ok (s', some a) ∧
      Taken s s' loc a (roundUp classSizes size) t := by
  have fromSystem {idx : Option Nat} (taken : s.takeRaw idx total env = .ok (s.malloc env total)) :
      s.takeRaw idx total env = .ok (s, none) ∨ ∃ a s', s.takeRaw idx total env = .ok (s', some a) ∧
        Taken s s' loc a (roundUp classSizes size) t := by
    rcases malloc_cases L new room t with null | ⟨a, s', malloc, rest⟩
    · exact Or.inl (null ▸ taken)
    · exact Or.inr ⟨a, s', malloc ▸ taken, rest⟩
  cases cls : classOf classSizes size with
  | none => exact fromSystem (by simp [Pool.takeRaw, bind, Except.bind])
  | some i =>
    rcases slabPop_spec L i t with ⟨_, pop⟩ | ⟨a, s', ha, pop, frame, _, mem, L'⟩
    · exact fromSystem (by simp [Pool.takeRaw, pop, bind, Except.bind])
    · exact Or.inr ⟨a, s', by simp [Pool.takeRaw, pop, bind, Except.bind], Or.inr ⟨i, ha⟩, frame,
        mem ▸ L.slab_room ha cls, L'⟩

theorem initBlk_made (label : Option (List UInt8)) (env : Env) {t : T} (L : Layout s loc)
    (ha : loc a = .held t) (room : s.mem.Inside a 0 (sizeofMemBlk + roundUp classSizes size)) :
    ∃ s', s.initBlk a (roundUp classSizes size) label env = .ok s' ∧ Frame s s' a ∧ Layout s' loc ∧
      Made s' a ∧ (s'.hdr a).freed = false ∧ Kept s' a ⟨size, s.protectMode, fun _ => none⟩ := by
  obtain ⟨s', init, frame, L', hsize, self, fresh, head, extent, tail⟩ :=
    initBlk_spec L ha room label env
  refine ⟨s', init, frame, L', ⟨self, ?_, ?_⟩, fresh, hsize, head, ?_⟩
  · rw [hsize, roundUp_roundUp classSizes_sorted]
  · rw [hsize, Memory.Inside, extent]
    exact room
  · intro on k hk
    rw [hsize, tail on k hk]
    rfl

theorem Made.asked (made : Made s a) (kept : Kept s a q) :
    s.mem.Inside a 0 (sizeofMemBlk + q.size) := by
  obtain ⟨n, extent, le⟩ := made.room
  have up := le_roundUp classSizes q.size
  have size := kept.size
  exact ⟨n, extent, by omega⟩

theorem handOut_spec (label : Option (List UInt8)) (env : Env) {t : T} (L : Layout s loc)
    (ha : loc a = .held t) (room : s.mem.Inside a 0 (sizeofMemBlk + roundUp classSizes size)) :
    ∃ s₁ s₂, s.initBlk a (roundUp classSizes size) label env = .ok s₁ ∧
      s₁.activePush a = .ok s₂ ∧ Frame s s₂ a ∧ Layout s₂ (Function.update loc a .active) ∧
      s₂.mem.Inside a 0 (sizeofMemBlk + size) ∧
      Kept s₂ a ⟨size, s.protectMode, fun _ => none⟩ := by
  obtain ⟨s₁, init, frame₁, L₁, made, fresh, kept⟩ := initBlk_made label env L ha room
  obtain ⟨s₂, push, views, frame₂, L₂⟩ := activePush_spec L₁ ha made fresh
  have kept₂ := kept.of_view (views a)
  exact ⟨s₁, s₂, init, push, frame₁.trans frame₂, L₂, (made.of_view (views a)).asked kept₂, kept₂⟩

theorem totalSize_eq (fits : s.Fits size) : s.totalSize (roundUp classSizes size) =
    sizeofMemBlk + roundUp classSizes size + if s.protectMode then sizeofGuard else 0 := by
  rw [Pool.totalSize]
  cases cls : classOf classSizes size with
  | none => rw [roundUp_of_none cls, Nat.mod_eq_of_lt fits]
  | some i =>
    have hi := classOf_lt cls
    have all : ∀ x ∈ classSizes, x ≤ 8192 := by decide
    have := all _ (List.getElem_mem hi)
    rw [roundUp_of_some cls hi, Nat.mod_eq_of_lt]
    simp only [sizeofMemBlk, sizeofGuard]
    split <;> omega

theorem totalSize_le (fits : s.Fits size) :
    sizeofMemBlk + roundUp classSizes size ≤ s.totalSize (roundUp classSizes size) := by
  rw [totalSize_eq fits]
  exact Nat.le_add_right _ _

/-- An allocation whose size does not wrap answers `NULL` and changes nothing, or
hands out a block that was in no owner's hands. -/
theorem allocAt_spec (L : Layout s loc) (new : ∀ a, env.raw = some a → a ∉ s.mem)
    (fits : s.Fits size) (label : Option (List UInt8)) (t : T) :
    s.allocAt (classOf classSizes size) size label env = .ok (s, none) ∨
    ∃ a s', s.allocAt (classOf classSizes size) size label env =
        .ok (s', some (a + sizeofMemBlk)) ∧
      (loc a = .gone ∨ ∃ i, loc a = .slab i) ∧ Frame s s' a ∧
      Layout s' (Function.update loc a .active) ∧ s'.mem.Inside a 0 (sizeofMemBlk + size) ∧
      Kept s' a ⟨size, s.protectMode, fun _ => none⟩ := by
  have actual := actualSize_eq L.sizes size
  rcases takeRaw_spec L new (totalSize_le fits) t with
    taken | ⟨a, s₁, taken, off, frame, room, L₁⟩
  · exact Or.inl (by simp [Pool.allocAt, actual, taken, bind, Except.bind])
  · obtain ⟨s₂, s₃, init, push, frame', L₃, room', kept⟩ :=
      handOut_spec label env (t := t) L₁ (by simp) room
    rw [frame.protect] at kept
    refine Or.inr ⟨a, s₃, ?_, off, frame.trans frame', by simpa using L₃, room', kept⟩
    simp [Pool.allocAt, actual, taken, init, push, bind, Except.bind]

/-- A buffer too small for the header, or for the tail guard under protection. -/
theorem initBlk_short {n : Nat} (extent : s.mem.extent a = some n)
    (short : n < sizeofMemBlk ∨ s.protectMode = true ∧ n < sizeofMemBlk + size) :
    s.initBlk a size label env = .error .outside := by
  by_cases header : s.mem.Inside a 0 sizeofMemBlk
  · obtain ⟨on, lt⟩ : s.protectMode = true ∧ n < sizeofMemBlk + size := by
      apply short.resolve_left
      intro lt
      obtain ⟨m, hm, le⟩ := header
      simp only [extent, Option.some.injEq] at hm
      omega
    have noTail (p : Pool) (same : p.mem = s.mem) : p.storeTail a size = .error .outside := by
      have outside : p.mem.store a (Pool.tailOffset size) tailMagic = none := by
        rw [← Option.not_isSome_iff_eq_none, Memory.store_isSome, same]
        rintro ⟨m, hm, hle⟩
        rw [show tailMagic.length = sizeofGuard from rfl, tailOffset_add] at hle
        simp only [extent, Option.some.injEq] at hm
        omega
      simp [Pool.storeTail, outside]
    simp only [Pool.initBlk, blk_ok header, setBlk_ok header, on, bind, Except.bind, ↓reduceIte]
    exact noTail _ rfl
  · simp [Pool.initBlk, Pool.blk, header, bind, Except.bind]

theorem classOf_wraps (wraps : ¬ s.Fits size) : classOf classSizes size = none := by
  apply classOf_eq_none.mpr
  intro x hx
  have all : ∀ x ∈ classSizes, x ≤ 8192 := by decide
  have := all x hx
  simp only [Pool.Fits, sizeofMemBlk, sizeofGuard] at wraps
  split at wraps <;> omega

/-- With a size that wraps, the header or the tail guard is outside the few bytes
that `malloc` was asked for. -/
theorem allocAt_wraps (hsize : size < 2 ^ 64) (wraps : ¬ s.Fits size)
    (label : Option (List UInt8)) :
    s.allocAt (classOf classSizes size) size label env = .ok (s, none) ∨
    s.allocAt (classOf classSizes size) size label env = .error .outside := by
  have cls := classOf_wraps wraps
  have short : s.totalSize size < sizeofMemBlk ∨
      s.protectMode = true ∧ s.totalSize size < sizeofMemBlk + size := by
    cases hp : s.protectMode <;>
      simp only [Pool.Fits, Pool.totalSize, sizeofMemBlk, sizeofGuard, hp, Bool.false_eq_true,
        ↓reduceIte, true_and] at wraps ⊢ <;> omega
  have taken : s.takeRaw none (s.totalSize size) env = .ok (s.malloc env (s.totalSize size)) := by
    simp [Pool.takeRaw, bind, Except.bind]
  cases raw : env.raw with
  | none =>
    exact Or.inl (by
      simp [cls, Pool.allocAt, Pool.actualSize, taken, Pool.malloc, raw, bind, Except.bind])
  | some a =>
    let s₁ := (s.malloc env (s.totalSize size)).1
    have malloc : s.malloc env (s.totalSize size) = (s₁, some a) := by simp [s₁, Pool.malloc, raw]
    have init : s₁.initBlk a size label env = .error .outside :=
      initBlk_short (n := s.totalSize size) (by simp [s₁, Pool.malloc, raw])
        (by simpa [s₁, Pool.malloc, raw] using short)
    exact Or.inr (by
      simp [cls, Pool.allocAt, Pool.actualSize, taken, malloc, init, bind, Except.bind])

def home {T : Type} (size : Nat) : Loc T :=
  match classOf classSizes size with
  | some i => .slab i
  | none => .gone

theorem home_away {size : Nat} :
    (home size : Loc T) ≠ .active ∧ ∀ t, (home size : Loc T) ≠ .held t := by
  unfold home
  split <;> simp

/-- A block off the active list goes to its slab, or back to the system. -/
theorem release_spec {t : T} (L : Layout s loc) (ha : loc a = .held t) (made : Made s a)
    (freed : (s.hdr a).freed = true) :
    ∃ s', s.release (classOf classSizes (s.hdr a).size) a = .ok s' ∧ Frame s s' a ∧
      Layout s' (Function.update loc a (home (s.hdr a).size)) := by
  unfold home
  cases cls : classOf classSizes (s.hdr a).size with
  | some i =>
    obtain ⟨s', ret, _, frame, L'⟩ := slabPush_spec L ha made freed cls
    exact ⟨s', ret, frame, L'⟩
  | none =>
    obtain ⟨s', ret, frame, _, L'⟩ := sysFree_spec L ha made
    exact ⟨s', ret, frame, L'⟩

/-- A free that passes the guard checks marks the block and sends it home. -/
theorem freeWith_spec {find : Pool → Nat → Option Nat} (L : Layout s loc) (ha : loc a = .active)
    (finds : ∀ s : Pool, s.blockSizes = classSizes → ∀ n, find s n = classOf classSizes n)
    (guards : s.protectMode = true → Guarded s a) (t : T) :
    ∃ s', s.freeWith find (some (a + sizeofMemBlk)) = .ok s' ∧ Frame s s' a ∧
      Layout s' (Function.update loc a (home (s.hdr a).size)) := by
  obtain ⟨s₁, check, frame₁, _, size, freed, made, L₁⟩ :=
    checkAndUnlink_spec L ha (a + sizeofMemBlk) guards t
  obtain ⟨s₂, release, frame₂, L₂⟩ := release_spec (t := t) L₁ (by simp) made freed
  have class_ := finds s₁ L₁.sizes (s₁.hdr a).size
  refine ⟨s₂, ?_, frame₁.trans frame₂, by simpa [size] using L₂⟩
  simp [Pool.freeWith, check, blk_ok made.header, class_, release, bind, Except.bind]

theorem freeWith_abort {find : Pool → Nat → Option Nat} (L : Layout s loc) (ha : loc a = .active)
    (on : s.protectMode = true) (broken : ¬ Guarded s a) :
    s.freeWith find (some (a + sizeofMemBlk)) =
      .error (.underrun (a + sizeofMemBlk) (s.hdr a).label) ∨
    s.freeWith find (some (a + sizeofMemBlk)) =
      .error (.overflow (a + sizeofMemBlk) (s.hdr a).label) := by
  rcases checkAndUnlink_abort L ha (a + sizeofMemBlk) on broken with h | h
  · exact Or.inl (by simp [Pool.freeWith, h, bind, Except.bind])
  · exact Or.inr (by simp [Pool.freeWith, h, bind, Except.bind])

theorem freeWith_congr {find find' : Pool → Nat → Option Nat} (L : Layout s loc)
    (ha : loc a = .active)
    (same : ∀ s : Pool, s.blockSizes = classSizes → ∀ n, find s n = find' s n) (t : T) :
    s.freeWith find (some (a + sizeofMemBlk)) = s.freeWith find' (some (a + sizeofMemBlk)) := by
  by_cases guards : s.protectMode = true → Guarded s a
  · obtain ⟨s₁, check, _, _, _, _, made, L₁⟩ :=
      checkAndUnlink_spec L ha (a + sizeofMemBlk) guards t
    simp [Pool.freeWith, check, blk_ok made.header, same s₁ L₁.sizes, bind, Except.bind]
  · obtain ⟨on, broken⟩ := Classical.not_imp.mp guards
    rcases checkAndUnlink_abort L ha (a + sizeofMemBlk) on broken with h | h <;>
      simp [Pool.freeWith, h, bind, Except.bind]

end

end LearnC.MemPool
