import LearnC.SegFits.Heap

/-! The pool stays cut into blocks in every run, and every pointer the allocator
follows names a block header, however stale that pointer is. -/

namespace LearnC.SegFits

/-- The bins and the links of the blocks in `P` name blocks in `P`. -/
structure Within (h : Heap) (P : Nat → Prop) : Prop where
  bin : ∀ i a, h.classBins i = some a → P a
  next : ∀ a b, P a → h.next a = some b → P b
  prev : ∀ a b, P a → h.prev a = some b → P b

section
variable {h : Heap} {P : Nat → Prop} {a b c n size fuel i : Nat}

theorem Within.setFree (w : Within h P) (v : Bool) : Within (h.setFree a v) P :=
  ⟨w.bin, fun b c hb hn => w.next b c hb (by simpa using hn),
    fun b c hb hp => w.prev b c hb (by simpa using hp)⟩

theorem Within.setSize (w : Within h P) (v : Nat) : Within (h.setSize a v) P :=
  ⟨w.bin, fun b c hb hn => w.next b c hb (by simpa using hn),
    fun b c hb hp => w.prev b c hb (by simpa using hp)⟩

/-- A new header with empty links. -/
theorem Within.set (w : Within h P) (a : Nat) (blk : Block) (hn : blk.next = none)
    (hp : blk.prev = none) :
    Within (h.set a blk) (fun b => b = a ∨ P b) := by
  refine ⟨fun i b hb => Or.inr (w.bin i b hb), ?_, ?_⟩
  · intro b c hb e
    by_cases eq : b = a
    · simp [eq, hn] at e
    · exact Or.inr (w.next b c (hb.resolve_left eq) (by simpa [eq] using e))
  · intro b c hb e
    by_cases eq : b = a
    · simp [eq, hp] at e
    · exact Or.inr (w.prev b c (hb.resolve_left eq) (by simpa [eq] using e))

theorem Within.addToClass (w : Within h P) (ha : P a) : Within (addToClass h a) P := by
  refine ⟨?_, ?_, ?_⟩
  · intro i b hb
    rw [addToClass_classBins, Function.update_apply] at hb
    split at hb
    · cases hb
      exact ha
    · exact w.bin i b hb
  · intro b c hb e
    rw [addToClass_fields.2.2.1] at e
    split at e
    · exact w.bin _ c e
    · exact w.next b c hb e
  · intro b c hb e
    rw [addToClass_fields.2.2.2] at e
    split at e
    · cases e
    · split at e
      · cases e
        exact ha
      · exact w.prev b c hb e

theorem Within.removeFromClass (w : Within h P) (ha : P a) : Within (removeFromClass h a) P := by
  refine ⟨?_, ?_, ?_⟩
  · intro i b hb
    rw [removeFromClass_classBins] at hb
    split at hb
    · exact w.next a b ha hb
    · exact w.bin i b hb
  · intro b c hb e
    rw [removeFromClass_fields.2.2.1] at e
    split at e
    · exact w.next a c ha e
    · exact w.next b c hb e
  · intro b c hb e
    rw [removeFromClass_fields.2.2.2] at e
    split at e
    · exact w.prev a c ha e
    · exact w.prev b c hb e

/-- The search of one bin is a search along its list. -/
theorem scanBin_eq (h : Heap) (size fuel : Nat) (start : Option Nat) :
    scanBin h size fuel start = chainFind h.next (fits h size) fuel start := by
  induction fuel generalizing start with
  | zero => cases start <;> rfl
  | succ fuel ih =>
    cases start with
    | none => rfl
    | some a =>
      rw [scanBin, chainFind]
      split
      · rfl
      · exact ih (h.next a)

theorem search_found (w : Within h P) {left : Nat}
    (found : search h size fuel left i = some (some c)) : P c ∧ fits h size c = true := by
  induction left generalizing i with
  | zero => simp [search] at found
  | succ left ih =>
    simp only [search] at found
    split at found
    · exact ih found
    · rw [scanBin_eq] at found
      exact chainFind_some w.next (w.bin i) found

/-! ## Splitting -/

@[simp] theorem split_classBins : (split h c size).classBins =
    Function.update h.classBins (getClassId (h.size c - size - sizeofBlock))
      (some (c + sizeofBlock + size)) := by
  simp [split]

theorem split_fields : (split h c size).size b =
      (if b = c then size
        else if b = c + sizeofBlock + size then h.size c - size - sizeofBlock else h.size b) ∧
    (split h c size).free b = (if b = c + sizeofBlock + size then true else h.free b) ∧
    ((split h c size).next b = if b = c + sizeofBlock + size
      then h.classBins (getClassId (h.size c - size - sizeofBlock)) else h.next b) ∧
    (split h c size).prev b = if b = c + sizeofBlock + size then none
      else if h.classBins (getClassId (h.size c - size - sizeofBlock)) = some b
      then some (c + sizeofBlock + size) else h.prev b := by
  simp only [split, setSize_fields, addToClass_fields, set_fields, set_classBins, ↓reduceIte,
    true_and]
  refine ⟨?_, ?_⟩ <;> split <;> simp_all

/-- The walk lists the blocks of a tiled pool. -/
theorem blocks_of_tiles {xs : List Nat} (h' : Tiles sizeofBlock poolSize h.size 0 xs) :
    h.blocks = xs := h'.walk (by decide) (by omega)

/-- The pool is cut into blocks from end to end. -/
def Tiled (h : Heap) : Prop := Tiles sizeofBlock poolSize h.size 0 h.blocks

theorem blocks_congr {h' : Heap} (same : ∀ a, h'.size a = h.size a) : h'.blocks = h.blocks := by
  rw [Heap.blocks, Heap.blocks, funext same]

@[simp] theorem setFree_blocks (v : Bool) : (h.setFree a v).blocks = h.blocks :=
  blocks_congr (by simp)

@[simp] theorem addToClass_blocks : (addToClass h a).blocks = h.blocks :=
  blocks_congr (by simp)

@[simp] theorem removeFromClass_blocks : (removeFromClass h a).blocks = h.blocks :=
  blocks_congr (by simp)

theorem Tiled.congr {h' : Heap} (t : Tiled h) (same : ∀ a, h'.size a = h.size a) : Tiled h' := by
  rw [Tiled, blocks_congr same]
  exact Tiles.congr t fun a _ => same a

/-- No header lies inside another block. -/
theorem Tiled.apart (t : Tiled h) (ha : a ∈ h.blocks) (hb : b ∈ h.blocks) :
    b ≤ a ∨ a + sizeofBlock + h.size a ≤ b := by
  by_cases lt : a < b
  · exact Or.inr (Tiles.apart t (by decide) ha hb lt)
  · exact Or.inl (by omega)

/-- The new header of a split lies strictly inside the block that is split. -/
theorem Tiled.fresh (t : Tiled h) (hc : c ∈ h.blocks) (room : splits h c size) :
    c + sizeofBlock + size ∉ h.blocks := by
  intro hn
  have := t.apart hc hn
  simp only [splits, sizeofBlock] at *
  omega

theorem Tiled.split (t : Tiled h) (hc : c ∈ h.blocks) (room : splits h c size) :
    Tiled (split h c size) ∧
    ∀ b, b ∈ (split h c size).blocks ↔ b = c + sizeofBlock + size ∨ b ∈ h.blocks := by
  have fresh := t.fresh hc room
  have nodup := Tiles.nodup t (by decide)
  obtain ⟨ys, zs, eq⟩ := List.append_of_mem hc
  have t' := t
  rw [Tiled, eq] at t'
  rw [eq] at fresh nodup
  have hcs : (SegFits.split h c size).size c = size := by simp [split_fields]
  have ne : c + sizeofBlock + size ≠ c := by simp [sizeofBlock]; omega
  have cut : (SegFits.split h c size).size c + sizeofBlock ≤ h.size c := by
    rw [hcs]
    simp only [splits, sizeofBlock] at *
    omega
  have tiles := t'.split cut
    (by rw [hcs]; simp [split_fields, ne])
    (fun b hb => by
      have hbc : b ≠ c := fun e => (List.nodup_cons.mp (List.nodup_middle.mp nodup)).1 (e ▸ hb)
      have hbn : b ≠ c + sizeofBlock + size := by
        rintro rfl
        exact fresh (by rcases List.mem_append.mp hb with h | h <;> simp [h])
      simp [split_fields, hbc, hbn])
  rw [hcs] at tiles
  have eq' := blocks_of_tiles tiles
  refine ⟨by rw [Tiled, eq']; exact tiles, ?_⟩
  intro b
  rw [eq', eq]
  simp only [List.mem_append, List.mem_cons]
  tauto

/-! ## Every run -/

/-- What holds of the heap in every run. -/
structure Sound (h : Heap) : Prop where
  tiled : Tiled h
  within : Within h (· ∈ h.blocks)

theorem Sound.found (s : Sound h) {left : Nat}
    (found : search h size fuel left i = some (some c)) :
    c ∈ h.blocks ∧ h.free c = true ∧ size ≤ h.size c := by
  obtain ⟨hc, hf⟩ := search_found s.within found
  simp only [fits, Bool.and_eq_true, decide_eq_true_eq] at hf
  exact ⟨hc, hf⟩

theorem Sound.split (s : Sound h) (hc : c ∈ h.blocks) (room : splits h c size) :
    Sound (split h c size) := by
  obtain ⟨tiled, mem⟩ := s.tiled.split hc room
  refine ⟨tiled, ?_⟩
  let rest : Block := ⟨h.size c - size - sizeofBlock, true, none, none⟩
  have w := (s.within.set (c + sizeofBlock + size) rest rfl rfl).addToClass (Or.inl rfl)
  have w' := w.setSize (a := c) size
  exact ⟨fun i a e => (mem a).mpr (w'.bin i a e),
    fun a b ha e => (mem b).mpr (w'.next a b ((mem a).mp ha) e),
    fun a b ha e => (mem b).mpr (w'.prev a b ((mem a).mp ha) e)⟩

theorem Sound.setFree (s : Sound h) (v : Bool) : Sound (h.setFree a v) :=
  ⟨s.tiled.congr (by simp), by rw [setFree_blocks]; exact s.within.setFree v⟩

theorem Sound.addToClass (s : Sound h) (ha : a ∈ h.blocks) : Sound (addToClass h a) :=
  ⟨s.tiled.congr (by simp), by rw [addToClass_blocks]; exact s.within.addToClass ha⟩

theorem Sound.removeFromClass (s : Sound h) (ha : a ∈ h.blocks) : Sound (removeFromClass h a) :=
  ⟨s.tiled.congr (by simp), by rw [removeFromClass_blocks]; exact s.within.removeFromClass ha⟩

/-- Taking a block: it is marked, and a remainder worth a header is a new free block. -/
theorem Sound.take (s : Sound h) (size : Nat) (hc : c ∈ h.blocks) :
    Sound (take h c size) ∧
    (∀ b, b ∈ (take h c size).blocks ↔
      (splits h c size ∧ b = c + sizeofBlock + size) ∨ b ∈ h.blocks) ∧
    ∀ b, (take h c size).free b =
      if b = c then false
      else if splits h c size ∧ b = c + sizeofBlock + size then true else h.free b := by
  by_cases room : splits h c size
  · obtain ⟨_, mem⟩ := s.tiled.split hc room
    have s' := ((s.split hc room).setFree (a := c) false).removeFromClass (a := c)
      (by rw [setFree_blocks, mem]; exact Or.inr hc)
    refine ⟨by simpa [SegFits.take, room] using s', ?_, ?_⟩
    · intro b
      simp [SegFits.take, room, mem]
    · intro b
      simp [SegFits.take, room, split_fields]
  · have s' := (s.setFree (a := c) false).removeFromClass (a := c) (by simpa using hc)
    refine ⟨by simpa [SegFits.take, room] using s', fun b => ?_, fun b => ?_⟩ <;>
      simp [SegFits.take, room]

/-- What a returning `my_malloc` has done. -/
theorem myMalloc_cases {h' : Heap} {r : Option Nat} (ret : myMalloc fuel h size = some (h', r)) :
    (r = none ∧ h' = h ∧ search h (align4 size) fuel (numClasses - getClassId (align4 size))
      (getClassId (align4 size)) = some none) ∨
    ∃ c, r = some (c + sizeofBlock) ∧ h' = take h c (align4 size) ∧
      search h (align4 size) fuel (numClasses - getClassId (align4 size))
        (getClassId (align4 size)) = some (some c) := by
  simp only [myMalloc] at ret
  split at ret
  · cases ret
  · next found => exact Or.inl (by cases ret; exact ⟨rfl, rfl, found⟩)
  · next c found => exact Or.inr ⟨c, by cases ret; exact ⟨rfl, rfl, found⟩⟩

end

/-- What holds in every run: the callers hold exactly the blocks that are not free. -/
structure Inv (w : World) : Prop where
  sound : Sound w.heap
  live : ∀ ptr, ptr ∈ w.live ↔
    ∃ a ∈ w.heap.blocks, w.heap.free a = false ∧ ptr = a + sizeofBlock
  nodup : w.live.Nodup

theorem init_tiles (garbage : Nat → Block) :
    Tiles sizeofBlock poolSize (initMemory garbage).size 0 [0] := by
  simp [Tiles, initMemory, Heap.size, sizeofBlock, poolSize]

theorem init_blocks (garbage : Nat → Block) : (initMemory garbage).blocks = [0] :=
  blocks_of_tiles (init_tiles garbage)

theorem init_inv (garbage : Nat → Block) : Inv (World.init garbage) := by
  have eq := init_blocks garbage
  refine ⟨⟨by rw [World.init, Tiled, eq]; exact init_tiles garbage, ?_⟩, ?_, List.nodup_nil⟩
  · rw [World.init, eq]
    refine ⟨fun i a e => ?_, fun a b ha e => ?_, fun a b ha e => ?_⟩
    · simp only [initMemory, Function.update_apply] at e
      split at e <;> simp_all
    · simp_all [initMemory, Heap.next]
    · simp_all [initMemory, Heap.prev]
  · intro ptr
    simp only [World.init, eq, List.mem_singleton, exists_eq_left, List.not_mem_nil, false_iff]
    simp [initMemory, Heap.free]

/-- A pointer handed out names a block that was free, so it is new to the callers. -/
theorem malloc_inv {w : World} (inv : Inv w) {c size : Nat} (hc : c ∈ w.heap.blocks)
    (free : w.heap.free c = true) :
    Inv ⟨take w.heap c size, (c + sizeofBlock) :: w.live⟩ := by
  obtain ⟨sound, blocks, marks⟩ := inv.sound.take size hc
  have fresh : splits w.heap c size → c + sizeofBlock + size ∉ w.heap.blocks :=
    inv.sound.tiled.fresh hc
  refine ⟨sound, ?_, List.nodup_cons.mpr ⟨?_, inv.nodup⟩⟩
  · intro ptr
    rw [List.mem_cons, inv.live]
    constructor
    · rintro (rfl | ⟨a, ha, hf, rfl⟩)
      · exact ⟨c, (blocks c).mpr (Or.inr hc), by simp [marks], rfl⟩
      · refine ⟨a, (blocks a).mpr (Or.inr ha), ?_, rfl⟩
        have : ¬ (splits w.heap c size ∧ a = c + sizeofBlock + size) := by
          rintro ⟨room, rfl⟩
          exact fresh room ha
        simp [marks, this, hf]
    · rintro ⟨a, ha, hf, rfl⟩
      rw [marks] at hf
      by_cases e : a = c
      · exact Or.inl (by rw [e])
      · rw [if_neg e] at hf
        split at hf
        · cases hf
        · next new => exact Or.inr ⟨a, ((blocks a).mp ha).resolve_left new, hf, rfl⟩
  · intro hp
    obtain ⟨a, _, hf, e⟩ := (inv.live _).mp hp
    have : a = c := by omega
    rw [this, free] at hf
    cases hf

theorem free_inv {w : World} (inv : Inv w) {a : Nat} (ha : a ∈ w.heap.blocks)
    (held : w.heap.free a = false) :
    Inv ⟨addToClass (w.heap.setFree a true) a, w.live.erase (a + sizeofBlock)⟩ := by
  refine ⟨(inv.sound.setFree true).addToClass (by simpa using ha), ?_,
    inv.nodup.erase _⟩
  intro ptr
  rw [inv.nodup.mem_erase_iff, inv.live]
  simp only [addToClass_blocks, setFree_blocks]
  constructor
  · rintro ⟨ne, b, hb, hf, rfl⟩
    refine ⟨b, hb, ?_, rfl⟩
    have : b ≠ a := fun e => ne (by rw [e])
    simp [this, hf]
  · rintro ⟨b, hb, hf, rfl⟩
    have ne : b ≠ a := by
      rintro rfl
      simp at hf
    exact ⟨fun e => ne (by omega), b, hb, by simpa [ne] using hf, rfl⟩

theorem step_inv {w w' : World} {op : Op} (inv : Inv w) (step : Step w op w') : Inv w' := by
  cases step with
  | malloc _ ret =>
    rcases myMalloc_cases ret with ⟨rfl, rfl, _⟩ | ⟨c, rfl, rfl, found⟩
    · exact ⟨inv.sound, inv.live, inv.nodup⟩
    · obtain ⟨hc, hf, _⟩ := inv.sound.found found
      exact malloc_inv inv hc hf
  | free hp =>
    obtain ⟨a, ha, hf, rfl⟩ := (inv.live _).mp hp
    simpa [myFree] using free_inv inv ha hf
  | freeNull => exact inv

theorem run_inv {garbage : Nat → Block} {ops : List Op} {w : World}
    (run : Run Step (World.init garbage) ops w) : Inv w :=
  run.invariant (init_inv garbage) fun _ _ _ inv step => step_inv inv step

end LearnC.SegFits
