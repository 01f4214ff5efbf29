import LearnC.FreeList.Calls

/-! `1.implicit_free_list.c`: the headers are all there is, and every call walks
them from the start of the pool. -/

namespace LearnC.FreeList.Implicit

/-- `sizeof(BlockHeader)`. -/
def sizeofHeader : Nat := 16

@[ext] structure BlockHeader where
  size : Nat
  free : Bool

/-- The block headers in the pool, by offset. -/
structure Heap where
  mem : Nat → BlockHeader

namespace Heap

def size (h : Heap) (a : Nat) : Nat := (h.mem a).size
def free (h : Heap) (a : Nat) : Bool := (h.mem a).free

def set (h : Heap) (a : Nat) (b : BlockHeader) : Heap := ⟨Function.update h.mem a b⟩
def setSize (h : Heap) (a size : Nat) : Heap := h.set a { h.mem a with size := size }
def setFree (h : Heap) (a : Nat) (free : Bool) : Heap := h.set a { h.mem a with free := free }

end Heap

/-- The pool's other bytes are whatever `malloc` left there. -/
def initMemory (garbage : Nat → BlockHeader) : Heap :=
  ⟨Function.update garbage 0 ⟨poolSize - sizeofHeader, true⟩⟩

/-- The test of the loop of `my_malloc`. -/
def fits (h : Heap) (size block : Nat) : Bool := h.free block && decide (size ≤ h.size block)

/-- What `my_malloc` does with the block it found. -/
def take (h : Heap) (block size : Nat) : Heap :=
  let remaining := h.size block - size
  let h :=
    if remaining > sizeofHeader + 4 then
      let next := block + sizeofHeader + size
      let h := h.set next ⟨remaining - sizeofHeader, true⟩
      h.setSize block size
    else h
  h.setFree block false

def myMalloc (h : Heap) (size : Nat) : Option (Heap × Option Nat) :=
  let size := align4 size
  match findBlock sizeofHeader poolSize h.size (fits h size) turns 0 with
  | none => none
  | some none => some (h, none)
  | some (some block) => some (take h block size, some (block + sizeofHeader))

/-- `b->size += sizeof(BlockHeader) + next->size`. -/
def join (h : Heap) (b next : Nat) : Heap :=
  h.setSize b (h.size b + (sizeofHeader + h.size next))

def myFree (h : Heap) (ptr : Option Nat) : Option Heap :=
  match ptr with
  | none => some h
  | some ptr =>
    let block := ptr - sizeofHeader
    coalesce sizeofHeader poolSize Heap.size Heap.free join turns (h.setFree block true) 0

/-- The lines that `print_state` prints: the size of each block, and whether it is free. -/
def printState (h : Heap) : Option (List (Nat × Bool)) :=
  (listBlocks sizeofHeader poolSize h.size turns 0).map fun blocks =>
    blocks.map fun a => (h.size a, h.free a)

def implicit : Program Heap BlockHeader where
  hdr := sizeofHeader
  size := BlockHeader.size
  isFree := BlockHeader.free
  mem := Heap.mem
  setMem _ mem := ⟨mem⟩
  malloc := myMalloc
  free := myFree

/-! ## What the operations write -/

section
variable {h h' : Heap} {a b c n size : Nat}

@[simp] theorem set_fields (blk : BlockHeader) :
    (h.set a blk).size b = (if b = a then blk.size else h.size b) ∧
    (h.set a blk).free b = (if b = a then blk.free else h.free b) := by
  by_cases e : b = a <;> simp [Heap.set, Heap.size, Heap.free, e]

@[simp] theorem setSize_fields (v : Nat) :
    (h.setSize a v).size b = (if b = a then v else h.size b) ∧
    (h.setSize a v).free b = h.free b := by
  by_cases e : b = a <;> simp [Heap.setSize, Heap.set, Heap.size, Heap.free, e]

@[simp] theorem setFree_fields (v : Bool) :
    (h.setFree a v).size b = h.size b ∧
    (h.setFree a v).free b = (if b = a then v else h.free b) := by
  by_cases e : b = a <;> simp [Heap.setFree, Heap.set, Heap.size, Heap.free, e]

@[simp] theorem sizeAt_eq : implicit.sizeAt h = h.size := rfl
@[simp] theorem freeAt_eq : implicit.freeAt h = h.free := rfl
@[simp] theorem hdr_eq : implicit.hdr = sizeofHeader := rfl

theorem splits_iff : Splits implicit h c n ↔ h.size c - n > sizeofHeader + 4 := Iff.rfl

/-- A block that is handed out keeps the bytes asked for, and the rest of it, if
worth a header, is a free block behind it. -/
theorem take_cut (h : Heap) (c n : Nat) : Cut implicit h (take h c n) c n where
  whole room b := by
    rw [splits_iff] at room
    simp [take, room]
  sizes room b := by
    rw [splits_iff] at room
    by_cases e : b = c <;> by_cases e' : b = c + sizeofHeader + n <;> simp [take, room, e, e']
  marks b := by
    by_cases room : h.size c - n > sizeofHeader + 4 <;> simp [take, splits_iff, room]

/-! ## The heap in every run -/

theorem turns_enough (stop : Nat) : poolSize - stop < turns := by
  simp only [turns]
  omega

/-- The walk of `my_malloc` comes to the first block that fits, or to the end. -/
theorem search_eq (T : Tidy implicit h) (n : Nat) :
    findBlock sizeofHeader poolSize h.size (fits h n) turns 0 =
      some ((implicit.blocks h).find? (fits h n)) :=
  T.tiles.findBlock (by decide) (turns_enough 0)

theorem malloc_spec (T : Tidy implicit h) (size : Nat) :
    (Full implicit h (align4 size) ∧ myMalloc h size = some (h, none)) ∨
    ∃ h' c, myMalloc h size = some (h', some (c + sizeofHeader)) ∧ Tidy implicit h' ∧
      Takes implicit h h' c (align4 size) := by
  have search := search_eq T (align4 size)
  cases found : (implicit.blocks h).find? (fits h (align4 size)) with
  | none =>
    rw [found] at search
    refine Or.inl ⟨?_, by simp [myMalloc, search]⟩
    intro a ha free
    have nofit := List.find?_eq_none.mp found a ha
    have free' : h.free a = true := free
    simpa [fits, free'] using nofit
  | some c =>
    rw [found] at search
    have hc := List.mem_of_find?_eq_some found
    have fit := List.find?_some found
    simp only [fits, Bool.and_eq_true, decide_eq_true_eq] at fit
    obtain ⟨T', takes, _⟩ := (take_cut h c (align4 size)).takes (by decide) T hc fit.1 fit.2
    exact Or.inr ⟨take h c (align4 size), c, by simp [myMalloc, search], T', takes⟩

theorem join_joins : Joins sizeofHeader poolSize Heap.size Heap.free join fun _ _ => True where
  sizes h a b c := by simp [join]
  marks h a b c := by simp [join]
  inv _ _ _ _ _ _ _ _ _ := trivial

theorem free_spec (T : Tidy implicit h) (a : Nat) :
    ∃ h', myFree h (some (a + sizeofHeader)) = some h' ∧ Tidy implicit h' ∧
      Frees implicit h h' a := by
  have sizes : ∀ b, (h.setFree a true).size b = h.size b := fun b => (setFree_fields true).1
  have t : Tiles sizeofHeader poolSize (h.setFree a true).size 0 (implicit.blocks h) :=
    T.tiles.congr fun b _ => sizes b
  obtain ⟨h', xs, ret, _, joined⟩ := coalesce_region join_joins (by decide) (by decide) t trivial
    (show poolSize < turns by decide)
  have joined : Coalesces implicit.hdr poolSize implicit.sizeAt implicit.freeAt
      (h.setFree a true) h' (implicit.blocks h) xs := joined
  obtain ⟨_, T', frees⟩ := Frees.of_coalesces (by decide) joined sizes
    fun b => (setFree_fields true).2
  exact ⟨h', by simpa [myFree] using ret, T', frees⟩

theorem rules : Rules implicit (Tidy implicit) where
  pos := by decide
  mem_setMem _ _ := rfl
  tidy _ T := T
  malloc _ size T := malloc_spec T size
  free _ a T _ := free_spec T a
  freeNull _ := rfl
  write h mem T same := (T.same_headers (by decide) ⟨mem⟩ same).1

theorem init_inv (garbage : Nat → BlockHeader) :
    Inv implicit (Tidy implicit) (World.start (initMemory garbage)) := by
  obtain ⟨_, tidy, held⟩ := start_inv (show implicit.hdr < poolSize by decide) (by decide)
    (show implicit.sizeAt (initMemory garbage) 0 = _ by simp [initMemory, Heap.size])
    (by simp [initMemory, Heap.free])
  exact ⟨tidy, held⟩

/-- `print_state` prints a line for each block, in the order of their addresses. -/
theorem printState_eq (T : Tidy implicit h) :
    printState h = some ((implicit.blocks h).map fun a => (h.size a, h.free a)) := by
  have list : listBlocks sizeofHeader poolSize h.size turns 0 = some (implicit.blocks h) :=
    T.tiles.listBlocks (by decide) (turns_enough 0)
  simp [printState, list]

end

/-- In every run the walk over the headers ends at the end of the pool, so every
call returns, and the allocations lie apart and keep their headers until freed. -/
theorem heap_intact (garbage : Nat → BlockHeader) (ops : List Op) (w : World Heap)
    (run : Run (Step implicit) (World.start (initMemory garbage)) ops w) :
    Tiles sizeofHeader poolSize w.heap.size 0 (implicit.blocks w.heap) ∧
    Held sizeofHeader (implicit.Used w.heap) w.live ∧
    (∀ size, ∃ h r, myMalloc w.heap size = some (h, r)) ∧
    (∀ ptr ∈ w.live, ∃ h, myFree w.heap (some ptr) = some h) ∧
    printState w.heap =
      some ((implicit.blocks w.heap).map fun a => (w.heap.size a, w.heap.free a)) ∧
    Separate sizeofHeader poolSize w.heap.size (implicit.blocks w.heap) w.live ∧
    ∀ later w' p, Run (Step implicit) w later w' → p ∈ w.live →
      (∀ op ∈ later, op ≠ .free (some p)) →
      p ∈ w'.live ∧ w'.heap.mem (p - sizeofHeader) = w.heap.mem (p - sizeofHeader) := by
  have inv := rules.run_inv (init_inv garbage) run
  refine ⟨inv.heap.tiles, inv.held, ?_, ?_, printState_eq inv.heap, rules.separate inv, ?_⟩
  · intro size
    rcases malloc_spec inv.heap size with ⟨_, ret⟩ | ⟨h, c, ret, _⟩
    · exact ⟨_, _, ret⟩
    · exact ⟨_, _, ret⟩
  · intro ptr hp
    obtain ⟨a, _, rfl⟩ := inv.block hp
    obtain ⟨h, ret, _⟩ := free_spec inv.heap a
    exact ⟨h, ret⟩
  · intro later w' p run' hp kept
    obtain ⟨hp', size⟩ := rules.run_keeps inv run' hp kept
    have inv' := rules.run_inv inv run'
    obtain ⟨a, ha, rfl⟩ := inv.block hp
    have free := ha.2.symm ▸ (inv'.held.block hp').2
    rw [hdr_eq, Nat.add_sub_cancel] at *
    exact ⟨hp', BlockHeader.ext size free⟩

/-- A pool whose bytes were zero. -/
def zeroed : Nat → BlockHeader := fun _ => ⟨0, false⟩

/-- The calls of `main`. -/
def mainAllocs : List Op := [.malloc 100, .malloc 200, .malloc 300]

def mainFrees : List Op := [.free (some 132), .free (some 16), .free (some 348)]

theorem main_payloads_apart :
    Apart
      (payload sizeofHeader (World.after implicit (initMemory zeroed) mainAllocs).heap.size 16)
      (payload sizeofHeader
        (World.after implicit (initMemory zeroed) mainAllocs).heap.size 132) := by
  obtain ⟨_, _, _, _, _, separate, _⟩ :=
    heap_intact zeroed mainAllocs _ (after_run (by decide))
  exact separate.apart 16 (by decide) 132 (by decide) (by decide)

/-- In every run no two neighbours are free: the largest free block is the longest
stretch that no allocation covers, and all of the pool when there is none. -/
theorem free_space_joined (garbage : Nat → BlockHeader) (ops : List Op) (w : World Heap)
    (run : Run (Step implicit) (World.start (initMemory garbage)) ops w) :
    Coalesced sizeofHeader w.heap.size w.heap.free (implicit.blocks w.heap) ∧
    ((∃ a ∈ implicit.blocks w.heap, w.heap.free a = true) →
      ∃ a ∈ implicit.blocks w.heap, w.heap.free a = true ∧
        (∀ b ∈ implicit.blocks w.heap, w.heap.free b = true → w.heap.size b ≤ w.heap.size a) ∧
        IsGreatest {n | ∃ lo, Unused sizeofHeader poolSize w.heap.size
          (fun b => b + sizeofHeader ∈ w.live) lo n} (sizeofHeader + w.heap.size a)) ∧
    (w.live = [] → implicit.blocks w.heap = [0] ∧ w.heap.free 0 = true ∧
      w.heap.size 0 = poolSize - sizeofHeader) := by
  have inv := rules.run_inv (init_inv garbage) run
  exact ⟨inv.heap.apart, rules.longest inv, rules.idle inv⟩

theorem main_joins_all :
    implicit.blocks (World.after implicit (initMemory zeroed) (mainAllocs ++ mainFrees)).heap =
      [0] :=
  ((free_space_joined zeroed (mainAllocs ++ mainFrees) _ (after_run (by decide))).2.2
    (by decide)).1

end LearnC.FreeList.Implicit
