import Mathlib.Data.List.Perm.Subperm
import LearnC.FreeList.Calls
import LearnC.Machine.Linked

/-! `2.explicit_free_list.c`: the free blocks are on a doubly linked list besides,
and requests are served from that list alone. -/

namespace LearnC.FreeList.Explicit

/-- `sizeof(Block)`. -/
def sizeofBlock : Nat := 32

structure Block where
  size : Nat
  free : Bool
  next : Option Nat
  prev : Option Nat

/-- The block headers in the pool, by offset, and the head of the free list. -/
structure Heap where
  mem : Nat → Block
  freeList : Option Nat

namespace Heap

def size (h : Heap) (a : Nat) : Nat := (h.mem a).size
def free (h : Heap) (a : Nat) : Bool := (h.mem a).free
def next (h : Heap) (a : Nat) : Option Nat := (h.mem a).next
def prev (h : Heap) (a : Nat) : Option Nat := (h.mem a).prev

def set (h : Heap) (a : Nat) (b : Block) : Heap := { h with mem := Function.update h.mem a b }

def setSize (h : Heap) (a size : Nat) : Heap := h.set a { h.mem a with size := size }
def setFree (h : Heap) (a : Nat) (free : Bool) : Heap := h.set a { h.mem a with free := free }
def setNext (h : Heap) (a : Nat) (next : Option Nat) : Heap := h.set a { h.mem a with next := next }
def setPrev (h : Heap) (a : Nat) (prev : Option Nat) : Heap := h.set a { h.mem a with prev := prev }

/-- `if (p) p->next = v`. -/
def setNextVia (h : Heap) (p v : Option Nat) : Heap :=
  match p with
  | some a => h.setNext a v
  | none => h

/-- `if (p) p->prev = v`. -/
def setPrevVia (h : Heap) (p v : Option Nat) : Heap :=
  match p with
  | some a => h.setPrev a v
  | none => h

def setFreeList (h : Heap) (head : Option Nat) : Heap := { h with freeList := head }

end Heap

/-- The pool's other bytes are whatever `malloc` left there. -/
def initMemory (garbage : Nat → Block) : Heap :=
  { mem := Function.update garbage 0 ⟨poolSize - sizeofBlock, true, none, none⟩
    freeList := some 0 }

def removeFromFreeList (h : Heap) (block : Nat) : Heap :=
  let h := h.setNextVia (h.prev block) (h.next block)
  let h := h.setPrevVia (h.next block) (h.prev block)
  if h.freeList = some block then h.setFreeList (h.next block) else h

def addToFreeList (h : Heap) (block : Nat) : Heap :=
  let h := h.setNext block h.freeList
  let h := h.setPrevVia h.freeList (some block)
  let h := h.setPrev block none
  h.setFreeList (some block)

/-- The test of the loop of `my_malloc`. -/
def fits (h : Heap) (size curr : Nat) : Bool := h.free curr && decide (size ≤ h.size curr)

/-- What `my_malloc` does with the block it found. -/
def take (h : Heap) (curr size : Nat) : Heap :=
  let h :=
    -- The sum does not wrap: `size` is at most `curr->size` here.
    if h.size curr > size + sizeofBlock + 4 then
      let newBlock := curr + sizeofBlock + size
      let h := h.set newBlock ⟨h.size curr - size - sizeofBlock, true, none, none⟩
      let h := addToFreeList h newBlock
      h.setSize curr size
    else h
  let h := h.setFree curr false
  removeFromFreeList h curr

def myMalloc (h : Heap) (size : Nat) : Option (Heap × Option Nat) :=
  let size := align4 size
  match chainFind h.next (fits h size) turns h.freeList with
  | none => none
  | some none => some (h, none)
  | some (some curr) => some (take h curr size, some (curr + sizeofBlock))

/-- `remove_from_free_list(next)`, then `curr->size += sizeof(Block) + next->size`. -/
def join (h : Heap) (curr next : Nat) : Heap :=
  let h := removeFromFreeList h next
  h.setSize curr (h.size curr + (sizeofBlock + h.size next))

def myFree (h : Heap) (ptr : Option Nat) : Option Heap :=
  match ptr with
  | none => some h
  | some ptr =>
    let block := ptr - sizeofBlock
    let h := addToFreeList (h.setFree block true) block
    coalesce sizeofBlock poolSize Heap.size Heap.free join turns h 0

/-- The lines that `print_state` prints: the size of each block, and whether it is free. -/
def printState (h : Heap) : Option (List (Nat × Bool)) :=
  (listBlocks sizeofBlock poolSize h.size turns 0).map fun blocks =>
    blocks.map fun a => (h.size a, h.free a)

def explicit : Program Heap Block where
  hdr := sizeofBlock
  size := Block.size
  isFree := Block.free
  mem := Heap.mem
  setMem h mem := { h with mem := mem }
  malloc := myMalloc
  free := myFree

/-! ## What the operations write -/

section
variable {h h' : Heap} {a b c n size : Nat} {p : Option Nat}

@[simp] theorem set_freeList (blk : Block) : (h.set a blk).freeList = h.freeList := rfl
@[simp] theorem setSize_freeList (v : Nat) : (h.setSize a v).freeList = h.freeList := rfl
@[simp] theorem setFree_freeList (v : Bool) : (h.setFree a v).freeList = h.freeList := rfl
@[simp] theorem setNext_freeList (v : Option Nat) : (h.setNext a v).freeList = h.freeList := rfl
@[simp] theorem setPrev_freeList (v : Option Nat) : (h.setPrev a v).freeList = h.freeList := rfl
@[simp] theorem setFreeList_freeList (v : Option Nat) : (h.setFreeList v).freeList = v := rfl
@[simp] theorem setNextVia_freeList (v : Option Nat) :
    (h.setNextVia p v).freeList = h.freeList := by cases p <;> rfl
@[simp] theorem setPrevVia_freeList (v : Option Nat) :
    (h.setPrevVia p v).freeList = h.freeList := by cases p <;> rfl

@[simp] theorem set_fields (blk : Block) :
    (h.set a blk).size b = (if b = a then blk.size else h.size b) ∧
    (h.set a blk).free b = (if b = a then blk.free else h.free b) ∧
    (h.set a blk).next b = (if b = a then blk.next else h.next b) ∧
    (h.set a blk).prev b = (if b = a then blk.prev else h.prev b) := by
  by_cases e : b = a <;> simp [Heap.set, Heap.size, Heap.free, Heap.next, Heap.prev, e]

@[simp] theorem setSize_fields (v : Nat) :
    (h.setSize a v).size b = (if b = a then v else h.size b) ∧
    (h.setSize a v).free b = h.free b ∧ (h.setSize a v).next b = h.next b ∧
    (h.setSize a v).prev b = h.prev b := by
  by_cases e : b = a <;>
    simp [Heap.setSize, Heap.set, Heap.size, Heap.free, Heap.next, Heap.prev, e]

@[simp] theorem setFree_fields (v : Bool) :
    (h.setFree a v).size b = h.size b ∧
    (h.setFree a v).free b = (if b = a then v else h.free b) ∧
    (h.setFree a v).next b = h.next b ∧ (h.setFree a v).prev b = h.prev b := by
  by_cases e : b = a <;>
    simp [Heap.setFree, Heap.set, Heap.size, Heap.free, Heap.next, Heap.prev, e]

@[simp] theorem setNext_fields (v : Option Nat) :
    (h.setNext a v).size b = h.size b ∧ (h.setNext a v).free b = h.free b ∧
    (h.setNext a v).next b = (if b = a then v else h.next b) ∧
    (h.setNext a v).prev b = h.prev b := by
  by_cases e : b = a <;>
    simp [Heap.setNext, Heap.set, Heap.size, Heap.free, Heap.next, Heap.prev, e]

@[simp] theorem setPrev_fields (v : Option Nat) :
    (h.setPrev a v).size b = h.size b ∧ (h.setPrev a v).free b = h.free b ∧
    (h.setPrev a v).next b = h.next b ∧
    (h.setPrev a v).prev b = if b = a then v else h.prev b := by
  by_cases e : b = a <;>
    simp [Heap.setPrev, Heap.set, Heap.size, Heap.free, Heap.next, Heap.prev, e]

@[simp] theorem setNextVia_fields (v : Option Nat) :
    (h.setNextVia p v).size b = h.size b ∧ (h.setNextVia p v).free b = h.free b ∧
    (h.setNextVia p v).next b = (if p = some b then v else h.next b) ∧
    (h.setNextVia p v).prev b = h.prev b := by
  cases p <;> simp [Heap.setNextVia, eq_comm]

@[simp] theorem setPrevVia_fields (v : Option Nat) :
    (h.setPrevVia p v).size b = h.size b ∧ (h.setPrevVia p v).free b = h.free b ∧
    (h.setPrevVia p v).next b = h.next b ∧
    (h.setPrevVia p v).prev b = if p = some b then v else h.prev b := by
  cases p <;> simp [Heap.setPrevVia, eq_comm]

@[simp] theorem setFreeList_fields (v : Option Nat) :
    (h.setFreeList v).size b = h.size b ∧ (h.setFreeList v).free b = h.free b ∧
    (h.setFreeList v).next b = h.next b ∧ (h.setFreeList v).prev b = h.prev b :=
  ⟨rfl, rfl, rfl, rfl⟩

/-- `add_to_free_list` makes the block the head; the old head answers to it. -/
@[simp] theorem addToFreeList_fields :
    (addToFreeList h a).size b = h.size b ∧ (addToFreeList h a).free b = h.free b ∧
    (addToFreeList h a).next b = (if b = a then h.freeList else h.next b) ∧
    (addToFreeList h a).prev b =
      if b = a then none else if h.freeList = some b then some a else h.prev b := by
  simp [addToFreeList]

@[simp] theorem addToFreeList_freeList : (addToFreeList h a).freeList = some a := by
  simp [addToFreeList]

/-- `remove_from_free_list` joins the neighbours that the block's own fields name. -/
@[simp] theorem removeFromFreeList_fields :
    (removeFromFreeList h a).size b = h.size b ∧ (removeFromFreeList h a).free b = h.free b ∧
    (removeFromFreeList h a).next b = (if h.prev a = some b then h.next a else h.next b) ∧
    (removeFromFreeList h a).prev b = if h.next a = some b then h.prev a else h.prev b := by
  by_cases head : h.freeList = some a <;> simp [removeFromFreeList, head]

@[simp] theorem removeFromFreeList_freeList : (removeFromFreeList h a).freeList =
    if h.freeList = some a then h.next a else h.freeList := by
  by_cases head : h.freeList = some a <;> simp [removeFromFreeList, head]

@[simp] theorem sizeAt_eq : explicit.sizeAt h = h.size := rfl
@[simp] theorem freeAt_eq : explicit.freeAt h = h.free := rfl
@[simp] theorem hdr_eq : explicit.hdr = sizeofBlock := rfl

theorem splits_iff : Splits explicit h c n ↔ h.size c > n + sizeofBlock + 4 := by
  rw [show Splits explicit h c n ↔ sizeofBlock + 4 < h.size c - n from Iff.rfl]
  omega

/-- A block that is handed out keeps the bytes asked for, and the rest of it, if
worth a header, is a free block behind it. -/
theorem take_cut (h : Heap) (c n : Nat) : Cut explicit h (take h c n) c n where
  whole room b := by
    rw [splits_iff] at room
    simp [take, room]
  sizes room b := by
    rw [splits_iff] at room
    by_cases e : b = c <;> by_cases e' : b = c + sizeofBlock + n <;> simp [take, room, e, e']
  marks b := by
    by_cases room : h.size c > n + sizeofBlock + 4 <;> simp [take, splits_iff, room]

/-! ## The free list -/

/-- The free list is a doubly linked list of the blocks in `P`. -/
def Lists (h : Heap) (P : Nat → Prop) : Prop := Linked h.next h.prev h.freeList P

variable {P Q : Nat → Prop}

theorem Lists.congr (L : Lists h P) (head : h'.freeList = h.freeList)
    (next : ∀ a, P a → h'.next a = h.next a) (prev : ∀ a, P a → h'.prev a = h.prev a)
    (iff : ∀ a, P a ↔ Q a) : Lists h' Q := by
  rw [Lists, head]
  exact Linked.congr L next prev iff

theorem Lists.add (L : Lists h P) (new : ¬ P a) (iff : ∀ b, Q b ↔ b = a ∨ P b) :
    Lists (addToFreeList h a) Q := by
  have away {b : Nat} (hb : P b) : b ≠ a := fun e => new (e ▸ hb)
  rw [Lists, addToFreeList_freeList]
  apply Linked.push L new (by simp) (by simp) _ _ _ iff
  · intro b hb
    rw [Lists, hb] at L
    simp [away L.head_mem, hb]
  · intro b hb
    simp [away hb]
  · intro b hb head
    simp [away hb, head]

theorem Lists.remove (L : Lists h P) (ha : P a) (iff : ∀ b, Q b ↔ b ≠ a ∧ P b) :
    Lists (removeFromFreeList h a) Q := by
  rw [Lists, removeFromFreeList_freeList]
  exact Linked.unlink L ha (fun _ _ _ => removeFromFreeList_fields.2.2.1)
    (fun _ _ _ => removeFromFreeList_fields.2.2.2) iff

/-- The blocks of the walk whose `free` is set. -/
def Free (h : Heap) (a : Nat) : Prop := a ∈ explicit.blocks h ∧ h.free a = true

/-- What holds of the heap in every run. -/
structure Sound (h : Heap) : Prop where
  tidy : Tidy explicit h
  lists : Lists h (Free h)

/-- The search of the free list comes to its first block that fits, or to the end. -/
theorem search_eq (s : Sound h) (n : Nat) :
    ∃ xs : List Nat, (∀ a, a ∈ xs ↔ Free h a) ∧
      chainFind h.next (fits h n) turns h.freeList = some (xs.find? (fits h n)) := by
  obtain ⟨xs, chain, _, nodup, mem⟩ := s.lists
  refine ⟨xs, mem, chain.find ?_⟩
  have sub : List.Subperm xs (explicit.blocks h) :=
    List.subperm_of_subset nodup fun a ha => ((mem a).mp ha).1
  have bound : (explicit.blocks h).length ≤ poolSize := by
    simpa using s.tidy.tiles.length_le (by decide)
  exact (sub.length_le.trans bound).trans (Nat.le_succ poolSize)

/-- The blocks that are free once `c` is taken. -/
theorem take_free (s : Sound h) (hc : Free h c) (fit : n ≤ h.size c) (b : Nat) :
    Free (take h c n) b ↔
      b ≠ c ∧ ((Splits explicit h c n ∧ b = c + sizeofBlock + n) ∨ Free h b) := by
  obtain ⟨_, _, mem⟩ := (take_cut h c n).takes (by decide) s.tidy hc.1 hc.2 fit
  have marks : (take h c n).free b = _ := (take_cut h c n).marks b
  rw [Free, Free, mem, marks]
  by_cases hbc : b = c
  · simp [hbc]
  · by_cases hbn : Splits explicit h c n ∧ b = c + sizeofBlock + n
    · simp [hbn]
    · simp only [hdr_eq, freeAt_eq, hbc, hbn, false_or, ↓reduceIte, ne_eq, not_false_eq_true,
        true_and]

/-- Taking a block: the rest of it goes on the list before the block itself leaves it. -/
theorem take_sound (s : Sound h) (hc : Free h c) (fit : n ≤ h.size c) : Sound (take h c n) := by
  obtain ⟨T, _, _⟩ := (take_cut h c n).takes (by decide) s.tidy hc.1 hc.2 fit
  refine ⟨T, ?_⟩
  by_cases room : Splits explicit h c n
  · have fresh : c + sizeofBlock + n ∉ explicit.blocks h := s.tidy.fresh (by decide) hc.1 room
    let rest : Block := ⟨h.size c - n - sizeofBlock, true, none, none⟩
    have start : Lists (h.set (c + sizeofBlock + n) rest) (Free h) := by
      refine s.lists.congr rfl (fun a ha => ?_) (fun a ha => ?_) fun _ => Iff.rfl <;>
      · have : a ≠ c + sizeofBlock + n := fun e => fresh (e ▸ ha.1)
        simp [this]
    have added := start.add (a := c + sizeofBlock + n) (fun hn => fresh hn.1) fun _ => Iff.rfl
    have cut : Lists (((addToFreeList (h.set (c + sizeofBlock + n) rest)
        (c + sizeofBlock + n)).setSize c n).setFree c false) _ :=
      added.congr rfl (by simp) (by simp) fun _ => Iff.rfl
    have removed := cut.remove (Or.inr hc) fun _ => Iff.rfl
    have eq : take h c n = removeFromFreeList (((addToFreeList (h.set (c + sizeofBlock + n) rest)
        (c + sizeofBlock + n)).setSize c n).setFree c false) c := by
      simp [take, splits_iff.mp room, rest]
    rw [← eq] at removed
    exact removed.congr rfl (fun _ _ => rfl) (fun _ _ => rfl)
      fun b => by simp only [take_free s hc fit, room, true_and]
  · have marked : Lists (h.setFree c false) (Free h) :=
      s.lists.congr rfl (by simp) (by simp) fun _ => Iff.rfl
    have removed := marked.remove hc fun _ => Iff.rfl
    have eq : take h c n = removeFromFreeList (h.setFree c false) c := by
      simp [take, mt splits_iff.mpr room]
    rw [← eq] at removed
    exact removed.congr rfl (fun _ _ => rfl) (fun _ _ => rfl)
      fun b => by simp only [take_free s hc fit, room, false_and, false_or]

theorem malloc_spec (s : Sound h) (size : Nat) :
    (Full explicit h (align4 size) ∧ myMalloc h size = some (h, none)) ∨
    ∃ h' c, myMalloc h size = some (h', some (c + sizeofBlock)) ∧ Sound h' ∧
      Takes explicit h h' c (align4 size) := by
  obtain ⟨xs, mem, search⟩ := search_eq s (align4 size)
  cases found : xs.find? (fits h (align4 size)) with
  | none =>
    rw [found] at search
    refine Or.inl ⟨?_, by simp [myMalloc, search]⟩
    intro a ha free
    have free' : h.free a = true := free
    have nofit := List.find?_eq_none.mp found a ((mem a).mpr ⟨ha, free⟩)
    simpa [fits, free'] using nofit
  | some c =>
    rw [found] at search
    have hc := (mem c).mp (List.mem_of_find?_eq_some found)
    have fit := List.find?_some found
    simp only [fits, Bool.and_eq_true, decide_eq_true_eq] at fit
    obtain ⟨_, takes, _⟩ := (take_cut h c (align4 size)).takes (by decide) s.tidy hc.1 hc.2 fit.2
    exact Or.inr ⟨take h c (align4 size), c, by simp [myMalloc, search],
      take_sound s hc fit.2, takes⟩

/-- Joining two free neighbours takes the second off the list. -/
theorem join_joins : Joins sizeofBlock poolSize Heap.size Heap.free join
    fun h xs => Lists h fun a => a ∈ xs ∧ h.free a = true where
  sizes h a b c := by simp [join]
  marks h a b c := by simp [join]
  inv h ys a b zs t L _ free := by
    have once : b ∉ ys ++ a :: zs := by
      have nodup := t.nodup (by decide)
      rw [List.append_cons] at nodup
      simpa using (List.nodup_cons.mp (List.nodup_middle.mp nodup)).1
    have removed : Lists (removeFromFreeList h b)
        fun c => c ∈ ys ++ a :: zs ∧ h.free c = true := by
      apply L.remove ⟨by simp, free⟩
      intro c
      constructor
      · rintro ⟨hc, hf⟩
        refine ⟨fun e => once (e ▸ hc), ?_, hf⟩
        simp at hc ⊢
        tauto
      · rintro ⟨ne, hc, hf⟩
        refine ⟨?_, hf⟩
        simp [ne] at hc ⊢
        tauto
    exact removed.congr (by simp [join]) (by simp [join]) (by simp [join]) (by simp [join])

theorem free_spec (s : Sound h) (ha : explicit.Used h a) :
    ∃ h', myFree h (some (a + sizeofBlock)) = some h' ∧ Sound h' ∧ Frees explicit h h' a := by
  have used : h.free a = false := ha.2
  let h₁ := addToFreeList (h.setFree a true) a
  have sizes : ∀ b, h₁.size b = h.size b := by simp [h₁]
  have marks : ∀ b, h₁.free b = if b = a then true else h.free b := by simp [h₁]
  have t : Tiles sizeofBlock poolSize h₁.size 0 (explicit.blocks h) :=
    s.tidy.tiles.congr fun b _ => sizes b
  have start : Lists (h.setFree a true) (Free h) :=
    s.lists.congr rfl (by simp) (by simp) fun _ => Iff.rfl
  have listed : Lists h₁ fun b => b ∈ explicit.blocks h ∧ h₁.free b = true := by
    apply start.add
    · rintro ⟨_, free⟩
      cases used.symm.trans free
    · intro b
      rw [marks, Free]
      by_cases e : b = a
      · simp [e, ha.1]
      · simp [e]
  obtain ⟨h', xs, ret, lists, joined⟩ := coalesce_region join_joins (by decide) (by decide) t
    listed (show poolSize < turns by decide)
  have joined : Coalesces explicit.hdr poolSize explicit.sizeAt explicit.freeAt
      h₁ h' (explicit.blocks h) xs := joined
  obtain ⟨blocks, T', frees⟩ := Frees.of_coalesces (by decide) joined sizes marks
  refine ⟨h', by simpa [myFree] using ret, ⟨T', ?_⟩, frees⟩
  exact lists.congr rfl (fun _ _ => rfl) (fun _ _ => rfl) fun b => by rw [Free, blocks]

theorem rules : Rules explicit Sound where
  pos := by decide
  mem_setMem _ _ := rfl
  tidy _ s := s.tidy
  malloc _ size s := malloc_spec s size
  free _ _ s ha := free_spec s ha
  freeNull _ := rfl
  write h mem s same := by
    obtain ⟨T', blocks, _, _⟩ := s.tidy.same_headers (by decide) (explicit.setMem h mem) same
    refine ⟨T', s.lists.congr rfl ?_ ?_ ?_⟩
    · intro a ha
      exact congrArg Block.next (same a ha.1)
    · intro a ha
      exact congrArg Block.prev (same a ha.1)
    · intro a
      rw [Free, Free, blocks]
      apply and_congr_right
      intro ha
      have marks : (explicit.setMem h mem).free a = h.free a := congrArg Block.free (same a ha)
      rw [marks]

theorem init_inv (garbage : Nat → Block) :
    Inv explicit Sound (World.start (initMemory garbage)) := by
  obtain ⟨blocks, tidy, held⟩ := start_inv (show explicit.hdr < poolSize by decide) (by decide)
    (show explicit.sizeAt (initMemory garbage) 0 = _ by simp [initMemory, Heap.size])
    (by simp [initMemory, Heap.free])
  refine ⟨⟨tidy, [0], ?_, ?_, List.nodup_singleton 0, ?_⟩, held⟩
  · simp [World.start, initMemory, Heap.next]
  · simp [World.start, initMemory, Back, Heap.prev]
  · intro a
    rw [World.start, Free, blocks, List.mem_singleton]
    constructor
    · rintro rfl
      exact ⟨rfl, by simp [initMemory, Heap.free]⟩
    · exact And.left

/-- A list of one block. -/
theorem Lists.singleton (L : Lists h P) (iff : ∀ b, P b ↔ b = a) :
    Chain h.next h.freeList [a] := by
  obtain ⟨xs, chain, _, nodup, mem⟩ := L
  have perm : xs.Perm [a] := by
    rw [List.perm_ext_iff_of_nodup nodup (List.nodup_singleton a)]
    intro b
    rw [mem, iff, List.mem_singleton]
  rwa [List.perm_singleton.mp perm] at chain

end

/-- In every run the free list holds exactly the free blocks of the walk, so that
`my_malloc` gives up, and changes nothing, exactly when none of them is large enough. -/
theorem free_list_exact (garbage : Nat → Block) (ops : List Op) (w : World Heap)
    (run : Run (Step explicit) (World.start (initMemory garbage)) ops w) :
    Linked w.heap.next w.heap.prev w.heap.freeList
      (fun a => a ∈ explicit.blocks w.heap ∧ w.heap.free a = true) ∧
    ∀ size, ∃ h r, myMalloc w.heap size = some (h, r) ∧
      (r = none ↔ ¬ ∃ a ∈ explicit.blocks w.heap,
        w.heap.free a = true ∧ align4 size ≤ w.heap.size a) ∧
      (r = none → h = w.heap) := by
  have inv := rules.run_inv (init_inv garbage) run
  refine ⟨inv.heap.lists, ?_⟩
  intro size
  rcases malloc_spec inv.heap size with ⟨full, ret⟩ | ⟨h, c, ret, _, takes⟩
  · refine ⟨w.heap, none, ret, ⟨fun _ => ?_, fun _ => rfl⟩, fun _ => rfl⟩
    rintro ⟨a, ha, free, fit⟩
    exact absurd (full a ha free) (Nat.not_lt.mpr fit)
  · refine ⟨h, some (c + sizeofBlock), ret, ⟨?_, fun none => ?_⟩, ?_⟩
    · intro e
      cases e
    · exact absurd ⟨c, takes.mem, takes.free, takes.fits⟩ none
    · intro e
      cases e

/-- A pool whose bytes were zero. -/
def zeroed : Nat → Block := fun _ => ⟨0, false, none, none⟩

/-- The calls of `main`. -/
def mainAllocs : List Op := [.malloc 128, .malloc 256, .malloc 64]

def mainFrees : List Op := [.free (some 192), .free (some 32), .free (some 480)]

theorem main_list_exact :
    Linked (World.after explicit (initMemory zeroed) mainAllocs).heap.next
      (World.after explicit (initMemory zeroed) mainAllocs).heap.prev
      (World.after explicit (initMemory zeroed) mainAllocs).heap.freeList
      (fun a => a ∈ explicit.blocks (World.after explicit (initMemory zeroed) mainAllocs).heap ∧
        (World.after explicit (initMemory zeroed) mainAllocs).heap.free a = true) :=
  (free_list_exact zeroed mainAllocs _ (after_run (by decide))).1

/-- In every run the blocks tile the pool, no two neighbours are free, the
allocations lie apart and keep their sizes until freed, and when there are none the
pool is one free block, alone on the free list. -/
theorem heap_joined (garbage : Nat → Block) (ops : List Op) (w : World Heap)
    (run : Run (Step explicit) (World.start (initMemory garbage)) ops w) :
    Tiles sizeofBlock poolSize w.heap.size 0 (explicit.blocks w.heap) ∧
    Held sizeofBlock (explicit.Used w.heap) w.live ∧
    Separate sizeofBlock poolSize w.heap.size (explicit.blocks w.heap) w.live ∧
    (∀ later w' p, Run (Step explicit) w later w' → p ∈ w.live →
      (∀ op ∈ later, op ≠ .free (some p)) →
      p ∈ w'.live ∧ w'.heap.size (p - sizeofBlock) = w.heap.size (p - sizeofBlock)) ∧
    Coalesced sizeofBlock w.heap.size w.heap.free (explicit.blocks w.heap) ∧
    (∀ ptr ∈ w.live, ∃ h, myFree w.heap (some ptr) = some h) ∧
    (w.live = [] → explicit.blocks w.heap = [0] ∧ w.heap.free 0 = true ∧
      w.heap.size 0 = poolSize - sizeofBlock ∧ Chain w.heap.next w.heap.freeList [0]) := by
  have inv := rules.run_inv (init_inv garbage) run
  refine ⟨inv.heap.tidy.tiles, inv.held, rules.separate inv,
    fun later w' p run' => rules.run_keeps inv run', inv.heap.tidy.apart, ?_, ?_⟩
  · intro ptr hp
    obtain ⟨a, ha, rfl⟩ := inv.block hp
    obtain ⟨h, ret, _⟩ := free_spec inv.heap ha
    exact ⟨h, ret⟩
  · intro idle
    obtain ⟨blocks, free, size⟩ := rules.idle inv idle
    refine ⟨blocks, free, size, inv.heap.lists.singleton ?_⟩
    intro b
    rw [Free, blocks, List.mem_singleton]
    exact ⟨And.left, fun e => ⟨e, e ▸ free⟩⟩

theorem main_leaves_one_block :
    explicit.blocks (World.after explicit (initMemory zeroed) (mainAllocs ++ mainFrees)).heap =
      [0] := by
  obtain ⟨_, _, _, _, _, _, idle⟩ :=
    heap_joined zeroed (mainAllocs ++ mainFrees) _ (after_run (by decide))
  exact (idle (by decide)).1

end LearnC.FreeList.Explicit
