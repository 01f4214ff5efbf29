import Mathlib.Algebra.GroupWithZero.Nat
import LearnC.Machine.Linked
import LearnC.Machine.Run
import LearnC.Machine.SizeClass
import LearnC.Machine.Tiling

/-! The segregated-fits allocator, `3.segregated_fits.c`. A pointer into the
pool is its offset from `memory_pool`; sizes and offsets are those of a 64-bit
machine. -/

namespace LearnC.SegFits

def poolSize : Nat := 1024 * 32

def numClasses : Nat := 5

def classLimits : List Nat := [32, 64, 128, 256, 1024]

/-- `sizeof(Block)`. -/
def sizeofBlock : Nat := 32

/-- `ALIGN4` on `size_t`: the sum wraps, and `& ~3` clears the two low bits. -/
def align4 (x : Nat) : Nat := (x + 3) % 2 ^ 64 / 4 * 4

structure Block where
  size : Nat
  free : Bool
  next : Option Nat
  prev : Option Nat

/-- The block headers in the pool, by offset, and the bins. -/
structure Heap where
  mem : Nat → Block
  classBins : Nat → Option Nat

namespace Heap

def size (h : Heap) (a : Nat) : Nat := (h.mem a).size
def free (h : Heap) (a : Nat) : Bool := (h.mem a).free
def next (h : Heap) (a : Nat) : Option Nat := (h.mem a).next
def prev (h : Heap) (a : Nat) : Option Nat := (h.mem a).prev

def set (h : Heap) (a : Nat) (b : Block) : Heap := { h with mem := Function.update h.mem a b }

def setSize (h : Heap) (a size : Nat) : Heap := h.set a { h.mem a with size := size }
def setFree (h : Heap) (a : Nat) (free : Bool) : Heap := h.set a { h.mem a with free := free }
def setNext (h : Heap) (a : Nat) (next : Option Nat) : Heap := h.set a { h.mem a with next := next }
def setPrev (h : Heap) (a : Nat) (prev : Option Nat) : Heap := h.set a { h.mem a with prev := prev }

/-- `if (p) p->next = v`. -/
def setNextVia (h : Heap) (p v : Option Nat) : Heap :=
  match p with
  | some a => h.setNext a v
  | none => h

/-- `if (p) p->prev = v`. -/
def setPrevVia (h : Heap) (p v : Option Nat) : Heap :=
  match p with
  | some a => h.setPrev a v
  | none => h

def setBin (h : Heap) (i : Nat) (head : Option Nat) : Heap :=
  { h with classBins := Function.update h.classBins i head }

/-- The headers met by stepping from block to block. -/
def blocks (h : Heap) : List Nat := tileWalk sizeofBlock poolSize h.size poolSize 0

end Heap

/-- The pool's other bytes are whatever `malloc` left there. -/
def initMemory (garbage : Nat → Block) : Heap :=
  { mem := Function.update garbage 0 ⟨poolSize - sizeofBlock, true, none, none⟩
    classBins := Function.update (fun _ => none) (numClasses - 1) (some 0) }

/-- Requests above the last limit share the last bin. -/
def getClassId (size : Nat) : Nat := (classOf classLimits size).getD (numClasses - 1)

def addToClass (h : Heap) (block : Nat) : Heap :=
  let classId := getClassId (h.size block)
  let h := h.setNext block (h.classBins classId)
  let h := h.setPrevVia (h.classBins classId) (some block)
  let h := h.setPrev block none
  h.setBin classId (some block)

def removeFromClass (h : Heap) (block : Nat) : Heap :=
  let classId := getClassId (h.size block)
  let h := h.setNextVia (h.prev block) (h.next block)
  let h := h.setPrevVia (h.next block) (h.prev block)
  if h.classBins classId = some block then h.setBin classId (h.next block) else h

/-- The test of the inner loop. -/
def fits (h : Heap) (size curr : Nat) : Bool := h.free curr && decide (size ≤ h.size curr)

/-- The loop `while (curr)`; no result when `fuel` runs out before `NULL`. -/
def scanBin (h : Heap) (size : Nat) : Nat → Option Nat → Option (Option Nat)
  | _, none => some none
  | 0, some _ => none
  | fuel + 1, some curr =>
    if fits h size curr then some (some curr) else scanBin h size fuel (h.next curr)

/-- The loop over the bins, from bin `i` with `n` bins left. -/
def search (h : Heap) (size fuel : Nat) : Nat → Nat → Option (Option Nat)
  | 0, _ => some none
  | n + 1, i =>
    match scanBin h size fuel (h.classBins i) with
    | some none => search h size fuel n (i + 1)
    | found => found

/-- A remainder worth a header of its own. -/
def splits (h : Heap) (curr size : Nat) : Prop := h.size curr - size > sizeofBlock + 4

instance (h : Heap) (curr size : Nat) : Decidable (splits h curr size) :=
  inferInstanceAs (Decidable (_ > _))

def split (h : Heap) (curr size : Nat) : Heap :=
  let remaining := h.size curr - size
  let newBlock := curr + sizeofBlock + size
  let h := h.set newBlock ⟨remaining - sizeofBlock, true, none, none⟩
  let h := addToClass h newBlock
  h.setSize curr size

/-- What `my_malloc` does with the block it found. -/
def take (h : Heap) (curr size : Nat) : Heap :=
  let h := if splits h curr size then split h curr size else h
  let h := h.setFree curr false
  removeFromClass h curr

def myMalloc (fuel : Nat) (h : Heap) (size : Nat) : Option (Heap × Option Nat) :=
  let size := align4 size
  let classId := getClassId size
  match search h size fuel (numClasses - classId) classId with
  | none => none
  | some none => some (h, none)
  | some (some curr) => some (take h curr size, some (curr + sizeofBlock))

def myFree (h : Heap) (ptr : Option Nat) : Heap :=
  match ptr with
  | none => h
  | some ptr =>
    let block := ptr - sizeofBlock
    addToClass (h.setFree block true) block

/-! ## The allocator and its callers -/

/-- The heap with the pointers handed out and not yet given back. -/
structure World where
  heap : Heap
  live : List Nat

def World.init (garbage : Nat → Block) : World := ⟨initMemory garbage, []⟩

inductive Op where
  | malloc (size : Nat)
  | free (ptr : Option Nat)

/-- One call that returns; the callers free live pointers or `NULL`. -/
inductive Step : World → Op → World → Prop
  | malloc {w : World} {size fuel : Nat} {h : Heap} {r : Option Nat} (fit : size < 2 ^ 64)
      (ret : myMalloc fuel w.heap size = some (h, r)) :
      Step w (.malloc size) ⟨h, r.toList ++ w.live⟩
  | free {w : World} {ptr : Nat} (live : ptr ∈ w.live) :
      Step w (.free (some ptr)) ⟨myFree w.heap (some ptr), w.live.erase ptr⟩
  | freeNull {w : World} : Step w (.free none) w

/-! ## What the operations write -/

section
variable {h : Heap} {a b j : Nat} {p : Option Nat}

@[simp] theorem set_classBins (blk : Block) : (h.set a blk).classBins = h.classBins := rfl
@[simp] theorem setSize_classBins (v : Nat) : (h.setSize a v).classBins = h.classBins := rfl
@[simp] theorem setFree_classBins (v : Bool) : (h.setFree a v).classBins = h.classBins := rfl
@[simp] theorem setNext_classBins (v : Option Nat) : (h.setNext a v).classBins = h.classBins := rfl
@[simp] theorem setPrev_classBins (v : Option Nat) : (h.setPrev a v).classBins = h.classBins := rfl
@[simp] theorem setBin_classBins (v : Option Nat) :
    (h.setBin j v).classBins = Function.update h.classBins j v := rfl
@[simp] theorem setNextVia_classBins (v : Option Nat) :
    (h.setNextVia p v).classBins = h.classBins := by cases p <;> rfl
@[simp] theorem setPrevVia_classBins (v : Option Nat) :
    (h.setPrevVia p v).classBins = h.classBins := by cases p <;> rfl

@[simp] theorem set_fields (blk : Block) :
    (h.set a blk).size b = (if b = a then blk.size else h.size b) ∧
    (h.set a blk).free b = (if b = a then blk.free else h.free b) ∧
    (h.set a blk).next b = (if b = a then blk.next else h.next b) ∧
    (h.set a blk).prev b = (if b = a then blk.prev else h.prev b) := by
  by_cases e : b = a <;> simp [Heap.set, Heap.size, Heap.free, Heap.next, Heap.prev, e]

@[simp] theorem setSize_fields (v : Nat) :
    (h.setSize a v).size b = (if b = a then v else h.size b) ∧
    (h.setSize a v).free b = h.free b ∧ (h.setSize a v).next b = h.next b ∧
    (h.setSize a v).prev b = h.prev b := by
  by_cases e : b = a <;>
    simp [Heap.setSize, Heap.set, Heap.size, Heap.free, Heap.next, Heap.prev, e]

@[simp] theorem setFree_fields (v : Bool) :
    (h.setFree a v).size b = h.size b ∧
    (h.setFree a v).free b = (if b = a then v else h.free b) ∧
    (h.setFree a v).next b = h.next b ∧ (h.setFree a v).prev b = h.prev b := by
  by_cases e : b = a <;>
    simp [Heap.setFree, Heap.set, Heap.size, Heap.free, Heap.next, Heap.prev, e]

@[simp] theorem setNext_fields (v : Option Nat) :
    (h.setNext a v).size b = h.size b ∧ (h.setNext a v).free b = h.free b ∧
    (h.setNext a v).next b = (if b = a then v else h.next b) ∧
    (h.setNext a v).prev b = h.prev b := by
  by_cases e : b = a <;>
    simp [Heap.setNext, Heap.set, Heap.size, Heap.free, Heap.next, Heap.prev, e]

@[simp] theorem setPrev_fields (v : Option Nat) :
    (h.setPrev a v).size b = h.size b ∧ (h.setPrev a v).free b = h.free b ∧
    (h.setPrev a v).next b = h.next b ∧
    (h.setPrev a v).prev b = if b = a then v else h.prev b := by
  by_cases e : b = a <;>
    simp [Heap.setPrev, Heap.set, Heap.size, Heap.free, Heap.next, Heap.prev, e]

@[simp] theorem setNextVia_fields (v : Option Nat) :
    (h.setNextVia p v).size b = h.size b ∧ (h.setNextVia p v).free b = h.free b ∧
    (h.setNextVia p v).next b = (if p = some b then v else h.next b) ∧
    (h.setNextVia p v).prev b = h.prev b := by
  cases p <;> simp [Heap.setNextVia, eq_comm]

@[simp] theorem setPrevVia_fields (v : Option Nat) :
    (h.setPrevVia p v).size b = h.size b ∧ (h.setPrevVia p v).free b = h.free b ∧
    (h.setPrevVia p v).next b = h.next b ∧
    (h.setPrevVia p v).prev b = if p = some b then v else h.prev b := by
  cases p <;> simp [Heap.setPrevVia, eq_comm]

@[simp] theorem setBin_fields (v : Option Nat) :
    (h.setBin j v).size b = h.size b ∧ (h.setBin j v).free b = h.free b ∧
    (h.setBin j v).next b = h.next b ∧ (h.setBin j v).prev b = h.prev b :=
  ⟨rfl, rfl, rfl, rfl⟩

/-- `add_to_class` makes the block the head of its bin; the old head answers to it. -/
@[simp] theorem addToClass_fields :
    (addToClass h a).size b = h.size b ∧ (addToClass h a).free b = h.free b ∧
    ((addToClass h a).next b =
      if b = a then h.classBins (getClassId (h.size a)) else h.next b) ∧
    (addToClass h a).prev b =
      if b = a then none
      else if h.classBins (getClassId (h.size a)) = some b then some a else h.prev b := by
  simp [addToClass]

@[simp] theorem addToClass_classBins :
    (addToClass h a).classBins = Function.update h.classBins (getClassId (h.size a)) (some a) := by
  simp [addToClass]

/-- `remove_from_class` joins the neighbours that the block's own fields name. -/
@[simp] theorem removeFromClass_fields :
    (removeFromClass h a).size b = h.size b ∧ (removeFromClass h a).free b = h.free b ∧
    ((removeFromClass h a).next b = if h.prev a = some b then h.next a else h.next b) ∧
    (removeFromClass h a).prev b = if h.next a = some b then h.prev a else h.prev b := by
  unfold removeFromClass
  by_cases head : h.classBins (getClassId (h.size a)) = some a <;> simp [head]

/-- It moves a head only in the bin of the block's present size. -/
theorem removeFromClass_classBins :
    (removeFromClass h a).classBins j =
      if j = getClassId (h.size a) ∧ h.classBins (getClassId (h.size a)) = some a
      then h.next a else h.classBins j := by
  unfold removeFromClass
  by_cases head : h.classBins (getClassId (h.size a)) = some a <;>
    simp [head, Function.update_apply]

end

end LearnC.SegFits
