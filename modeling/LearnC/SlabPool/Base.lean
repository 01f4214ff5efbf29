import LearnC.Machine.SwapRemove
import LearnC.SlabPool.Calls
import LearnC.SlabPool.Places

/-! `1.base`: the pool whose block descriptors stand apart from the buffers they
describe. -/

namespace LearnC.SlabPool.Base

/-- After the three fields of a `Span`. Of `backtrace` the first `bt_size` entries count. -/
structure Block extends Span where
  next : Option Addr
  backtrace : List Addr

structure Slab where
  chunkSize : Nat
  freeList : Option Addr
  total : UInt64
  inUse : UInt64

/-- The pool's static variables, and the two kinds of object it allocates:
buffers and descriptors. `active_count` is the length of `activeBlocks`. -/
structure Pool where
  mem : Memory
  desc : Finmap fun _ : Addr => Block
  slabs : Nat → Slab
  activeBlocks : List Addr
  activeCapacity : Nat

/-- What `mem_pool_free` prints. -/
inductive Message where
  | invalid
  | overflow (size : Nat)
  deriving DecidableEq

def slabIndex (size : Nat) : Option Nat := classOf slabSizes size

namespace Pool

def next (s : Pool) (b : Addr) : Option Addr := (s.desc.lookup b).bind Block.next

def span (s : Pool) (b : Addr) : Option Span := (s.desc.lookup b).map Block.toSpan

def setSlab (s : Pool) (idx : Nat) (slab : Slab) : Pool :=
  { s with slabs := Function.update s.slabs idx slab }

def pushActive (s : Pool) (b : Addr) : Pool :=
  { s with
    activeCapacity :=
      if s.activeCapacity ≤ s.activeBlocks.length then
        if s.activeCapacity = 0 then 64 else s.activeCapacity * 2
      else s.activeCapacity
    activeBlocks := s.activeBlocks ++ [b] }

def removeActive (s : Pool) (b : Addr) : Pool :=
  { s with activeBlocks := removeFirst s.activeBlocks b }

/-- Nothing is allocated yet, and the static variables are zero. -/
def start : Pool := ⟨∅, ∅, fun _ => ⟨0, none, 0, 0⟩, [], 0⟩

def memPoolInit (s : Pool) : Pool :=
  { s with
    slabs := fun i =>
      if i < slabCount then { s.slabs i with chunkSize := slabSizes.getD i 0 } else s.slabs i }

/-- The branch of `mem_pool_alloc` that recycles the first block of a slab. -/
def reuse (s : Pool) (idx : Nat) (blk : Addr) : Option Pool := do
  let b ← s.desc.lookup blk
  let slab := s.slabs idx
  some (s.setSlab idx { slab with freeList := b.next, inUse := slab.inUse + 1 })

/-- The branch of `mem_pool_alloc` that makes a block. -/
def create (s : Pool) (idx : Option Nat) (size : Nat) (env : Env) : Option (Pool × Addr) := do
  let blk ← env.blk
  let raw ← env.raw
  let mem ← fillGuards (s.mem.insert raw ⟨totalSize size, env.junk⟩) raw size
  let s := { s with
    mem := mem
    desc := s.desc.insert blk ⟨⟨raw, raw + guardSize, size⟩, none, []⟩ }
  match idx with
  | some i =>
    let slab := s.slabs i
    some (s.setSlab i { slab with total := slab.total + 1 }, blk)
  | none => some (s, blk)

def take (s : Pool) (size : Nat) (env : Env) : Option (Pool × Addr) :=
  match slabIndex size with
  | some i =>
    match (s.slabs i).freeList with
    | some blk => (s.reuse i blk).map fun s => (s, blk)
    | none => s.create (some i) size env
  | none => s.create none size env

def memPoolAlloc (s : Pool) (size : Nat) (env : Env) : Option (Pool × Addr) := do
  let (s, blk) ← s.take size env
  let b ← s.desc.lookup blk
  let s := { s with
    desc := s.desc.insert blk { b with backtrace := env.trace.take maxBacktrace } }
  some (s.pushActive blk, b.userPtr)

/-- The loop of `mem_pool_free` over the active blocks. -/
def findActive (s : Pool) (ptr : Addr) : List Addr → Option (Option Addr)
  | [] => some none
  | blk :: rest => do
    let b ← s.desc.lookup blk
    if b.userPtr = ptr then some (some blk) else findActive s ptr rest

/-- Where `mem_pool_free` puts the block it has found. -/
def release (s : Pool) (blk : Addr) (b : Block) : Option Pool :=
  match slabIndex b.size with
  | some i =>
    let slab := s.slabs i
    let s := { s with desc := s.desc.insert blk { b with next := slab.freeList } }
    some (s.setSlab i { slab with freeList := some blk, inUse := slab.inUse - 1 })
  | none =>
    if b.realPtr ∈ s.mem then
      some { s with mem := s.mem.erase b.realPtr, desc := s.desc.erase blk }
    else none

def memPoolFree (s : Pool) (ptr : Option Addr) : Option (Pool × Option Message) :=
  match ptr with
  | none => some (s, none)
  | some ptr => do
    match ← s.findActive ptr s.activeBlocks with
    | none => some (s, some .invalid)
    | some found => do
      let s := s.removeActive found
      let b ← s.desc.lookup found
      let intact ← checkGuards s.mem b.realPtr (b.userPtr - b.realPtr + b.size)
      let s ← s.release found b
      some (s, if intact then none else some (.overflow b.size))

end Pool

/-- The pool after the first `mem_pool_init`. -/
def Pool.init : Pool := Pool.start.memPoolInit

def base : Program Pool where
  alloc := Pool.memPoolAlloc
  free s ptr := (s.memPoolFree ptr).map Prod.fst
  mem := Pool.mem
  setMem s mem := { s with mem := mem }
  blocks s := s.desc.keys

end LearnC.SlabPool.Base
