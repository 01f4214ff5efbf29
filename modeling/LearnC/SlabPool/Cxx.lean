import LearnC.SlabPool.Calls
import LearnC.SlabPool.Places

/-! `3.mem_pool_cxx`: the pool whose lists and table of active blocks are those of
the standard library. -/

namespace LearnC.SlabPool.Cxx

/-- After the three fields of a `Span`. Of `backtrace` the first `frames` entries count. -/
structure Block extends Span where
  backtrace : List Addr

structure Slab where
  chunkSize : Nat
  freeList : List Addr
  totalBlocks : UInt64
  allocatedBlocks : UInt64

/-- The members of `MemoryPool`, with the buffers and the `Block`s it allocates. -/
structure MemoryPool where
  mem : Memory
  blocks : Finmap fun _ : Addr => Block
  slabs : List Slab
  activeBlocks : Finmap fun _ : Addr => Addr

/-- What `deallocate` prints. -/
inductive Message where
  | invalid
  | corruption
  deriving DecidableEq

namespace MemoryPool

def span (s : MemoryPool) (b : Addr) : Option Span := (s.blocks.lookup b).map Block.toSpan

/-- The constructor. -/
def init : MemoryPool := ⟨∅, ∅, slabSizes.map fun size => ⟨size, [], 0, 0⟩, ∅⟩

def findSlabIndex (s : MemoryPool) (size : Nat) : Option Nat :=
  classOf (s.slabs.map Slab.chunkSize) size

/-- The branch of `allocate` that makes a block: its buffer has no guards yet. -/
def create (s : MemoryPool) (slabIdx : Option Nat) (size : Nat) (env : Env) :
    Option (MemoryPool × Addr) := do
  let blk ← env.blk
  let raw ← env.raw
  let s := { s with
    mem := s.mem.insert raw ⟨totalSize size, env.junk⟩
    blocks := s.blocks.insert blk ⟨⟨raw, 0, 0⟩, []⟩ }
  match slabIdx with
  | some i =>
    some ({ s with slabs := s.slabs.modify i fun slab =>
      { slab with totalBlocks := slab.totalBlocks + 1 } }, blk)
  | none => some (s, blk)

/-- Where `allocate` finds its block. -/
def take (s : MemoryPool) (size : Nat) (env : Env) : Option (MemoryPool × Addr) :=
  match s.findSlabIndex size with
  | some i => do
    let slab ← s.slabs[i]?
    match slab.freeList with
    | blk :: rest =>
      some ({ s with slabs := s.slabs.modify i fun slab =>
        { slab with freeList := rest, allocatedBlocks := slab.allocatedBlocks + 1 } }, blk)
    | [] => s.create (some i) size env
  | none => s.create none size env

/-- A block is given the new request's size, pointer and guards, old or new. -/
def allocate (s : MemoryPool) (size : Nat) (env : Env) : Option (MemoryPool × Addr) := do
  let (s, blk) ← s.take size env
  let b ← s.blocks.lookup blk
  let userPtr := b.realPtr + guardSize
  let mem ← fillGuards s.mem b.realPtr size
  some ({ s with
    mem := mem
    blocks := s.blocks.insert blk ⟨⟨b.realPtr, userPtr, size⟩, env.trace.take maxBacktrace⟩
    activeBlocks := s.activeBlocks.insert userPtr blk }, userPtr)

/-- Where `deallocate` puts a block. -/
def release (s : MemoryPool) (blk : Addr) (b : Block) : Option MemoryPool :=
  match s.findSlabIndex b.size with
  | some i =>
    some { s with slabs := s.slabs.modify i fun slab =>
      { slab with
        freeList := slab.freeList ++ [blk]
        allocatedBlocks := slab.allocatedBlocks - 1 } }
  | none =>
    if b.realPtr ∈ s.mem then
      some { s with mem := s.mem.erase b.realPtr, blocks := s.blocks.erase blk }
    else none

def deallocate (s : MemoryPool) (ptr : Option Addr) : Option (MemoryPool × Option Message) :=
  match ptr with
  | none => some (s, none)
  | some ptr =>
    match s.activeBlocks.lookup ptr with
    | none => some (s, some .invalid)
    | some blk => do
      let b ← s.blocks.lookup blk
      let intact ← checkGuards s.mem b.realPtr (b.userPtr - b.realPtr + b.size)
      let s ← { s with activeBlocks := s.activeBlocks.erase ptr }.release blk b
      some (s, if intact then none else some .corruption)

end MemoryPool

def cxx : Program MemoryPool where
  alloc := MemoryPool.allocate
  free s ptr := (s.deallocate ptr).map Prod.fst
  mem := MemoryPool.mem
  setMem s mem := { s with mem := mem }
  blocks s := s.blocks.keys

end LearnC.SlabPool.Cxx
