import Mathlib.Algebra.GroupWithZero.Nat
import LearnC.Machine.Chain
import LearnC.Machine.Memory
import LearnC.Machine.SizeClass

/-! The thread-safe pool of `2.mem_pool_c`: its blocks, and the code between and
inside its locks, which `2.upgrade` and `3.m_mem_pool` share line by line. Field
offsets are those of a 64-bit machine. -/

namespace LearnC.MemPool

def protectMagic : Nat := 0xDEADC0DEDEADC0DE

/-- `TAIL_MAGIC` as the eight bytes stored in memory. -/
def tailMagic : List UInt8 := [0xBE, 0xBA, 0xFE, 0xCA, 0xBE, 0xBA, 0xFE, 0xCA]

def maxLabelLen : Nat := 32
def maxSlabClasses : Nat := 32
def slabMinSize : Nat := 8
def slabMaxSize : Nat := 8192

/-- `sizeof(mem_blk)`. -/
def sizeofMemBlk : Nat := 216

/-- `sizeof(uint64_t)`. -/
def sizeofGuard : Nat := 8

/-- The header at the start of each buffer. Of `callstack` only the first
`frames` entries count, and of `label` the characters before its terminator. -/
structure MemBlk where
  size : Nat
  freed : Bool
  label : List UInt8
  realPtr : Addr
  next : Option Addr
  callstack : List Addr
  allocTime : Nat
  guardHead : Nat

structure SlabClass where
  blockSize : Nat
  freeList : Option Addr

/-- The pool: live buffers, the headers in them, and the roots of the lists. -/
structure Pool where
  mem : Memory
  hdr : Addr → MemBlk
  slabs : Nat → SlabClass
  slabClsCnt : Nat
  activeList : Option Addr
  debugMode : Bool
  protectMode : Bool

/-- Why a call does not return: `abort` after a message, an access outside every
live buffer, or a loop that never reaches `NULL`. -/
inductive Stop where
  | doubleFree (ptr : Addr)
  | underrun (ptr : Addr) (label : List UInt8)
  | overflow (ptr : Addr) (label : List UInt8)
  | outside
  | diverges
  deriving DecidableEq

/-- What an allocation gets from the system: `malloc`'s answer and the bytes it
left there, the time, and the call stack. -/
structure Env where
  raw : Option Addr
  junkHdr : MemBlk
  junk : Nat → UInt8
  now : Nat
  trace : List Addr

namespace Pool

def next (s : Pool) (a : Addr) : Option Addr := (s.hdr a).next

/-- The block sizes of the classes in use. -/
def blockSizes (s : Pool) : List Nat :=
  (List.range s.slabClsCnt).map fun i => (s.slabs i).blockSize

/-- Reading the header at `a`. -/
def blk (s : Pool) (a : Addr) : Except Stop MemBlk :=
  if s.mem.Inside a 0 sizeofMemBlk then .ok (s.hdr a) else .error .outside

/-- Writing the header at `a`. -/
def setBlk (s : Pool) (a : Addr) (b : MemBlk) : Except Stop Pool :=
  if s.mem.Inside a 0 sizeofMemBlk then .ok { s with hdr := Function.update s.hdr a b }
  else .error .outside

def setFreeList (s : Pool) (idx : Nat) (head : Option Addr) : Pool :=
  { s with slabs := Function.update s.slabs idx { s.slabs idx with freeList := head } }

/-- The slab's critical section in `mem_pool_alloc_label`. -/
def slabPop (s : Pool) (idx : Nat) : Except Stop (Pool × Option Addr) :=
  match (s.slabs idx).freeList with
  | none => .ok (s, none)
  | some tmp => do
    let b ← s.blk tmp
    .ok (s.setFreeList idx b.next, some tmp)

def malloc (s : Pool) (env : Env) (total : Nat) : Pool × Option Addr :=
  match env.raw with
  | none => (s, none)
  | some a =>
    ({ s with mem := s.mem.insert a ⟨total, env.junk⟩
              hdr := Function.update s.hdr a env.junkHdr }, some a)

/-- Where the tail guard of a block of `size` bytes stands in its buffer. -/
def tailOffset (size : Nat) : Nat := sizeofMemBlk + size - sizeofGuard

def storeTail (s : Pool) (raw : Addr) (size : Nat) : Except Stop Pool :=
  match s.mem.store raw (tailOffset size) tailMagic with
  | some mem => .ok { s with mem := mem }
  | none => .error .outside

/-- `*tail == TAIL_MAGIC`. -/
def tailIntact (s : Pool) (blk : Addr) (size : Nat) : Except Stop Bool :=
  match s.mem.load blk (tailOffset size) sizeofGuard with
  | some bytes => .ok (decide (bytes = tailMagic))
  | none => .error .outside

def unknownLabel : List UInt8 := [0x75, 0x6e, 0x6b, 0x6e, 0x6f, 0x77, 0x6e]

/-- The header fields and the tail guard that an allocation writes. -/
def initBlk (s : Pool) (raw : Addr) (actual : Nat) (label : Option (List UInt8)) (env : Env) :
    Except Stop Pool := do
  let b ← s.blk raw
  let s ← s.setBlk raw { b with
    size := actual
    realPtr := raw
    freed := false
    allocTime := env.now
    guardHead := if s.protectMode then protectMagic else 0
    label := (label.getD unknownLabel).take (maxLabelLen - 1)
    callstack := if s.debugMode then env.trace else [] }
  if s.protectMode then s.storeTail raw actual else .ok s

/-- The section under the global lock in `mem_pool_alloc_label`. -/
def activePush (s : Pool) (blk : Addr) : Except Stop Pool := do
  let b ← s.blk blk
  let s ← s.setBlk blk { b with next := s.activeList }
  .ok { s with activeList := some blk }

/-- A `mem_blk **`: the head of the active list, or a block's `next` field. -/
inductive Cell where
  | head
  | next (a : Addr)

def load (s : Pool) : Cell → Except Stop (Option Addr)
  | .head => .ok s.activeList
  | .next a => do
    let b ← s.blk a
    .ok b.next

def save (s : Pool) (v : Option Addr) : Cell → Except Stop Pool
  | .head => .ok { s with activeList := v }
  | .next a => do
    let b ← s.blk a
    s.setBlk a { b with next := v }

/-- A list of more cells than there are live buffers is a ring. -/
def fuel (s : Pool) : Nat := s.mem.keys.card + 1

/-- The loop `while (*prev)` that takes `blk` off the active list. -/
def unlink (s : Pool) (blk : Addr) : Nat → Cell → Except Stop Pool
  | 0, _ => .error .diverges
  | fuel + 1, prev => do
    match ← s.load prev with
    | none => .ok s
    | some a =>
      if a = blk then do
        let b ← s.blk blk
        s.save b.next prev
      else s.unlink blk fuel (.next a)

/-- The section under the global lock in `mem_pool_free`. -/
def checkAndUnlink (s : Pool) (ptr blk : Addr) : Except Stop Pool := do
  let b ← s.blk blk
  if b.freed then .error (.doubleFree ptr)
  else if s.protectMode && b.guardHead != protectMagic then .error (.underrun ptr b.label)
  else
    let intact ← if s.protectMode then s.tailIntact blk b.size else .ok true
    if !intact then .error (.overflow ptr b.label)
    else
      let s ← s.setBlk blk { b with freed := true }
      s.unlink blk s.fuel .head

/-- The slab's critical section in `mem_pool_free`. -/
def slabPush (s : Pool) (idx : Nat) (blk : Addr) : Except Stop Pool := do
  let b ← s.blk blk
  let s ← s.setBlk blk { b with next := (s.slabs idx).freeList }
  .ok (s.setFreeList idx (some blk))

/-- `free(p)`: only a live buffer may be given back. -/
def sysFree (s : Pool) (p : Addr) : Except Stop Pool :=
  if p ∈ s.mem then .ok { s with mem := s.mem.erase p } else .error .outside

/-- Where a block goes once it is off the active list. -/
def release (s : Pool) (idx : Option Nat) (blk : Addr) : Except Stop Pool :=
  match idx with
  | some idx => s.slabPush idx blk
  | none => do
    let b ← s.blk blk
    s.sysFree b.realPtr

def actualSize (s : Pool) (idx : Option Nat) (size : Nat) : Nat :=
  match idx with
  | some idx => (s.slabs idx).blockSize
  | none => size

/-- The byte count handed to `malloc`, in `size_t`. -/
def totalSize (s : Pool) (actual : Nat) : Nat :=
  (sizeofMemBlk + actual + if s.protectMode then sizeofGuard else 0) % 2 ^ 64

/-- Where the raw block comes from: the slab's free list, else `malloc`. -/
def takeRaw (s : Pool) (idx : Option Nat) (total : Nat) (env : Env) :
    Except Stop (Pool × Option Addr) := do
  let (s, raw) ← match idx with
    | some idx => s.slabPop idx
    | none => .ok (s, none)
  match raw with
  | some raw => .ok (s, some raw)
  | none => .ok (s.malloc env total)

/-- `mem_pool_alloc_label`, with the slab index that `find_slab_index` gave. -/
def allocAt (s : Pool) (idx : Option Nat) (size : Nat) (label : Option (List UInt8)) (env : Env) :
    Except Stop (Pool × Option Addr) := do
  let actual := s.actualSize idx size
  let total := s.totalSize actual
  let (s, raw) ← s.takeRaw idx total env
  match raw with
  | none => .ok (s, none)
  | some raw => do
    let s ← s.initBlk raw actual label env
    let s ← s.activePush raw
    .ok (s, some (raw + sizeofMemBlk))

/-- `mem_pool_free`, with the program's `find_slab_index`. -/
def freeWith (find : Pool → Nat → Option Nat) (s : Pool) (ptr : Option Addr) : Except Stop Pool :=
  match ptr with
  | none => .ok s
  | some ptr => do
    let blk := ptr - sizeofMemBlk
    let s ← s.checkAndUnlink ptr blk
    let b ← s.blk blk
    s.release (find s b.size) blk

end Pool

end LearnC.MemPool
