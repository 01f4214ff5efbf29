import LearnC.MemPool.Layout
import LearnC.MemPool.Server
import LearnC.MemPool.Teardown

/-! Any number of threads inside `mem_pool_alloc_label` and `mem_pool_free`. Each
section under a lock is one step, and so is each stretch of code on a block that
the thread holds alone. -/

namespace LearnC.MemPool.Threads

/-- What an allocation works out before it takes a block. -/
structure Order where
  size : Nat
  label : Option (List UInt8)
  actual : Nat
  total : Nat

/-- Where a thread stands: outside the pool; before the lock of slab `i`; before
`malloc`; with a raw block; before it links its block; before it unlinks a block;
with an unlinked block. -/
inductive Pc where
  | idle
  | chosen (i : Nat) (o : Order)
  | dry (o : Order)
  | raw (a : Addr) (o : Order)
  | ready (a : Addr) (o : Order)
  | freeing (ptr : Addr) (size : Nat)
  | unlinked (a : Addr)

def Pc.holds : Pc → Option Addr
  | .raw a _ => some a
  | .ready a _ => some a
  | .unlinked a => some a
  | _ => none

def Pc.begun : Pc → List (Addr × Nat)
  | .freeing ptr size => [(ptr, size)]
  | _ => []

/-- `mem_pool_alloc_label` up to the first lock. -/
def enter (s : Pool) (size : Nat) (label : Option (List UInt8)) : Pc :=
  let actual := s.actualSize (s.findSlabIndex size) size
  let o : Order := ⟨size, label, actual, s.totalSize actual⟩
  match s.findSlabIndex size with
  | some i => .chosen i o
  | none => .dry o

/-- The pool, and for each thread where it stands and the pointers it owns, each
with the size it was requested for. -/
structure Sys (T : Type) where
  pool : Pool
  pc : T → Pc
  owned : T → List (Addr × Nat)

section
variable {T : Type} [DecidableEq T]

def Sys.go (σ : Sys T) (t : T) (s : Pool) (pc : Pc) : Sys T :=
  { σ with pool := s, pc := Function.update σ.pc t pc }

def Sys.own (σ : Sys T) (t : T) (ps : List (Addr × Nat)) : Sys T :=
  { σ with owned := Function.update σ.owned t ps }

def Sys.has (σ : Sys T) (t : T) : List (Addr × Nat) := (σ.pc t).begun ++ σ.owned t

inductive Act where
  | call (size : Nat) (label : Option (List UInt8))
  | pop
  | malloc (env : Env)
  | init (env : Env)
  | push
  | free (ptr : Addr)
  | unlink
  | release

/-- One step of thread `t`. -/
inductive Step : Sys T → T × Act → Sys T → Prop
  | call {σ : Sys T} {t : T} {size : Nat} {label : Option (List UInt8)} (pc : σ.pc t = .idle)
      (fits : sizeofMemBlk + size + sizeofGuard < 2 ^ 64) :
      Step σ (t, .call size label) (σ.go t σ.pool (enter σ.pool size label))
  | pop {σ : Sys T} {t : T} {i : Nat} {o : Order} {s : Pool} {a : Addr} (pc : σ.pc t = .chosen i o)
      (ret : σ.pool.slabPop i = .ok (s, some a)) : Step σ (t, .pop) (σ.go t s (.raw a o))
  | popNone {σ : Sys T} {t : T} {i : Nat} {o : Order} {s : Pool} (pc : σ.pc t = .chosen i o)
      (ret : σ.pool.slabPop i = .ok (s, none)) : Step σ (t, .pop) (σ.go t s (.dry o))
  | malloc {σ : Sys T} {t : T} {o : Order} {env : Env} {s : Pool} {a : Addr} (pc : σ.pc t = .dry o)
      (new : ∀ a, env.raw = some a → a ∉ σ.pool.mem)
      (ret : σ.pool.malloc env o.total = (s, some a)) :
      Step σ (t, .malloc env) (σ.go t s (.raw a o))
  | mallocNull {σ : Sys T} {t : T} {o : Order} {env : Env} {s : Pool} (pc : σ.pc t = .dry o)
      (ret : σ.pool.malloc env o.total = (s, none)) :
      Step σ (t, .malloc env) (σ.go t s .idle)
  | init {σ : Sys T} {t : T} {a : Addr} {o : Order} {env : Env} {s : Pool} (pc : σ.pc t = .raw a o)
      (ret : σ.pool.initBlk a o.actual o.label env = .ok s) :
      Step σ (t, .init env) (σ.go t s (.ready a o))
  | push {σ : Sys T} {t : T} {a : Addr} {o : Order} {s : Pool} (pc : σ.pc t = .ready a o)
      (ret : σ.pool.activePush a = .ok s) :
      Step σ (t, .push) ((σ.go t s .idle).own t ((a + sizeofMemBlk, o.size) :: σ.owned t))
  | free {σ : Sys T} {t : T} {ptr size : Nat} (pc : σ.pc t = .idle)
      (own : (ptr, size) ∈ σ.owned t) :
      Step σ (t, .free ptr)
        ((σ.go t σ.pool (.freeing ptr size)).own t ((σ.owned t).erase (ptr, size)))
  | unlink {σ : Sys T} {t : T} {ptr size : Nat} {s : Pool} (pc : σ.pc t = .freeing ptr size)
      (ret : σ.pool.checkAndUnlink ptr (ptr - sizeofMemBlk) = .ok s) :
      Step σ (t, .unlink) (σ.go t s (.unlinked (ptr - sizeofMemBlk)))
  | release {σ : Sys T} {t : T} {a : Addr} {b : MemBlk} {s : Pool} (pc : σ.pc t = .unlinked a)
      (read : σ.pool.blk a = .ok b)
      (ret : σ.pool.release (σ.pool.findSlabIndex b.size) a = .ok s) :
      Step σ (t, .release) (σ.go t s .idle)

def Sys.Quiet (σ : Sys T) : Prop := ∀ t, σ.pc t = .idle

/-- Before the threads start: `main` has set the debug mode. -/
def start (garbage : Addr → MemBlk) (debug : Int) : Sys T where
  pool := (Pool.memPoolInit garbage).memPoolSetDebug debug
  pc := fun _ => .idle
  owned := fun _ => []

end

/-- Every block that the system has handed out and not taken back has one place:
once on the active list, once on one free list, or with one thread. Every pointer
has one owner. -/
structure Partition {T : Type} (σ : Sys T) (place : Addr → Loc T) : Prop where
  live : ∀ a, a ∈ σ.pool.mem ↔ place a ≠ .gone
  active : ∃ xs, Chain σ.pool.next σ.pool.activeList xs ∧ xs.Nodup ∧
    ∀ a, a ∈ xs ↔ place a = .active
  slab : ∀ i, ∃ xs, Chain σ.pool.next (σ.pool.slabs i).freeList xs ∧ xs.Nodup ∧
    ∀ a, a ∈ xs ↔ place a = .slab i
  held : ∀ t a, (σ.pc t).holds = some a ↔ place a = .held t
  owned : ∀ a, place a = .active ↔ ∃ t n, (a + sizeofMemBlk, n) ∈ σ.has t
  once : ∀ t, ((σ.has t).map Prod.fst).Nodup
  apart : ∀ t t' p n n', (p, n) ∈ σ.has t → (p, n') ∈ σ.has t' → t = t'

/-- With no thread inside the pool: the active list holds the outstanding blocks,
the statistics are theirs, and the destructor frees each block once. -/
structure Settled {T : Type} (σ : Sys T) : Prop where
  outstanding : ∃ xs, Chain σ.pool.next σ.pool.activeList xs ∧ xs.Nodup ∧
    (∀ a, a ∈ xs ↔ ∃ t n, (a + sizeofMemBlk, n) ∈ σ.owned t) ∧
    σ.pool.dumpStats = .ok (Int32.ofNat xs.length,
      UInt64.ofNat (xs.map fun a => (σ.pool.hdr a).size).sum)
  rounded : ∀ t p n, (p, n) ∈ σ.owned t → ∃ a, p = a + sizeofMemBlk ∧
    (σ.pool.hdr a).size = roundUp classSizes n
  self : ∀ a ∈ σ.pool.mem, (σ.pool.hdr a).realPtr = a
  destroyed : ∃ s freed leaks, σ.pool.memPoolDestroy = .ok (s, freed, leaks) ∧ freed.Nodup ∧
    ∀ a, a ∈ freed ↔ a ∈ σ.pool.mem

end LearnC.MemPool.Threads
