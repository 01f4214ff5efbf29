import LearnC.MemPool.Sections
import LearnC.Machine.Run

/-! `3.m_mem_pool`: the calls of the pool server, and the callers that own the
pointers it hands out. -/

namespace LearnC.MemPool

namespace Pool

def findSlabIndex (s : Pool) (size : Nat) : Option Nat := classOf s.blockSizes size

def memPoolAllocLabel (s : Pool) (size : Nat) (label : Option (List UInt8)) (env : Env) :
    Except Stop (Pool × Option Addr) :=
  s.allocAt (s.findSlabIndex size) size label env

def memPoolAlloc (s : Pool) (size : Nat) (env : Env) : Except Stop (Pool × Option Addr) :=
  s.memPoolAllocLabel size none env

def memPoolFree (s : Pool) (ptr : Option Addr) : Except Stop Pool := s.freeWith findSlabIndex ptr

def memPoolSetDebug (s : Pool) (enabled : Int) : Pool := { s with debugMode := enabled != 0 }

def memPoolSetProtection (s : Pool) (enabled : Int) : Pool :=
  { s with protectMode := enabled != 0 }

/-- The loop of `mem_pool_init`, with `left` iterations before `MAX_SLAB_CLASSES`. -/
def initSlabs : Nat → Nat → Nat → (Nat → SlabClass) × Nat → (Nat → SlabClass) × Nat
  | 0, _, _, out => out
  | left + 1, i, size, (slabs, cnt) =>
    if size ≤ slabMaxSize then
      initSlabs left (i + 1) (size * 2)
        (Function.update slabs i { slabs i with blockSize := size }, cnt + 1)
    else (slabs, cnt)

/-- `garbage` stands for the memory that `malloc` has not handed out yet. -/
def memPoolInit (garbage : Addr → MemBlk) : Pool :=
  let (slabs, cnt) := initSlabs maxSlabClasses 0 slabMinSize (fun _ => ⟨0, none⟩, 0)
  { mem := ∅
    hdr := garbage
    slabs := slabs
    slabClsCnt := cnt
    activeList := none
    debugMode := false
    protectMode := true }

/-- A caller's store through a pointer it was given. -/
def userWrite (s : Pool) (ptr : Addr) (off : Nat) (byte : UInt8) : Except Stop Pool :=
  match s.mem.store (ptr - sizeofMemBlk) (sizeofMemBlk + off) [byte] with
  | some mem => .ok { s with mem := mem }
  | none => .error .outside

end Pool

/-! ## The pool and its callers -/

/-- The calls that the two thread-safe programs offer, on their own states. -/
structure Program (S : Type) where
  pool : S → Pool
  alloc : S → Nat → Option (List UInt8) → Env → Except Stop (S × Option Addr)
  free : S → Option Addr → Except Stop S
  setProtection : S → Int → S
  setDebug : S → Int → S
  write : S → Addr → Nat → UInt8 → Except Stop S

def server : Program Pool where
  pool := id
  alloc := Pool.memPoolAllocLabel
  free := Pool.memPoolFree
  setProtection := Pool.memPoolSetProtection
  setDebug := Pool.memPoolSetDebug
  write := Pool.userWrite

/-- What the owner of a pointer knows: the size asked for, whether protection was
on, and what it has last written at each offset. -/
structure Request where
  size : Nat
  protect : Bool
  written : Nat → Option UInt8

/-- The pool with the outstanding pointers. -/
structure World (S : Type) where
  state : S
  owner : Addr → Option Request

inductive Op where
  | alloc (size : Nat) (label : Option (List UInt8)) (env : Env)
  | free (ptr : Addr)
  | freeNull
  | setProtection (enabled : Int)
  | setDebug (enabled : Int)
  | write (ptr : Addr) (off : Nat) (byte : UInt8)

/-- One call that returns, or one store of an owner inside the bytes it asked for.
Outstanding pointers alone are freed, and `malloc` answers with memory not in use. -/
inductive Step {S : Type} (prog : Program S) : World S → Op → World S → Prop
  | alloc {w : World S} {size : Nat} {label : Option (List UInt8)} {env : Env} {s : S} {ptr : Addr}
      (fit : size < 2 ^ 64) (new : ∀ a, env.raw = some a → a ∉ (prog.pool w.state).mem)
      (ret : prog.alloc w.state size label env = .ok (s, some ptr)) :
      Step prog w (.alloc size label env)
        ⟨s, Function.update w.owner ptr
          (some ⟨size, (prog.pool w.state).protectMode, fun _ => none⟩)⟩
  | allocNull {w : World S} {size : Nat} {label : Option (List UInt8)} {env : Env} {s : S}
      (fit : size < 2 ^ 64) (new : ∀ a, env.raw = some a → a ∉ (prog.pool w.state).mem)
      (ret : prog.alloc w.state size label env = .ok (s, none)) :
      Step prog w (.alloc size label env) ⟨s, w.owner⟩
  | free {w : World S} {ptr : Addr} {q : Request} {s : S} (out : w.owner ptr = some q)
      (ret : prog.free w.state (some ptr) = .ok s) :
      Step prog w (.free ptr) ⟨s, Function.update w.owner ptr none⟩
  | freeNull {w : World S} {s : S} (ret : prog.free w.state none = .ok s) :
      Step prog w .freeNull ⟨s, w.owner⟩
  | setProtection {w : World S} {enabled : Int} :
      Step prog w (.setProtection enabled) ⟨prog.setProtection w.state enabled, w.owner⟩
  | setDebug {w : World S} {enabled : Int} :
      Step prog w (.setDebug enabled) ⟨prog.setDebug w.state enabled, w.owner⟩
  | write {w : World S} {ptr : Addr} {q : Request} {off : Nat} {byte : UInt8} {s : S}
      (out : w.owner ptr = some q) (inside : off < q.size)
      (ret : prog.write w.state ptr off byte = .ok s) :
      Step prog w (.write ptr off byte)
        ⟨s, Function.update w.owner ptr
          (some { q with written := Function.update q.written off (some byte) })⟩

/-- No pointer is outstanding at the start. -/
def World.start {S : Type} (s : S) : World S := ⟨s, fun _ => none⟩

/-- The step of an operation, when its caller may ask for it and it returns. -/
def World.call {S : Type} (prog : Program S) (w : World S) : Op → Option (World S)
  | .alloc size label env =>
    if size < 2 ^ 64 ∧ ∀ a ∈ env.raw, a ∉ (prog.pool w.state).mem then
      match prog.alloc w.state size label env with
      | .ok (s, some ptr) => some ⟨s, Function.update w.owner ptr
          (some ⟨size, (prog.pool w.state).protectMode, fun _ => none⟩)⟩
      | .ok (s, none) => some ⟨s, w.owner⟩
      | .error _ => none
    else none
  | .free ptr =>
    match w.owner ptr, prog.free w.state (some ptr) with
    | some _, .ok s => some ⟨s, Function.update w.owner ptr none⟩
    | _, _ => none
  | .freeNull =>
    match prog.free w.state none with
    | .ok s => some ⟨s, w.owner⟩
    | .error _ => none
  | .setProtection enabled => some ⟨prog.setProtection w.state enabled, w.owner⟩
  | .setDebug enabled => some ⟨prog.setDebug w.state enabled, w.owner⟩
  | .write ptr off byte =>
    match w.owner ptr, prog.write w.state ptr off byte with
    | some q, .ok s =>
      if off < q.size then
        some ⟨s, Function.update w.owner ptr
          (some { q with written := Function.update q.written off (some byte) })⟩
      else none
    | _, _ => none

theorem call_step {S : Type} {prog : Program S} {w w' : World S} {op : Op}
    (h : w.call prog op = some w') : Step prog w op w' := by
  cases op with
  | alloc size label env =>
    simp only [World.call] at h
    split at h
    · next legal =>
      split at h
      · next ret =>
        cases h
        exact .alloc legal.1 legal.2 ret
      · next ret =>
        cases h
        exact .allocNull legal.1 legal.2 ret
      · cases h
    · cases h
  | free ptr =>
    simp only [World.call] at h
    split at h
    · next out ret =>
      cases h
      exact .free out ret
    · cases h
  | freeNull =>
    simp only [World.call] at h
    split at h
    · next ret =>
      cases h
      exact .freeNull ret
    · cases h
  | setProtection enabled =>
    cases h
    exact .setProtection
  | setDebug enabled =>
    cases h
    exact .setDebug
  | write ptr off byte =>
    simp only [World.call] at h
    split at h
    · next out ret =>
      split at h
      · next inside =>
        cases h
        exact .write out inside ret
      · cases h
    · cases h

/-! ## Runs on a given memory -/

/-- A header of zero bytes. -/
def blank : MemBlk := ⟨0, false, [], 0, none, [], 0, 0⟩

/-- A system that answers `malloc` with zeroed memory at `a`. -/
def fresh (a : Addr) : Env := ⟨some a, blank, fun _ => 0, 0, []⟩

/-- The world a list of calls ends in, when every call returns. -/
def World.after (ops : List Op) : World Pool :=
  (execute (World.call server) (World.start (Pool.memPoolInit fun _ => blank)) ops).getD
    (World.start (Pool.memPoolInit fun _ => blank))

theorem after_run {ops : List Op}
    (ret : (execute (World.call server)
      (World.start (Pool.memPoolInit fun _ => blank)) ops).isSome = true) :
    Run (Step server) (World.start (Pool.memPoolInit fun _ => blank)) ops (World.after ops) := by
  obtain ⟨w, hw⟩ := Option.isSome_iff_exists.mp ret
  rw [World.after, hw]
  exact execute_run (fun _ _ _ => call_step) hw

theorem returns {S : Type} {r : Except Stop S} (h : r.toOption.isSome = true) : ∃ s, r = .ok s := by
  cases r with
  | error e => cases h
  | ok s => exact ⟨s, rfl⟩

theorem stops_with {S : Type} {r : Except Stop S} {e : Stop}
    (h : (r.map fun _ => ()) = .error e) : r = .error e := by
  cases r with
  | error e' => simpa [Except.map] using h
  | ok s => cases h

end LearnC.MemPool
