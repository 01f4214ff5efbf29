import LearnC.Machine.Run
import LearnC.SlabPool.Guard

/-! The calls that both pools offer, and the program that owns the pointers. -/

namespace LearnC.SlabPool

/-- What an allocation gets from the system: the addresses of a descriptor and of
a buffer, the bytes left in the buffer, and the call stack. -/
structure Env where
  blk : Option Addr
  raw : Option Addr
  junk : Nat → UInt8
  trace : List Addr

/-- A pool: its calls, its buffers, and the addresses of its descriptors. -/
structure Program (S : Type) where
  alloc : S → Nat → Env → Option (S × Addr)
  free : S → Option Addr → Option S
  mem : S → Memory
  setMem : S → Memory → S
  blocks : S → Finset Addr

/-- A pool with the request of each outstanding pointer. -/
structure World (S : Type) where
  state : S
  owner : Addr → Option Nat

def World.outstanding {S : Type} (w : World S) : Set Addr := {ptr | (w.owner ptr).isSome = true}

@[simp] theorem mem_outstanding {S : Type} {w : World S} {ptr : Addr} :
    ptr ∈ w.outstanding ↔ (w.owner ptr).isSome = true := Iff.rfl

inductive Op where
  | alloc (size : Nat) (env : Env)
  | free (ptr : Option Addr)
  | write (raw : Addr) (off : Nat) (byte : UInt8)

section
variable {S : Type}

/-- The system grants both requests, with memory that is not in use. -/
def Supplies (prog : Program S) (s : S) (env : Env) : Prop :=
  (∃ b, env.blk = some b ∧ b ∉ prog.blocks s) ∧ ∃ a, env.raw = some a ∧ a ∉ prog.mem s

instance (prog : Program S) (s : S) (env : Env) : Decidable (Supplies prog s env) :=
  inferInstanceAs
    (Decidable ((∃ b ∈ env.blk, b ∉ prog.blocks s) ∧ ∃ a ∈ env.raw, a ∉ prog.mem s))

/-- One call that returns, or one store of the program inside a buffer. Any
pointer may be freed. -/
inductive Step (prog : Program S) : World S → Op → World S → Prop
  | alloc {w : World S} {size : Nat} {env : Env} {s : S} {ptr : Addr}
      (fit : size + guardSize * 2 < 2 ^ 64) (supply : Supplies prog w.state env)
      (ret : prog.alloc w.state size env = some (s, ptr)) :
      Step prog w (.alloc size env) ⟨s, Function.update w.owner ptr (some size)⟩
  | free {w : World S} {ptr : Addr} {s : S} (ret : prog.free w.state (some ptr) = some s) :
      Step prog w (.free (some ptr)) ⟨s, Function.update w.owner ptr none⟩
  | freeNull {w : World S} {s : S} (ret : prog.free w.state none = some s) :
      Step prog w (.free none) ⟨s, w.owner⟩
  | write {w : World S} {raw : Addr} {off : Nat} {byte : UInt8} {mem : Memory}
      (ret : (prog.mem w.state).store raw off [byte] = some mem) :
      Step prog w (.write raw off byte) ⟨prog.setMem w.state mem, w.owner⟩

def World.start (s : S) : World S := ⟨s, fun _ => none⟩

/-- The step of an operation, when the system supplies it and it returns. -/
def World.call (prog : Program S) (w : World S) : Op → Option (World S)
  | .alloc size env =>
    if size + guardSize * 2 < 2 ^ 64 ∧ Supplies prog w.state env then
      (prog.alloc w.state size env).map fun out =>
        ⟨out.1, Function.update w.owner out.2 (some size)⟩
    else none
  | .free (some ptr) =>
    (prog.free w.state (some ptr)).map fun s => ⟨s, Function.update w.owner ptr none⟩
  | .free none => (prog.free w.state none).map fun s => ⟨s, w.owner⟩
  | .write raw off byte =>
    ((prog.mem w.state).store raw off [byte]).map fun mem => ⟨prog.setMem w.state mem, w.owner⟩

theorem call_step {prog : Program S} {w w' : World S} {op : Op} (h : w.call prog op = some w') :
    Step prog w op w' := by
  cases op with
  | alloc size env =>
    simp only [World.call] at h
    split at h
    · next legal =>
      obtain ⟨⟨s, ptr⟩, ret, rfl⟩ := Option.map_eq_some_iff.mp h
      exact .alloc legal.1 legal.2 ret
    · cases h
  | free ptr =>
    cases ptr with
    | none =>
      obtain ⟨s, ret, rfl⟩ := Option.map_eq_some_iff.mp h
      exact .freeNull ret
    | some ptr =>
      obtain ⟨s, ret, rfl⟩ := Option.map_eq_some_iff.mp h
      exact .free ret
  | write raw off byte =>
    obtain ⟨mem, ret, rfl⟩ := Option.map_eq_some_iff.mp h
    exact .write ret

/-! ## What the owners can rely on -/

/-- The pool has at least `n` bytes for the owner of a pointer; `bytes` tells how
many stand between the guards of the block at each pointer. -/
def Room (bytes : S → Addr → Nat → Prop) (s : S) (ptr : Addr) (n : Nat) : Prop :=
  ∃ c, bytes s ptr c ∧ n ≤ c

def Roomy (bytes : S → Addr → Nat → Prop) (w : World S) : Prop :=
  ∀ ptr n, w.owner ptr = some n → Room bytes w.state ptr n

/-- Only requests can fail to be served. -/
def Served (serves : S → Nat → Prop) (w : World S) : Op → Prop
  | .alloc size _ => serves w.state size
  | .free _ | .write _ _ _ => True

/-- The calls keep a table of the pointers in use: an allocation adds one, with
room for the request exactly if it is served, and a free takes out the pointer it
is given. -/
structure Ledger (prog : Program S) (I : S → Prop) (bytes : S → Addr → Nat → Prop)
    (serves : S → Nat → Prop) : Prop where
  alloc : ∀ s size env s' ptr, I s → size + guardSize * 2 < 2 ^ 64 → Supplies prog s env →
    prog.alloc s size env = some (s', ptr) → I s' ∧
      ∃ c, (size ≤ c ↔ serves s size) ∧
        ∀ p d, bytes s' p d ↔ (p = ptr ∧ d = c) ∨ (p ≠ ptr ∧ bytes s p d)
  free : ∀ s ptr s', I s → prog.free s (some ptr) = some s' → I s' ∧
    ∀ p d, bytes s' p d ↔ p ≠ ptr ∧ bytes s p d
  freeNull : ∀ s s', I s → prog.free s none = some s' → I s' ∧ ∀ p d, bytes s' p d ↔ bytes s p d
  write : ∀ s raw off byte mem, I s → (prog.mem s).store raw off [byte] = some mem →
    I (prog.setMem s mem) ∧ ∀ p d, bytes (prog.setMem s mem) p d ↔ bytes s p d

section
variable {prog : Program S} {I : S → Prop} {bytes : S → Addr → Nat → Prop}
  {serves : S → Nat → Prop} {w w' : World S} {op : Op} {s₀ : S} {ops : List Op}

theorem Ledger.room_iff (L : Ledger prog I bytes serves) {s s' : S} {size : Nat} {env : Env}
    {ptr : Addr} (inv : I s) (fit : size + guardSize * 2 < 2 ^ 64) (supply : Supplies prog s env)
    (ret : prog.alloc s size env = some (s', ptr)) : Room bytes s' ptr size ↔ serves s size := by
  obtain ⟨_, c, iff, table⟩ := L.alloc _ _ _ _ _ inv fit supply ret
  rw [← iff]
  constructor
  · rintro ⟨d, hd, le⟩
    rcases (table ptr d).mp hd with ⟨_, rfl⟩ | ⟨ne, _⟩
    · exact le
    · exact absurd rfl ne
  · intro le
    exact ⟨c, (table ptr c).mpr (Or.inl ⟨rfl, rfl⟩), le⟩

theorem Roomy.keep (roomy : Roomy bytes w)
    (kept : ∀ p n, w'.owner p = some n →
      w.owner p = some n ∧ ∀ d, bytes w.state p d → bytes w'.state p d) : Roomy bytes w' := by
  intro p n hp
  obtain ⟨old, stand⟩ := kept p n hp
  obtain ⟨d, hd, le⟩ := roomy p n old
  exact ⟨d, stand d hd, le⟩

theorem Ledger.step (L : Ledger prog I bytes serves) (inv : I w.state)
    (step : Step prog w op w') :
    I w'.state ∧ (Roomy bytes w → (Served serves w op ↔ Roomy bytes w')) := by
  cases step with
  | @alloc size env s ptr fit supply ret =>
    obtain ⟨inv', c, _, table⟩ := L.alloc _ _ _ _ _ inv fit supply ret
    refine ⟨inv', ?_⟩
    intro roomy
    have iff : Room bytes s ptr size ↔ Served serves w (.alloc size env) :=
      L.room_iff inv fit supply ret
    rw [← iff]
    constructor
    · intro room p n hp
      by_cases eq : p = ptr
      · subst eq
        have asked : size = n := by simpa using hp
        exact asked ▸ room
      · obtain ⟨d, hd, le⟩ := roomy p n (by simpa [eq] using hp)
        exact ⟨d, (table p d).mpr (Or.inr ⟨eq, hd⟩), le⟩
    · intro roomy'
      exact roomy' ptr size (by simp)
  | @free ptr s ret =>
    obtain ⟨inv', table⟩ := L.free _ _ _ inv ret
    refine ⟨inv', fun roomy => ⟨fun _ => roomy.keep ?_, fun _ => trivial⟩⟩
    intro p n hp
    have ne : p ≠ ptr := by
      rintro rfl
      simp at hp
    exact ⟨by simpa [ne] using hp, fun d hd => (table p d).mpr ⟨ne, hd⟩⟩
  | freeNull ret =>
    obtain ⟨inv', table⟩ := L.freeNull _ _ inv ret
    refine ⟨inv', fun roomy => ⟨fun _ => roomy.keep ?_, fun _ => trivial⟩⟩
    intro p n hp
    exact ⟨hp, fun d => (table p d).mpr⟩
  | write ret =>
    obtain ⟨inv', table⟩ := L.write _ _ _ _ _ inv ret
    refine ⟨inv', fun roomy => ⟨fun _ => roomy.keep ?_, fun _ => trivial⟩⟩
    intro p n hp
    exact ⟨hp, fun d => (table p d).mpr⟩

theorem Ledger.run_inv (L : Ledger prog I bytes serves) (init : I s₀)
    (run : Run (Step prog) (World.start s₀) ops w) : I w.state :=
  run.invariant (I := fun w => I w.state) init fun _ _ _ inv step => (L.step inv step).1

theorem Ledger.outstanding_step (L : Ledger prog I bytes serves) (inv : I w.state)
    (table : ∀ p, p ∈ w.outstanding ↔ ∃ n, bytes w.state p n) (step : Step prog w op w')
    (p : Addr) : p ∈ w'.outstanding ↔ ∃ n, bytes w'.state p n := by
  have old := table p
  rw [mem_outstanding] at old ⊢
  cases step with
  | @alloc size env s ptr fit supply ret =>
    obtain ⟨_, c, _, added⟩ := L.alloc _ _ _ _ _ inv fit supply ret
    by_cases eq : p = ptr
    · subst eq
      simp [added]
    · simp [added, eq, old]
  | @free ptr s ret =>
    obtain ⟨_, removed⟩ := L.free _ _ _ inv ret
    by_cases eq : p = ptr
    · subst eq
      simp [removed]
    · simp [removed, eq, old]
  | freeNull ret =>
    obtain ⟨_, kept⟩ := L.freeNull _ _ inv ret
    simp [kept, old]
  | write ret =>
    obtain ⟨_, kept⟩ := L.write _ _ _ _ _ inv ret
    simp [kept, old]

theorem Ledger.run_outstanding (L : Ledger prog I bytes serves) (init : I s₀)
    (empty : ∀ p n, ¬ bytes s₀ p n) (run : Run (Step prog) (World.start s₀) ops w) (p : Addr) :
    p ∈ w.outstanding ↔ ∃ n, bytes w.state p n := by
  have kept := run.invariant
    (I := fun w => I w.state ∧ ∀ p, p ∈ w.outstanding ↔ ∃ n, bytes w.state p n)
    ⟨init, fun p => by simp [World.start, empty]⟩
    fun w op w' inv step => ⟨(L.step inv.1 step).1, L.outstanding_step inv.1 inv.2 step⟩
  exact kept.2 p

/-- The runs that leave every owner its room are the runs that are served throughout. -/
theorem Ledger.roomy_runs_iff (L : Ledger prog I bytes serves) (init : I s₀) :
    Run (Into (Roomy bytes) (Step prog)) (World.start s₀) ops w ↔
      Run (When (Served serves) (Step prog)) (World.start s₀) ops w := by
  symm
  apply run_when_iff_into (J := fun w => I w.state)
  · exact init
  · intro w op w' inv step
    exact (L.step inv step).1
  · intro ptr n hp
    cases hp
  · intro w op w' inv roomy step
    exact (L.step inv step).2 roomy

end

/-! ## Runs on a given memory -/

/-- A system that answers with a descriptor at `b` and a zeroed buffer at `a`. -/
def fresh (b a : Addr) : Env := ⟨some b, some a, fun _ => 0, []⟩

def World.after (prog : Program S) (s : S) (ops : List Op) : World S :=
  (execute (World.call prog) (World.start s) ops).getD (World.start s)

theorem after_run {prog : Program S} {s : S} {ops : List Op}
    (ret : (execute (World.call prog) (World.start s) ops).isSome = true) :
    Run (Step prog) (World.start s) ops (World.after prog s ops) := by
  obtain ⟨w, hw⟩ := Option.isSome_iff_exists.mp ret
  rw [World.after, hw]
  exact execute_run (fun _ _ _ => call_step) hw

end

end LearnC.SlabPool
