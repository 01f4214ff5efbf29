import Mathlib.Data.List.Perm.Subperm
import LearnC.FixedBins.Chunks

/-! What the two lists in the pool are for: a stack of chunks for each size. -/

namespace LearnC.FixedBins

/-! ## Two stacks -/

/-- The free chunks of each size, the last one freed in front. -/
abbrev Stacks := Bin → List Nat

inductive Call where
  | alloc (bin : Bin)
  | free (bin : Bin) (ptr : Nat)
  | write (addr : Nat) (byte : UInt8)
  | printState

/-- What a call returns or prints. -/
inductive Answer where
  | pointer (p : Option Nat)
  | done
  | counts (count32 count64 : Nat)
  deriving DecidableEq

def Stacks.call (t : Stacks) : Call → Stacks × Answer
  | .alloc bin => (Function.update t bin (t bin).tail, .pointer (t bin).head?)
  | .free bin ptr => (Function.update t bin (ptr :: t bin), .done)
  | .write _ _ => (t, .done)
  | .printState => (t, .counts (t .b32).length (t .b64).length)

def Stacks.answers (t : Stacks) : List Call → List Answer
  | [] => []
  | c :: cs => (t.call c).2 :: (t.call c).1.answers cs

/-- A chunk that is handed out. -/
def Out (base : Nat) (t : Stacks) (bin : Bin) (ptr : Nat) : Prop :=
  ptr ∈ chunks base bin ∧ ptr ∉ t bin

/-- The chunks handed out are freed by the function of their size, and their owners write to
their bytes. -/
def Allowed (base : Nat) (t : Stacks) : Call → Prop
  | .alloc _ => True
  | .free bin ptr => Out base t bin ptr
  | .write addr _ => ∃ bin ptr, Out base t bin ptr ∧ ptr ≤ addr ∧ addr < ptr + bin.size
  | .printState => True

def Disciplined (base : Nat) (t : Stacks) : List Call → Prop
  | [] => True
  | c :: cs => Allowed base t c ∧ Disciplined base (t.call c).1 cs

/-! ## The calls -/

namespace State

/-- The loop of `print_state` over one list. No result when `fuel` runs out before the list
ends, or when it leaves the pool. -/
def countFrom (s : State) : Nat → Option Nat → Option Nat
  | _, none => some 0
  | 0, some _ => none
  | fuel + 1, some c => do
    let next ← s.loadNext c
    let count ← s.countFrom fuel next
    some (count + 1)

/-- What `print_state` prints. -/
def printState (s : State) : Option (Nat × Nat) := do
  let count32 ← s.countFrom poolSize s.freeList32
  let count64 ← s.countFrom poolSize s.freeList64
  some (count32, count64)

def call (s : State) : Call → Option (State × Answer)
  | .alloc bin => (s.alloc bin).map fun (s, p) => (s, .pointer p)
  | .free bin ptr => (s.free bin ptr).map fun s => (s, .done)
  | .write addr byte => some ({ s with bytes := Function.update s.bytes addr byte }, .done)
  | .printState => s.printState.map fun (count32, count64) => (s, .counts count32 count64)

def answers (s : State) : List Call → Option (List Answer)
  | [] => some []
  | c :: cs => do
    let (s, a) ← s.call c
    let as ← s.answers cs
    some (a :: as)

end State

/-- The links from the head of each list are those of a stack of its chunks. -/
structure Refines (base : Nat) (s : State) (t : Stacks) : Prop where
  pool : s.memoryPool = base
  pos : 0 < base
  fits : base + poolSize ≤ 2 ^ 64
  chain : ∀ bin, Chain s.next (s.head bin) (t bin)
  own : ∀ bin, ∀ a ∈ t bin, a ∈ chunks base bin

section
variable {base a c fuel : Nat} {bin bin' : Bin} {s s' : State} {t : Stacks} {p : Option Nat}
  {xs : List Nat} {op : Call}

theorem Refines.chunk (R : Refines base s t) (ha : a ∈ chunks base bin) :
    s.Inside a ∧ 0 < a ∧ a < 2 ^ 64 := by
  have inside := chunks_inside ha
  have size := size_ge bin
  have pos := R.pos
  have fits := R.fits
  have room : 0 < sizeofChunk := by decide
  refine ⟨?_, by omega, by omega⟩
  rw [State.Inside, R.pool]
  omega

/-- What lies outside a chunk that is handed out keeps every list. -/
theorem Refines.links (R : Refines base s t) (out : Out base t bin' c) {bytes : Image}
    (same : ∀ i, i < c ∨ c + bin'.size ≤ i → bytes i = s.bytes i) (bin : Bin) :
    Chain (link bytes) (s.head bin) (t bin) := by
  apply (R.chain bin).congr
  intro a ha
  have ne : bin ≠ bin' ∨ a ≠ c := by
    by_cases eq : bin = bin'
    · subst eq
      exact Or.inr fun eq => out.2 (eq ▸ ha)
    · exact Or.inl eq
  have apart := chunks_apart (R.own bin a ha) out.1 ne
  have size := size_ge bin
  apply link_congr
  intro i le lt
  apply same
  omega

theorem Refines.alloc (R : Refines base s t) (bin : Bin) :
    ∃ s', s.alloc bin = some (s', (t bin).head?) ∧
      Refines base s' (Function.update t bin (t bin).tail) := by
  have chain := R.chain bin
  cases stack : t bin with
  | nil =>
    rw [stack, chain_nil] at chain
    refine ⟨s, by simp [State.alloc, chain], ?_⟩
    have same : Function.update t bin [].tail = t := by rw [List.tail_nil, ← stack]; simp
    rwa [same]
  | cons a rest =>
    rw [stack, chain_cons] at chain
    have own : ∀ a ∈ t bin, a ∈ chunks base bin := R.own bin
    rw [stack, List.forall_mem_cons] at own
    have inside := (R.chunk own.1).1
    refine ⟨s.setHead (s.next a) bin, ?_, ?_⟩
    · simp [State.alloc, chain.1, State.loadNext, inside]
    · refine ⟨by simpa using R.pool, R.pos, R.fits, fun bin' => ?_, fun bin' => ?_⟩
      · rw [setHead_next, setHead_head]
        by_cases eq : bin' = bin
        · subst eq
          rw [if_pos rfl, Function.update_self]
          exact chain.2
        · rw [if_neg eq, Function.update_of_ne eq]
          exact R.chain bin'
      · by_cases eq : bin' = bin
        · subst eq
          rw [Function.update_self]
          exact own.2
        · rw [Function.update_of_ne eq]
          exact R.own bin'

theorem Refines.free (R : Refines base s t) (out : Out base t bin c) :
    ∃ s', s.free bin c = some s' ∧ Refines base s' (Function.update t bin (c :: t bin)) := by
  have inside := (R.chunk out.1).1
  have size := size_ge bin
  let bytes := s.bytes.set c sizeofChunk (ofPtr (s.head bin))
  let s₁ : State := { s with bytes := bytes }
  have heads (bin' : Bin) : s₁.head bin' = s.head bin' := by cases bin' <;> rfl
  refine ⟨s₁.setHead (some c) bin, by simp [State.free, State.storeNext, inside, s₁, bytes], ?_⟩
  refine ⟨by simpa [s₁] using R.pool, R.pos, R.fits, fun bin' => ?_, fun bin' => ?_⟩
  · rw [setHead_next, setHead_head]
    by_cases eq : bin' = bin
    · subst eq
      rw [if_pos rfl, Function.update_self]
      apply push_chain s.bytes (R.chain bin') fun a ha => (R.chunk (R.own bin' a ha)).2
      intro a ha
      have ne : a ≠ c := fun eq => out.2 (eq ▸ ha)
      have apart := chunks_apart (R.own bin' a ha) out.1 (Or.inr ne)
      omega
    · rw [if_neg eq, Function.update_of_ne eq, heads]
      apply R.links out
      intro i outside
      apply Image.set_out
      omega
  · by_cases eq : bin' = bin
    · subst eq
      rw [Function.update_self, List.forall_mem_cons]
      exact ⟨out.1, R.own bin'⟩
    · rw [Function.update_of_ne eq]
      exact R.own bin'

theorem Refines.write (R : Refines base s t) (out : Out base t bin c) {addr : Nat} {byte : UInt8}
    (le : c ≤ addr) (lt : addr < c + bin.size) :
    Refines base { s with bytes := Function.update s.bytes addr byte } t := by
  refine ⟨R.pool, R.pos, R.fits, fun bin' => ?_, R.own⟩
  have head : State.head { s with bytes := Function.update s.bytes addr byte } bin' =
      s.head bin' := by cases bin' <;> rfl
  rw [head]
  apply R.links out
  intro i outside
  apply Function.update_of_ne
  omega

/-- The loop counts the chunks of a list that ends in the pool. -/
theorem countFrom_chain (chain : Chain s.next p xs) (inside : ∀ a ∈ xs, s.Inside a)
    (enough : xs.length ≤ fuel) : s.countFrom fuel p = some xs.length := by
  induction xs generalizing p fuel with
  | nil =>
    rw [chain_nil.mp chain]
    cases fuel <;> rfl
  | cons a xs ih =>
    obtain ⟨rfl, chain⟩ := chain
    rw [List.forall_mem_cons] at inside
    cases fuel with
    | zero => simp at enough
    | succ fuel =>
      have rest := ih chain inside.2 (Nat.le_of_succ_le_succ enough)
      simp [State.countFrom, State.loadNext, inside.1, rest]

theorem Refines.count (R : Refines base s t) (bin : Bin) :
    s.countFrom poolSize (s.head bin) = some (t bin).length := by
  apply countFrom_chain (R.chain bin) fun a ha => (R.chunk (R.own bin a ha)).1
  have sub : (t bin).Subperm (chunks base bin) :=
    (R.chain bin).nodup.subperm fun a ha => R.own bin a ha
  have few := sub.length_le
  have num : bin.num ≤ poolSize := by cases bin <;> decide
  rw [chunks, List.length_map, List.length_range] at few
  omega

/-- Each call of the stacks is answered. -/
theorem Refines.call (R : Refines base s t) (allowed : Allowed base t op) :
    ∃ s', s.call op = some (s', (Stacks.call t op).2) ∧ Refines base s' (Stacks.call t op).1 := by
  cases op with
  | alloc bin =>
    obtain ⟨s', ret, R'⟩ := R.alloc bin
    exact ⟨s', by simp [State.call, ret, Stacks.call], R'⟩
  | free bin ptr =>
    obtain ⟨s', ret, R'⟩ := R.free allowed
    exact ⟨s', by simp [State.call, ret, Stacks.call], R'⟩
  | write addr byte =>
    obtain ⟨bin, ptr, out, le, lt⟩ := allowed
    exact ⟨_, rfl, R.write out le lt⟩
  | printState =>
    have count32 := R.count .b32
    have count64 := R.count .b64
    simp only [State.head] at count32 count64
    exact ⟨s, by simp [State.call, State.printState, count32, count64, Stacks.call], R⟩

theorem Refines.answers (R : Refines base s t) {calls : List Call}
    (allowed : Disciplined base t calls) : s.answers calls = some (Stacks.answers t calls) := by
  induction calls generalizing s t with
  | nil => rfl
  | cons c cs ih =>
    obtain ⟨s', ret, R'⟩ := R.call allowed.1
    simp [State.answers, ret, ih R' allowed.2, Stacks.answers]

end

/-- Behind `init_memory` the linked lists answer every sequence of calls as two stacks do, which
hold each chunk of their size once. -/
theorem stacks_answer (base : Nat) (garbage : Image) (pos : 0 < base)
    (fits : base + poolSize ≤ 2 ^ 64) :
    ∃ s t, State.initMemory base garbage = some s ∧ (∀ bin, (t bin).Perm (chunks base bin)) ∧
      ∀ calls, Disciplined base t calls → s.answers calls = some (Stacks.answers t calls) := by
  obtain ⟨s, ret, I⟩ := initMemory_spec pos fits garbage
  have lists (bin : Bin) :
      ∃ free, Chain s.next (s.head bin) free ∧ free.Perm (chunks base bin) := by
    obtain ⟨free, chain, perm⟩ := I.split bin
    exact ⟨free, chain, by simpa using perm⟩
  choose t chain perm using lists
  have R : Refines base s t := ⟨I.pool, pos, fits, chain, fun bin _ ha => (perm bin).subset ha⟩
  exact ⟨s, t, ret, perm, fun calls allowed => R.answers allowed⟩

/-- The first calls of `main`. -/
theorem main_counts : ∃ s a b c, State.initMemory 4096 (fun _ => 0) = some s ∧
    s.answers [.alloc .b32, .alloc .b64, .alloc .b64, .printState] =
      some [.pointer (some a), .pointer (some b), .pointer (some c), .counts 49 28] := by
  obtain ⟨s, t, ret, perm, answers⟩ := stacks_answer 4096 (fun _ => 0) (by decide) (by decide)
  have length32 : (t .b32).length = 50 := (perm .b32).length_eq
  have length64 : (t .b64).length = 30 := (perm .b64).length_eq
  obtain ⟨a, rest32, stack32⟩ := List.exists_cons_of_length_pos (l := t .b32) (by omega)
  obtain ⟨b, rest, stack⟩ := List.exists_cons_of_length_pos (l := t .b64) (by omega)
  rw [stack32, List.length_cons] at length32
  rw [stack, List.length_cons] at length64
  obtain ⟨c, rest64, rfl⟩ := List.exists_cons_of_length_pos (l := rest) (by omega)
  rw [List.length_cons] at length64
  have allowed : Disciplined 4096 t [.alloc .b32, .alloc .b64, .alloc .b64, .printState] :=
    ⟨trivial, trivial, trivial, trivial, trivial⟩
  refine ⟨s, a, b, c, ret, (answers _ allowed).trans ?_⟩
  simp [Stacks.answers, Stacks.call, Function.update, stack32, stack]
  omega

end LearnC.FixedBins
