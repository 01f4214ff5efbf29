import Mathlib.Data.List.Nodup
import LearnC.Machine.Bytes
import LearnC.Machine.Chain
import LearnC.Machine.Run

/-! `4.slab_style_fixed_size_bins.c`: two lists of chunks of a fixed size, linked through
the chunks themselves. -/

namespace LearnC.FixedBins

def poolSize : Nat := 1024 * 4

inductive Bin where
  | b32
  | b64
  deriving DecidableEq

def Bin.size : Bin → Nat
  | .b32 => 32
  | .b64 => 64

def Bin.num : Bin → Nat
  | .b32 => 50
  | .b64 => 30

/-- `sizeof(Chunk)`: the one field is a pointer. -/
def sizeofChunk : Nat := 8

/-- A pointer as the number stored for it. -/
def ofPtr (p : Option Nat) : Nat := p.getD 0

def toPtr (v : Nat) : Option Nat := if v = 0 then none else some v

/-- The `next` field of a chunk at `a`. -/
def link (bytes : Image) (a : Nat) : Option Nat := toPtr (bytes.get a sizeofChunk)

/-- The file-scope variables, and the bytes of the pool by their address. -/
structure State where
  memoryPool : Nat
  bytes : Image
  freeList32 : Option Nat
  freeList64 : Option Nat

namespace State

def head (s : State) : Bin → Option Nat
  | .b32 => s.freeList32
  | .b64 => s.freeList64

def setHead (s : State) (p : Option Nat) : Bin → State
  | .b32 => { s with freeList32 := p }
  | .b64 => { s with freeList64 := p }

def next (s : State) (a : Nat) : Option Nat := link s.bytes a

/-- A chunk header at `a` is inside the pool. -/
def Inside (s : State) (a : Nat) : Prop :=
  s.memoryPool ≤ a ∧ a + sizeofChunk ≤ s.memoryPool + poolSize

instance (s : State) (a : Nat) : Decidable (s.Inside a) :=
  inferInstanceAs (Decidable (_ ∧ _))

/-- `chunk->next`; outside the pool the access has no result. -/
def loadNext (s : State) (a : Nat) : Option (Option Nat) :=
  if s.Inside a then some (s.next a) else none

/-- `chunk->next = p`. -/
def storeNext (s : State) (a : Nat) (p : Option Nat) : Option State :=
  if s.Inside a then some { s with bytes := s.bytes.set a sizeofChunk (ofPtr p) } else none

/-- The two loops of `init_memory`, with `left` chunks to push. -/
def initBin (s : State) (bin : Bin) : Nat → Nat → Option (State × Nat)
  | 0, ptr => some (s, ptr)
  | left + 1, ptr => do
    let s ← s.storeNext ptr (s.head bin)
    initBin (s.setHead (some ptr) bin) bin left (ptr + bin.size)

/-- `init_memory`, where `malloc` returned `base` with what it left there. -/
def initMemory (base : Nat) (garbage : Image) : Option State := do
  let s : State := ⟨base, garbage, none, none⟩
  let (s, ptr) ← s.initBin .b32 Bin.b32.num s.memoryPool
  let (s, _) ← s.initBin .b64 Bin.b64.num ptr
  some s

def alloc (s : State) (bin : Bin) : Option (State × Option Nat) :=
  match s.head bin with
  | none => some (s, none)
  | some chunk => do
    let next ← s.loadNext chunk
    some (s.setHead next bin, some chunk)

def free (s : State) (bin : Bin) (ptr : Nat) : Option State := do
  let s ← s.storeNext ptr (s.head bin)
  some (s.setHead (some ptr) bin)

def alloc32 (s : State) : Option (State × Option Nat) := s.alloc .b32
def alloc64 (s : State) : Option (State × Option Nat) := s.alloc .b64
def free32 (s : State) (ptr : Nat) : Option State := s.free .b32 ptr
def free64 (s : State) (ptr : Nat) : Option State := s.free .b64 ptr

end State

/-- The pool with the chunks of each size that are handed out. -/
structure World where
  state : State
  out : Bin → List Nat

inductive Op where
  | alloc (bin : Bin)
  | free (bin : Bin) (ptr : Nat)
  | write (addr : Nat) (byte : UInt8)

/-- One call that returns. An outstanding chunk is freed by the function of its size,
and its owner writes what it likes to its bytes. -/
inductive Step : World → Op → World → Prop
  | alloc {w : World} {bin : Bin} {s : State} {ptr : Nat}
      (ret : w.state.alloc bin = some (s, some ptr)) :
      Step w (.alloc bin) ⟨s, Function.update w.out bin (ptr :: w.out bin)⟩
  | allocNull {w : World} {bin : Bin} {s : State} (ret : w.state.alloc bin = some (s, none)) :
      Step w (.alloc bin) ⟨s, w.out⟩
  | free {w : World} {bin : Bin} {ptr : Nat} {s : State} (live : ptr ∈ w.out bin)
      (ret : w.state.free bin ptr = some s) :
      Step w (.free bin ptr) ⟨s, Function.update w.out bin ((w.out bin).erase ptr)⟩
  | write {w : World} {bin : Bin} {ptr addr : Nat} {byte : UInt8} (live : ptr ∈ w.out bin)
      (le : ptr ≤ addr) (lt : addr < ptr + bin.size) :
      Step w (.write addr byte)
        ⟨{ w.state with bytes := Function.update w.state.bytes addr byte }, w.out⟩

def World.start (s : State) : World := ⟨s, fun _ => []⟩

/-- Where the chunks of a bin start in the pool. -/
def Bin.start : Bin → Nat
  | .b32 => 0
  | .b64 => Bin.b32.num * Bin.b32.size

/-- The chunks of a bin, in the order in which `init_memory` lays them out. -/
def chunks (base : Nat) (bin : Bin) : List Nat :=
  (List.range bin.num).map fun i => base + bin.start + i * bin.size

section
variable {base a c v : Nat} {bin bin' : Bin} {s s' : State} {p : Option Nat} {xs : List Nat}

/-! ## The layout -/

theorem mem_chunks : a ∈ chunks base bin ↔ ∃ i < bin.num, base + bin.start + i * bin.size = a := by
  simp [chunks]

theorem chunks_inside (ha : a ∈ chunks base bin) :
    base ≤ a ∧ a + bin.size ≤ base + poolSize := by
  obtain ⟨i, hi, rfl⟩ := mem_chunks.mp ha
  cases bin <;> simp only [Bin.num, Bin.start, Bin.size, poolSize] at * <;> omega

/-- Different chunks do not overlap, whether of one size or of two. -/
theorem chunks_apart (ha : a ∈ chunks base bin) (hc : c ∈ chunks base bin')
    (ne : bin ≠ bin' ∨ a ≠ c) : a + bin.size ≤ c ∨ c + bin'.size ≤ a := by
  obtain ⟨i, hi, rfl⟩ := mem_chunks.mp ha
  obtain ⟨j, hj, rfl⟩ := mem_chunks.mp hc
  cases bin <;> cases bin' <;>
    simp only [Bin.num, Bin.start, Bin.size, ne_eq, not_true_eq_false, false_or, reduceCtorEq,
      not_false_eq_true, true_or] at hi hj ne ⊢ <;> omega

theorem chunks_nodup (base : Nat) (bin : Bin) : (chunks base bin).Nodup := by
  apply List.Nodup.map _ List.nodup_range
  intro i j eq
  have same : i * bin.size = j * bin.size := Nat.add_left_cancel eq
  cases bin <;> simp only [Bin.size] at same <;> omega

/-! ## Links -/

theorem size_ge (bin : Bin) : sizeofChunk ≤ bin.size := by cases bin <;> decide

@[simp] theorem setHead_bytes (p : Option Nat) (bin : Bin) : (s.setHead p bin).bytes = s.bytes := by
  cases bin <;> rfl

@[simp] theorem setHead_pool (p : Option Nat) (bin : Bin) :
    (s.setHead p bin).memoryPool = s.memoryPool := by
  cases bin <;> rfl

@[simp] theorem setHead_next (p : Option Nat) (bin : Bin) : (s.setHead p bin).next = s.next := by
  cases bin <;> rfl

@[simp] theorem setHead_head (p : Option Nat) (bin bin' : Bin) :
    (s.setHead p bin).head bin' = if bin' = bin then p else s.head bin' := by
  cases bin <;> cases bin' <;> rfl

/-- The same links where the bytes of the links are the same. -/
theorem link_congr {bytes bytes' : Image}
    (same : ∀ i, a ≤ i → i < a + sizeofChunk → bytes' i = bytes i) :
    link bytes' a = link bytes a :=
  congrArg toPtr (Image.get_congr same)

/-- A chunk that stands apart from the list is pushed. -/
theorem push_chain (bytes : Image) (chain : Chain (link bytes) p xs)
    (room : ∀ a ∈ xs, 0 < a ∧ a < 2 ^ 64)
    (apart : ∀ a ∈ xs, a + sizeofChunk ≤ c ∨ c + sizeofChunk ≤ a) :
    Chain (link (bytes.set c sizeofChunk (ofPtr p))) (some c) (c :: xs) := by
  refine ⟨rfl, ?_⟩
  have read : link (bytes.set c sizeofChunk (ofPtr p)) c = p := by
    cases xs with
    | nil =>
      rw [chain_nil.mp chain, link, Image.get_set (by decide)]
      rfl
    | cons a xs =>
      obtain ⟨pos, lt⟩ := room a List.mem_cons_self
      rw [chain.1, link, Image.get_set (by simpa [ofPtr, sizeofChunk] using lt)]
      simp [toPtr, ofPtr, Nat.ne_of_gt pos]
  rw [read]
  apply chain.congr
  intro a ha
  apply link_congr
  intro i le lt
  apply Image.set_out
  have := apart a ha
  omega

/-! ## The two lists -/

/-- The list of a bin is linked, and the chunks on it and those handed out are together
the chunks laid out for the bin, each once. -/
def Split (base : Nat) (s : State) (out : Bin → List Nat) (bin : Bin) : Prop :=
  ∃ free, Chain s.next (s.head bin) free ∧ (free ++ out bin).Perm (chunks base bin)

/-- What holds in every run. -/
structure Inv (base : Nat) (s : State) (out : Bin → List Nat) : Prop where
  pool : s.memoryPool = base
  pos : 0 < base
  fits : base + poolSize ≤ 2 ^ 64
  split : ∀ bin, Split base s out bin

section
variable {out : Bin → List Nat} {free free' : List Nat} {w w' : World} {op : Op}

theorem Inv.chunk (I : Inv base s out) (ha : a ∈ chunks base bin) :
    s.Inside a ∧ 0 < a ∧ a < 2 ^ 64 := by
  have inside := chunks_inside ha
  have size := size_ge bin
  have pos := I.pos
  have fits := I.fits
  have pool : 0 < sizeofChunk := by decide
  refine ⟨?_, by omega, by omega⟩
  rw [State.Inside, I.pool]
  omega

theorem mem_of_split (perm : (free ++ out bin).Perm (chunks base bin)) :
    (∀ a ∈ free, a ∈ chunks base bin) ∧ ∀ a ∈ out bin, a ∈ chunks base bin :=
  ⟨fun _ ha => perm.subset (List.mem_append_left _ ha),
    fun _ ha => perm.subset (List.mem_append_right _ ha)⟩

/-- A chunk on a list and one handed out do not overlap. -/
theorem split_apart (perm : (free ++ out bin).Perm (chunks base bin))
    (own : ∀ a ∈ out bin', a ∈ chunks base bin') (ha : a ∈ free) (live : c ∈ out bin') :
    a + bin.size ≤ c ∨ c + bin'.size ≤ a := by
  apply chunks_apart ((mem_of_split perm).1 a ha) (own c live)
  by_cases eq : bin = bin'
  · subst eq
    have nodup := perm.nodup_iff.mpr (chunks_nodup base bin)
    refine Or.inr ?_
    rintro rfl
    exact nodup.disjoint ha live
  · exact Or.inl eq

/-- Stores into an outstanding chunk change no link of a list. -/
theorem Inv.links (I : Inv base s out) {bytes : Image}
    (perm : (free ++ out bin).Perm (chunks base bin)) (ha : a ∈ free) (live : c ∈ out bin')
    (same : ∀ i, i < c ∨ c + bin'.size ≤ i → bytes i = s.bytes i) : link bytes a = s.next a := by
  obtain ⟨_, _, perm'⟩ := I.split bin'
  have apart := split_apart perm (mem_of_split perm').2 ha live
  have size := size_ge bin
  apply link_congr
  intro i le lt
  apply same
  omega

/-- What an allocation does: `NULL` from an empty list, else the first chunk. -/
theorem alloc_spec (I : Inv base s out) (bin : Bin) :
    (s.alloc bin = some (s, none) ∧ (out bin).length = bin.num) ∨
    ∃ s' a, s.alloc bin = some (s', some a) ∧ (out bin).length < bin.num ∧
      Inv base s' (Function.update out bin (a :: out bin)) := by
  obtain ⟨free, chain, perm⟩ := I.split bin
  have length : free.length + (out bin).length = bin.num := by
    rw [← List.length_append, perm.length_eq, chunks, List.length_map, List.length_range]
  cases free with
  | nil =>
    left
    rw [chain_nil] at chain
    exact ⟨by simp [State.alloc, chain], by simpa using length⟩
  | cons a free =>
    right
    obtain ⟨head, rest⟩ := chain_cons.mp chain
    have inside := (I.chunk ((mem_of_split perm).1 a List.mem_cons_self)).1
    refine ⟨s.setHead (s.next a) bin, a, ?_, ?_, ?_⟩
    · simp [State.alloc, head, State.loadNext, inside]
    · rw [List.length_cons] at length
      omega
    · refine ⟨by simpa using I.pool, I.pos, I.fits, fun bin' => ?_⟩
      by_cases eq : bin' = bin
      · subst eq
        refine ⟨free, ?_, ?_⟩
        · rw [setHead_next, setHead_head, if_pos rfl]
          exact rest
        · rw [Function.update_self]
          exact List.perm_middle.trans perm
      · obtain ⟨free', chain', perm'⟩ := I.split bin'
        refine ⟨free', ?_, ?_⟩
        · rw [setHead_next, setHead_head, if_neg eq]
          exact chain'
        · rw [Function.update_of_ne eq]
          exact perm'

/-- A free puts the chunk in front of its list. -/
theorem free_spec (I : Inv base s out) (live : c ∈ out bin) :
    ∃ s', s.free bin c = some s' ∧ Inv base s' (Function.update out bin ((out bin).erase c)) := by
  obtain ⟨free, chain, perm⟩ := I.split bin
  have inside := (I.chunk ((mem_of_split perm).2 c live)).1
  let bytes := s.bytes.set c sizeofChunk (ofPtr (s.head bin))
  let s₁ : State := { s with bytes := bytes }
  have heads (bin' : Bin) : s₁.head bin' = s.head bin' := by cases bin' <;> rfl
  refine ⟨s₁.setHead (some c) bin, by simp [State.free, State.storeNext, inside, s₁, bytes], ?_⟩
  refine ⟨by simpa [s₁] using I.pool, I.pos, I.fits, fun bin' => ?_⟩
  by_cases eq : bin' = bin
  · subst eq
    refine ⟨c :: free, ?_, ?_⟩
    · have pushed := push_chain (c := c) s.bytes chain
        (fun a ha => (I.chunk ((mem_of_split perm).1 a ha)).2) fun a ha => by
          have apart := split_apart perm (mem_of_split perm).2 ha live
          have size := size_ge bin'
          omega
      rw [setHead_next, setHead_head, if_pos rfl]
      exact pushed
    · have moved : (c :: (free ++ (out bin').erase c)).Perm (free ++ out bin') :=
        List.perm_middle.symm.trans ((List.perm_cons_erase live).symm.append_left free)
      rw [Function.update_self]
      exact moved.trans perm
  · obtain ⟨free', chain', perm'⟩ := I.split bin'
    rw [Split, setHead_next, setHead_head, if_neg eq, Function.update_of_ne eq, heads]
    refine ⟨free', ?_, perm'⟩
    apply chain'.congr
    intro a ha
    apply I.links perm' ha live
    intro i out
    apply Image.set_out
    have size := size_ge bin
    omega

/-- The bytes of an outstanding chunk are its owner's. -/
theorem write_spec (I : Inv base s out) (live : c ∈ out bin) {addr : Nat} {byte : UInt8}
    (le : c ≤ addr) (lt : addr < c + bin.size) :
    Inv base { s with bytes := Function.update s.bytes addr byte } out := by
  refine ⟨I.pool, I.pos, I.fits, fun bin' => ?_⟩
  obtain ⟨free, chain, perm⟩ := I.split bin'
  have head : State.head { s with bytes := Function.update s.bytes addr byte } bin' =
      s.head bin' := by cases bin' <;> rfl
  refine ⟨free, ?_, perm⟩
  rw [head]
  apply chain.congr
  intro a ha
  apply I.links perm ha live
  intro i out
  apply Function.update_of_ne
  omega

theorem Inv.step (I : Inv base w.state w.out) (step : Step w op w') : Inv base w'.state w'.out := by
  cases step with
  | @alloc bin s ptr ret =>
    rcases alloc_spec I bin with ⟨null, _⟩ | ⟨s', a, ok, _, I'⟩
    · cases null.symm.trans ret
    · cases ok.symm.trans ret
      exact I'
  | @allocNull bin s ret =>
    rcases alloc_spec I bin with ⟨null, _⟩ | ⟨s', a, ok, _, I'⟩
    · cases null.symm.trans ret
      exact I
    · cases ok.symm.trans ret
  | free live ret =>
    obtain ⟨s', ok, I'⟩ := free_spec I live
    cases ok.symm.trans ret
    exact I'
  | write live le lt => exact write_spec I live le lt

/-! ## `init_memory` -/

/-- The loop pushes the chunks from `ptr` on, and changes no byte before them. -/
theorem initBin_spec (bin : Bin) (left ptr : Nat) (pool : s.memoryPool = base) (pos : 0 < base)
    (fits : base + poolSize ≤ 2 ^ 64) (le : base ≤ ptr)
    (room : ptr + left * bin.size ≤ base + poolSize) (chain : Chain s.next (s.head bin) xs)
    (below : ∀ a ∈ xs, base ≤ a ∧ a + bin.size ≤ ptr) :
    ∃ s' ys, s.initBin bin left ptr = some (s', ptr + left * bin.size) ∧ s'.memoryPool = base ∧
      (∀ bin', bin' ≠ bin → s'.head bin' = s.head bin') ∧
      (∀ i, i < ptr → s'.bytes i = s.bytes i) ∧ Chain s'.next (s'.head bin) ys ∧
      ys.Perm (((List.range left).map fun i => ptr + i * bin.size) ++ xs) := by
  induction left generalizing s ptr xs with
  | zero =>
    refine ⟨s, xs, ?_, pool, fun _ _ => rfl, fun _ _ => rfl, chain, .refl _⟩
    rw [State.initBin, Nat.zero_mul, Nat.add_zero]
  | succ left ih =>
    have size := size_ge bin
    have some : 0 < sizeofChunk := by decide
    have more : (left + 1) * bin.size = left * bin.size + bin.size := Nat.succ_mul left bin.size
    have inside : s.Inside ptr := by
      rw [State.Inside, pool]
      omega
    let bytes := s.bytes.set ptr sizeofChunk (ofPtr (s.head bin))
    let s₁ : State := { s with bytes := bytes }
    have heads (bin' : Bin) : s₁.head bin' = s.head bin' := by cases bin' <;> rfl
    have pushed : Chain (link bytes) (.some ptr) (ptr :: xs) := by
      apply push_chain s.bytes chain
      · intro a ha
        have := below a ha
        omega
      · intro a ha
        have := below a ha
        omega
    let s₂ : State := s₁.setHead (.some ptr) bin
    have chain₂ : Chain s₂.next (s₂.head bin) (ptr :: xs) := by
      rw [setHead_next, setHead_head, if_pos rfl]
      exact pushed
    have below₂ : ∀ a ∈ ptr :: xs, base ≤ a ∧ a + bin.size ≤ ptr + bin.size := by
      rw [List.forall_mem_cons]
      refine ⟨by omega, fun a ha => ?_⟩
      have := below a ha
      omega
    have pool₂ : s₂.memoryPool = base := by
      rw [setHead_pool]
      exact pool
    obtain ⟨s', ys, ret, pool', others, kept, chain', perm⟩ :=
      ih (ptr + bin.size) pool₂ (by omega) (by omega) chain₂ below₂
    refine ⟨s', ys, ?_, pool', ?_, ?_, chain', perm.trans ?_⟩
    · rw [State.initBin, State.storeNext, if_pos inside]
      refine ret.trans ?_
      rw [more, Nat.add_assoc, Nat.add_comm bin.size]
    · intro bin' ne
      rw [others bin' ne, setHead_head, if_neg ne, heads]
    · intro i lt
      rw [kept i (by omega), setHead_bytes]
      exact Image.set_out (Or.inl lt)
    · have first : (List.range (left + 1)).map (fun i => ptr + i * bin.size) =
          ptr :: (List.range left).map fun i => ptr + bin.size + i * bin.size := by
        simp [List.range_succ_eq_map, Function.comp_def, Nat.succ_mul, Nat.add_assoc,
          Nat.add_comm bin.size]
      rw [first]
      exact List.perm_middle

theorem initMemory_spec (pos : 0 < base) (fits : base + poolSize ≤ 2 ^ 64) (garbage : Image) :
    ∃ s, State.initMemory base garbage = some s ∧ Inv base s fun _ => [] := by
  let s₀ : State := ⟨base, garbage, none, none⟩
  have pool₀ : s₀.memoryPool = base := rfl
  have chain₀ : Chain s₀.next (s₀.head .b32) [] := rfl
  obtain ⟨s₁, free32, ret₁, pool₁, others₁, _, chain₁, perm₁⟩ :=
    initBin_spec .b32 Bin.b32.num base pool₀ pos fits (Nat.le_refl base)
      (by simp only [Bin.num, Bin.size, poolSize]; omega) chain₀ (by simp)
  have empty : Chain s₁.next (s₁.head .b64) [] := others₁ .b64 (by decide)
  obtain ⟨s₂, free64, ret₂, pool₂, others₂, kept, chain₂, perm₂⟩ :=
    initBin_spec .b64 Bin.b64.num (base + Bin.b32.num * Bin.b32.size) pool₁ pos fits
      (Nat.le_add_right _ _) (by simp only [Bin.num, Bin.size, poolSize]; omega) empty (by simp)
  rw [List.append_nil] at perm₁ perm₂
  have chunks32 : chunks base .b32 =
      (List.range Bin.b32.num).map fun i => base + i * Bin.b32.size := rfl
  refine ⟨s₂, ?_, pool₂, pos, fits, fun bin => ?_⟩
  · rw [State.initMemory, ret₁]
    exact congrArg (Option.bind · _) ret₂
  · cases bin with
    | b64 => exact ⟨free64, chain₂, by rw [List.append_nil]; exact perm₂⟩
    | b32 =>
      refine ⟨free32, ?_, by rw [List.append_nil, chunks32]; exact perm₁⟩
      rw [others₂ .b32 (by decide)]
      -- The second loop writes behind the chunks of the first list.
      apply chain₁.congr
      intro a ha
      apply link_congr
      intro i _ lt
      apply kept
      have mem := chunks32 ▸ perm₁.subset ha
      obtain ⟨j, hj, rfl⟩ := mem_chunks.mp mem
      simp only [Bin.num, Bin.start, Bin.size, sizeofChunk] at hj lt ⊢
      omega

/-- The chunks that `init_memory` lays out lie in the pool, apart from each other. -/
structure Laid (base : Nat) : Prop where
  inside : ∀ bin a, a ∈ chunks base bin → base ≤ a ∧ a + bin.size ≤ base + poolSize
  apart : ∀ bin bin' a c, a ∈ chunks base bin → c ∈ chunks base bin' → bin ≠ bin' ∨ a ≠ c →
    a + bin.size ≤ c ∨ c + bin'.size ≤ a

/-- Each list ends, and with the chunks handed out it has every chunk of its bin once;
`NULL` is returned exactly when they are all handed out. -/
structure Conserved (base : Nat) (w : World) : Prop where
  lists : ∀ bin, ∃ free, Chain w.state.next (w.state.head bin) free ∧ free.Nodup ∧
    (free ++ w.out bin).Perm (chunks base bin)
  null32 : ∃ s p, w.state.alloc32 = some (s, p) ∧ (p = none ↔ (w.out .b32).length = Bin.b32.num)
  null64 : ∃ s p, w.state.alloc64 = some (s, p) ∧ (p = none ↔ (w.out .b64).length = Bin.b64.num)

theorem Inv.conserved (I : Inv base w.state w.out) : Conserved base w := by
  have null (bin : Bin) :
      ∃ s p, w.state.alloc bin = some (s, p) ∧ (p = none ↔ (w.out bin).length = bin.num) := by
    rcases alloc_spec I bin with ⟨ret, all⟩ | ⟨s', a, ret, lt, _⟩
    · exact ⟨w.state, none, ret, by simp [all]⟩
    · exact ⟨s', some a, ret, by simp [Nat.ne_of_lt lt]⟩
  refine ⟨?_, null .b32, null .b64⟩
  intro bin
  obtain ⟨free, chain, perm⟩ := I.split bin
  exact ⟨free, chain, chain.nodup, perm⟩

/-- In every run after `init_memory` the chunks of each size are split between their
list and their owners. -/
theorem chunks_conserved (base : Nat) (garbage : Image) (pos : 0 < base)
    (fits : base + poolSize ≤ 2 ^ 64) :
    Laid base ∧ ∃ s, State.initMemory base garbage = some s ∧
      ∀ ops w, Run Step (.start s) ops w → Conserved base w := by
  refine ⟨⟨fun _ _ => chunks_inside, fun _ _ _ _ => chunks_apart⟩, ?_⟩
  obtain ⟨s, ret, I⟩ := initMemory_spec pos fits garbage
  refine ⟨s, ret, fun ops w run => ?_⟩
  have inv : Inv base w.state w.out :=
    run.invariant (I := fun w => Inv base w.state w.out) I fun _ _ _ I step => I.step step
  exact inv.conserved

end

end

/-- The call `op`; none where its caller may not make it. -/
def World.call (w : World) : Op → Option World
  | .alloc bin => (w.state.alloc bin).map fun (s, p) =>
      match p with
      | some ptr => ⟨s, Function.update w.out bin (ptr :: w.out bin)⟩
      | none => ⟨s, w.out⟩
  | .free bin ptr =>
    if ptr ∈ w.out bin then
      (w.state.free bin ptr).map fun s => ⟨s, Function.update w.out bin ((w.out bin).erase ptr)⟩
    else none
  | .write addr byte =>
    if ∃ bin ∈ [Bin.b32, Bin.b64], ∃ ptr ∈ w.out bin, ptr ≤ addr ∧ addr < ptr + bin.size then
      some ⟨{ w.state with bytes := Function.update w.state.bytes addr byte }, w.out⟩
    else none

theorem call_step (w : World) (op : Op) (w' : World) (ret : w.call op = some w') :
    Step w op w' := by
  cases op with
  | alloc bin =>
    obtain ⟨⟨s, p⟩, served, rfl⟩ := Option.map_eq_some_iff.mp ret
    cases p with
    | some ptr => exact .alloc served
    | none => exact .allocNull served
  | free bin ptr =>
    obtain ⟨live, ret⟩ := Option.ite_none_right_eq_some.mp ret
    obtain ⟨s, freed, rfl⟩ := Option.map_eq_some_iff.mp ret
    exact .free live freed
  | write addr byte =>
    obtain ⟨⟨bin, _, ptr, live, le, lt⟩, ret⟩ := Option.ite_none_right_eq_some.mp ret
    cases ret
    exact .write live le lt

/-- The owners overwrite the links of both chunks, and the first one is freed and comes back. -/
def comeAndGo : List Op :=
  [.alloc .b32, .alloc .b32, .alloc .b64, .write 5664 255, .write 5639 1, .free .b32 5664,
    .write 5632 3, .alloc .b32, .write 5664 9, .free .b64 7552]

theorem comeAndGo_conserved : ∃ s w, State.initMemory 4096 (fun _ => 0) = some s ∧
    Run Step (.start s) comeAndGo w ∧ w.out .b32 = [5664, 5632] ∧ w.out .b64 = [] ∧
    ∃ free, Chain w.state.next (w.state.head .b32) free ∧
      (free ++ [5664, 5632]).Perm (chunks 4096 .b32) := by
  obtain ⟨_, s, ret, runs⟩ := chunks_conserved 4096 (fun _ => 0) (by decide) (by decide)
  have ran : ((State.initMemory 4096 fun _ => 0).bind fun s =>
      execute World.call (.start s) comeAndGo).map (fun w => (w.out .b32, w.out .b64)) =
      some ([5664, 5632], []) := by
    decide +kernel
  rw [ret, Option.bind_some] at ran
  obtain ⟨w, ended, out⟩ := Option.map_eq_some_iff.mp ran
  obtain ⟨out32, out64⟩ := Prod.mk.inj out
  have run : Run Step (.start s) comeAndGo w := execute_run call_step ended
  obtain ⟨free, chain, _, perm⟩ := (runs comeAndGo w run).lists .b32
  rw [out32] at perm
  exact ⟨s, w, ret, run, out32, out64, free, chain, perm⟩

end LearnC.FixedBins
