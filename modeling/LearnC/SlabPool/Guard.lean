import LearnC.Machine.Memory
import LearnC.Machine.SizeClass

/-! What `1.base` and the C++ pool have in common: the sizes of the slabs, and the
guard bytes before and after the user bytes of a buffer. -/

namespace LearnC.SlabPool

def slabCount : Nat := 8
def slabSizes : List Nat := [32, 64, 128, 256, 512, 1024, 2048, 4096]
def guardSize : Nat := 16
def guardVal : UInt8 := 0xAB
def maxBacktrace : Nat := 10

/-- `fill_guard`, and `setGuard`, at an offset of a buffer. -/
def fillGuard (m : Memory) (p : Addr) (off : Nat) : Option Memory :=
  m.store p off (List.replicate guardSize guardVal)

/-- The two guards of `size` user bytes. -/
def fillGuards (m : Memory) (p : Addr) (size : Nat) : Option Memory := do
  let m ← fillGuard m p 0
  fillGuard m p (guardSize + size)

/-- The loop of `check_guard`, and of `checkGuard`, with `left` bytes to go. -/
def checkBytes (m : Memory) (p : Addr) : Nat → Nat → Option Bool
  | 0, _ => some true
  | left + 1, off => do
    let bytes ← m.load p off 1
    if bytes = [guardVal] then checkBytes m p left (off + 1) else some false

def checkGuard (m : Memory) (p : Addr) (off : Nat) : Option Bool := checkBytes m p guardSize off

/-- Both guards, the second at offset `tail`: after a broken first guard it is not read. -/
def checkGuards (m : Memory) (p : Addr) (tail : Nat) : Option Bool := do
  if ← checkGuard m p 0 then checkGuard m p tail else some false

/-- The offsets of the guard bytes around `size` user bytes. -/
def OnGuard (size k : Nat) : Prop :=
  k < guardSize ∨ guardSize + size ≤ k ∧ k < guardSize + size + guardSize

/-- `size + 2 * GUARD_SIZE`, in `size_t`. -/
def totalSize (size : Nat) : Nat := (size + guardSize * 2) % 2 ^ 64

section
variable {m m' : Memory} {p c : Addr} {off size : Nat}

theorem totalSize_eq (fit : size + guardSize * 2 < 2 ^ 64) :
    totalSize size = size + guardSize * 2 := Nat.mod_eq_of_lt fit

theorem fillGuard_isSome : (fillGuard m p off).isSome ↔ m.Inside p off guardSize := by
  rw [fillGuard, Memory.store_isSome, List.length_replicate]

/-- The guards can be written exactly when the buffer has room for them and the
user bytes between them. -/
theorem fillGuards_isSome : (fillGuards m p size).isSome ↔ m.Inside p 0 (size + guardSize * 2) := by
  have both (e : Nat) (extent : m.extent p = some e) :
      m.Inside p 0 (size + guardSize * 2) ↔ size + guardSize * 2 ≤ e := by
    simp [Memory.Inside, extent]
  constructor
  · intro ok
    obtain ⟨m', ok⟩ := Option.isSome_iff_exists.mp ok
    obtain ⟨m₁, head, tail⟩ := Option.bind_eq_some_iff.mp ok
    have room := fillGuard_isSome.mp (Option.isSome_iff_exists.mpr ⟨m', tail⟩)
    obtain ⟨e, extent, le⟩ := room
    rw [Memory.store_extent head] at extent
    exact (both e extent).mpr (by omega)
  · rintro ⟨e, extent, le⟩
    have first : m.Inside p 0 guardSize := ⟨e, extent, by omega⟩
    obtain ⟨m₁, head⟩ := Option.isSome_iff_exists.mp (fillGuard_isSome.mpr first)
    have second : m₁.Inside p (guardSize + size) guardSize := by
      refine ⟨e, ?_, by omega⟩
      rw [Memory.store_extent head]
      exact extent
    obtain ⟨m', tail⟩ := Option.isSome_iff_exists.mp (fillGuard_isSome.mpr second)
    simp [fillGuards, head, tail]

/-- A new buffer is too small for its guards where its size wraps. -/
theorem fits_of_fill {junk : Nat → UInt8}
    (fill : fillGuards (m.insert p ⟨totalSize size, junk⟩) p size = some m') :
    size + guardSize * 2 < 2 ^ 64 := by
  obtain ⟨e, extent, le⟩ := fillGuards_isSome.mp (Option.isSome_iff_exists.mpr ⟨m', fill⟩)
  have size_eq : totalSize size = e := by
    rw [Memory.extent_insert_self] at extent
    exact Option.some.inj extent
  have lt : totalSize size < 2 ^ 64 := Nat.mod_lt _ (by decide)
  omega

theorem fits_of_class {i : Nat} (cls : classOf slabSizes size = some i) :
    size + guardSize * 2 < 2 ^ 64 := by
  obtain ⟨hi, le, _⟩ := classOf_eq_some cls
  have limit : ∀ n ∈ slabSizes, n ≤ 4096 := by decide
  have := limit _ (List.getElem_mem hi)
  simp only [guardSize]
  omega

/-- Only the requests above the largest slab have none. -/
theorem classOf_large : classOf slabSizes size = none ↔ 4096 < size := by
  rw [classOf_eq_none]
  simp only [slabSizes, List.forall_mem_cons, List.not_mem_nil, false_implies, implies_true,
    and_true]
  omega

theorem fillGuards_extent (h : fillGuards m p size = some m') (c : Addr) :
    m'.extent c = m.extent c := by
  obtain ⟨m₁, head, tail⟩ := Option.bind_eq_some_iff.mp h
  rw [Memory.store_extent tail, Memory.store_extent head]

/-- Guard bytes inside a buffer can be checked. -/
theorem checkGuard_isSome (h : m.Inside p off guardSize) : (checkGuard m p off).isSome := by
  have loop (left off : Nat) (h : m.Inside p off left) : (checkBytes m p left off).isSome := by
    induction left generalizing off with
    | zero => rfl
    | succ left ih =>
      obtain ⟨size, extent, le⟩ := h
      have first : m.Inside p off 1 := ⟨size, extent, by omega⟩
      obtain ⟨bytes, load⟩ := Option.isSome_iff_exists.mp (Memory.load_isSome.mpr first)
      simp only [checkBytes, load, Option.bind_eq_bind, Option.bind_some]
      split
      · exact ih (off + 1) ⟨size, extent, by omega⟩
      · rfl
  exact loop guardSize off h

theorem checkGuards_isSome (h : m.Inside p 0 (size + guardSize * 2)) :
    (checkGuards m p (guardSize + size)).isSome := by
  obtain ⟨e, extent, le⟩ := h
  have first : m.Inside p 0 guardSize := ⟨e, extent, by omega⟩
  have second : m.Inside p (guardSize + size) guardSize := ⟨e, extent, by omega⟩
  obtain ⟨head, checkHead⟩ := Option.isSome_iff_exists.mp (checkGuard_isSome first)
  have tail := checkGuard_isSome second
  cases head with
  | false => simp [checkGuards, checkHead]
  | true => simpa [checkGuards, checkHead] using tail

/-- One byte is read as it is. -/
theorem load_byte {k : Nat} {x : UInt8} (h : m.Inside p k 1) :
    m.load p k 1 = some [x] ↔ m.byte p k = some x := by
  rw [show m.load p k 1 = m.load p k [x].length from rfl, Memory.load_eq_iff h]
  simp

/-- The loop over guard bytes tells whether they all stand. -/
theorem checkBytes_eq {left : Nat} (h : m.Inside p off left) :
    checkBytes m p left off = some (decide (∀ k < left, m.byte p (off + k) = some guardVal)) := by
  induction left generalizing off with
  | zero => simp [checkBytes]
  | succ left ih =>
    obtain ⟨e, extent, le⟩ := h
    have first : m.Inside p off 1 := ⟨e, extent, by omega⟩
    obtain ⟨bytes, load⟩ := Option.isSome_iff_exists.mp (Memory.load_isSome.mpr first)
    have rest : m.Inside p (off + 1) left := ⟨e, extent, by omega⟩
    have later := ih rest
    have here : bytes = [guardVal] ↔ m.byte p off = some guardVal := by
      rw [← load_byte first, load, Option.some.injEq]
    simp only [checkBytes, load, Option.bind_eq_bind, Option.bind_some, here, later]
    split
    · next stands =>
      refine congrArg some (decide_eq_decide.mpr ?_)
      constructor
      · intro all k hk
        cases k with
        | zero => exact stands
        | succ k => simpa [Nat.add_assoc, Nat.add_comm 1] using all k (by omega)
      · intro all k hk
        simpa [Nat.add_assoc, Nat.add_comm 1] using all (k + 1) (by omega)
    · next broken =>
      refine congrArg some (Eq.symm (decide_eq_false ?_))
      intro all
      exact broken (all 0 (by omega))

/-- Both guards are found intact exactly if every byte of theirs stands. -/
theorem checkGuards_iff (h : m.Inside p 0 (size + guardSize * 2)) :
    checkGuards m p (guardSize + size) = some true ↔
      ∀ k, OnGuard size k → m.byte p k = some guardVal := by
  obtain ⟨e, extent, le⟩ := h
  have head : m.Inside p 0 guardSize := ⟨e, extent, by omega⟩
  have tail : m.Inside p (guardSize + size) guardSize := ⟨e, extent, by omega⟩
  have both : checkGuards m p (guardSize + size) = some true ↔
      (∀ k < guardSize, m.byte p (0 + k) = some guardVal) ∧
        ∀ k < guardSize, m.byte p (guardSize + size + k) = some guardVal := by
    simp only [checkGuards, checkGuard, checkBytes_eq head, checkBytes_eq tail,
      Option.bind_eq_bind, Option.bind_some]
    split <;> simp_all
  rw [both]
  constructor
  · rintro ⟨first, second⟩ k (hk | ⟨ge, lt⟩)
    · simpa using first k hk
    · have := second (k - (guardSize + size)) (by omega)
      rwa [Nat.add_sub_cancel' ge] at this
  · intro all
    refine ⟨fun k hk => all (0 + k) (Or.inl (by omega)), fun k hk => all _ (Or.inr ⟨?_, ?_⟩)⟩
    · omega
    · omega

theorem fillGuard_byte {k : Nat} (h : fillGuard m p off = some m') :
    m'.byte p k = if off ≤ k ∧ k < off + guardSize then some guardVal else m.byte p k := by
  split
  · next inside =>
    obtain ⟨j, rfl⟩ := Nat.exists_eq_add_of_le inside.1
    have lt : j < guardSize := by omega
    rw [Memory.store_byte h (by simpa using lt)]
    simp [lt]
  · next outside =>
    apply Memory.store_byte_outside h
    simp only [List.length_replicate]
    omega

/-- Filled guards stand, and other buffers stay as they are. -/
theorem fillGuards_byte (h : fillGuards m p size = some m') :
    (∀ k, OnGuard size k → m'.byte p k = some guardVal) ∧
      ∀ c, c ≠ p → m'.lookup c = m.lookup c := by
  obtain ⟨m₁, head, tail⟩ := Option.bind_eq_some_iff.mp h
  constructor
  · intro k guard
    rw [fillGuard_byte tail, fillGuard_byte head]
    split
    · rfl
    · next outside =>
      rw [if_pos]
      rcases guard with lt | inside
      · exact ⟨Nat.zero_le k, by omega⟩
      · exact absurd inside outside
  · intro c hc
    rw [Memory.store_lookup_of_ne tail hc, Memory.store_lookup_of_ne head hc]

end

end LearnC.SlabPool
