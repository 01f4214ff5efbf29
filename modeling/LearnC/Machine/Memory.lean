import Mathlib.Data.Finmap

/-! Memory handed out by `malloc`: live buffers under the address of their first
byte. An access outside every live buffer has no result. -/

namespace LearnC

abbrev Addr := Nat

/-- Code that returns has come through each of its parts. -/
theorem ok_of_bind {ε α β : Type} {x : Except ε α} {f : α → Except ε β} {y : β}
    (h : (x >>= f) = .ok y) : ∃ v, x = .ok v ∧ f v = .ok y := by
  cases x with
  | error e => cases h
  | ok v => exact ⟨v, rfl, h⟩

/-- What is live is no more than the keys: the bound that a walk over live
addresses runs under. -/
theorem length_le_keys {V : Type} {m : Finmap fun _ : Addr => V} {xs : List Addr}
    (nodup : xs.Nodup) (live : ∀ a ∈ xs, a ∈ m) : xs.length ≤ m.keys.card := by
  rw [← List.toFinset_card_of_nodup nodup]
  apply Finset.card_le_card
  intro a ha
  exact Finmap.mem_keys.mpr (live a (List.mem_toFinset.mp ha))

/-- A malloc'd buffer: how many bytes were asked for, and what they hold. -/
structure Buffer where
  extent : Nat
  bytes : Nat → UInt8

/-- The bytes `bs` written at offset `off`. -/
def Buffer.write (b : Buffer) (off : Nat) (bs : List UInt8) : Buffer :=
  { b with bytes := fun k => if off ≤ k then bs.getD (k - off) (b.bytes k) else b.bytes k }

/-- The `len` bytes at offset `off`. -/
def Buffer.read (b : Buffer) (off len : Nat) : List UInt8 :=
  (List.range len).map fun k => b.bytes (off + k)

/-- The live buffers. -/
abbrev Memory := Finmap fun _ : Addr => Buffer

namespace Memory

/-- The number of bytes behind a live base address. -/
def extent (m : Memory) (a : Addr) : Option Nat := (m.lookup a).map Buffer.extent

/-- The byte at an offset of a live buffer. -/
def byte (m : Memory) (a : Addr) (off : Nat) : Option UInt8 := (m.lookup a).map fun b => b.bytes off

/-- The bytes `off .. off + len` lie inside the live buffer at `a`. -/
def Inside (m : Memory) (a : Addr) (off len : Nat) : Prop :=
  ∃ size, m.extent a = some size ∧ off + len ≤ size

instance (m : Memory) (a : Addr) (off len : Nat) : Decidable (m.Inside a off len) :=
  match h : m.extent a with
  | none => isFalse fun ⟨_, e, _⟩ => by rw [h] at e; cases e
  | some size =>
    if hs : off + len ≤ size then isTrue ⟨size, h, hs⟩
    else isFalse fun ⟨_, e, le⟩ => hs (by rw [h] at e; cases e; exact le)

/-- Store bytes at an offset of a buffer. -/
def store (m : Memory) (a : Addr) (off : Nat) (bs : List UInt8) : Option Memory :=
  match m.lookup a with
  | some b => if off + bs.length ≤ b.extent then some (m.insert a (b.write off bs)) else none
  | none => none

/-- Load bytes from an offset of a buffer. -/
def load (m : Memory) (a : Addr) (off len : Nat) : Option (List UInt8) :=
  match m.lookup a with
  | some b => if off + len ≤ b.extent then some (b.read off len) else none
  | none => none

variable {m m' : Memory} {a c : Addr} {off len : Nat} {bs : List UInt8} {b : Buffer}

theorem mem_iff_extent : a ∈ m ↔ ∃ size, m.extent a = some size := by
  rw [Finmap.mem_iff]
  simp [extent]

theorem Inside.mem (h : m.Inside a off len) : a ∈ m := by
  obtain ⟨size, he, _⟩ := h
  exact mem_iff_extent.mpr ⟨size, he⟩

@[simp] theorem extent_insert_self : Memory.extent (m.insert a b) a = some b.extent := by
  simp [extent]

theorem extent_insert_of_ne (h : c ≠ a) : Memory.extent (m.insert a b) c = m.extent c := by
  simp [extent, Finmap.lookup_insert_of_ne _ h]

theorem extent_erase_of_ne (h : c ≠ a) : Memory.extent (m.erase a) c = m.extent c := by
  simp [extent, Finmap.lookup_erase_ne h]

theorem store_isSome : (m.store a off bs).isSome ↔ m.Inside a off bs.length := by
  unfold store Inside extent
  cases h : m.lookup a with
  | none => simp
  | some b => simp

theorem load_isSome : (m.load a off len).isSome ↔ m.Inside a off len := by
  unfold load Inside extent
  cases h : m.lookup a with
  | none => simp
  | some b => simp

theorem store_eq_some (h : m.store a off bs = some m') :
    ∃ b, m.lookup a = some b ∧ off + bs.length ≤ b.extent ∧ m' = m.insert a (b.write off bs) := by
  unfold store at h
  split at h
  · next b hb =>
    split at h
    · next hle => exact ⟨b, hb, hle, (Option.some.inj h).symm⟩
    · cases h
  · cases h

/-- A store neither moves nor resizes a buffer. -/
theorem store_extent (h : m.store a off bs = some m') (c : Addr) : m'.extent c = m.extent c := by
  obtain ⟨b, hb, _, rfl⟩ := store_eq_some h
  by_cases hc : c = a
  · subst hc
    simp [extent, hb, Buffer.write]
  · exact extent_insert_of_ne hc

/-- A store leaves the other buffers alone. -/
theorem store_lookup_of_ne (h : m.store a off bs = some m') (hc : c ≠ a) :
    m'.lookup c = m.lookup c := by
  obtain ⟨b, _, _, rfl⟩ := store_eq_some h
  exact Finmap.lookup_insert_of_ne _ hc

theorem store_mem (h : m.store a off bs = some m') (c : Addr) : c ∈ m' ↔ c ∈ m := by
  rw [mem_iff_extent, mem_iff_extent, store_extent h]

/-- A stored byte reads back. -/
theorem store_byte (h : m.store a off bs = some m') {k : Nat} (hk : k < bs.length) :
    m'.byte a (off + k) = bs[k]? := by
  obtain ⟨b, _, _, rfl⟩ := store_eq_some h
  simp [byte, Buffer.write, hk, List.getD_eq_getElem?_getD]

/-- The bytes outside the stored range stand. -/
theorem store_byte_outside (h : m.store a off bs = some m') {k : Nat}
    (out : k < off ∨ off + bs.length ≤ k) : m'.byte a k = m.byte a k := by
  obtain ⟨b, hb, _, rfl⟩ := store_eq_some h
  simp only [byte, Finmap.lookup_insert, hb, Option.map_some, Buffer.write, Option.some.injEq]
  split
  · next le =>
    rw [List.getD_eq_getElem?_getD, List.getElem?_eq_none (by omega)]
    rfl
  · rfl

theorem load_eq_iff (h : m.Inside a off bs.length) :
    m.load a off bs.length = some bs ↔ ∀ k, k < bs.length → m.byte a (off + k) = bs[k]? := by
  obtain ⟨size, he, hle⟩ := h
  obtain ⟨b, hb, rfl⟩ := Option.map_eq_some_iff.mp he
  have bytes (k : Nat) : m.byte a (off + k) = some (b.bytes (off + k)) := by simp [byte, hb]
  simp only [load, hb, hle, ↓reduceIte, Option.some.injEq, Buffer.read, bytes]
  constructor
  · intro eq k hk
    have := congrArg (·[k]?) eq
    simpa [hk] using this
  · intro all
    apply List.ext_getElem (by simp)
    intro k hk hk'
    have := all k hk'
    rw [List.getElem?_eq_getElem hk', Option.some.injEq] at this
    simpa using this

end Memory

end LearnC
