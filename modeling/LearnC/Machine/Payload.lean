import Mathlib.Data.List.Nodup
import Mathlib.Data.Set.Defs
import LearnC.Machine.Tiling

/-! The pointers handed out by an allocator that keeps a header before each
block: which bytes they own, and which pointers they are. -/

namespace LearnC

section
variable {hdr stop p q a : Nat} {size : Nat → Nat} {blocks live : List Nat}

/-- The bytes from `a` up to `b`. -/
def bytes (a b : Nat) : Set Nat := {x | a ≤ x ∧ x < b}

/-- The bytes behind a pointer, as many as the header before it says. -/
def payload (hdr : Nat) (size : Nat → Nat) (p : Nat) : Set Nat := bytes p (p + size (p - hdr))

/-- No byte is in both. -/
def Apart (s t : Set Nat) : Prop := ∀ x ∈ s, x ∉ t

/-- The payloads lie in the region, apart from every header and from each other. -/
structure Separate (hdr stop : Nat) (size : Nat → Nat) (blocks live : List Nat) : Prop where
  inside : ∀ p ∈ live, hdr ≤ p ∧ p + size (p - hdr) ≤ stop
  headers : ∀ p ∈ live, ∀ a ∈ blocks, Apart (payload hdr size p) (bytes a (a + hdr))
  apart : ∀ p ∈ live, ∀ q ∈ live, p ≠ q → Apart (payload hdr size p) (payload hdr size q)

theorem apart_of_le {a b c d : Nat} (h : b ≤ c ∨ d ≤ a) : Apart (bytes a b) (bytes c d) := by
  rintro x ⟨_, _⟩ ⟨_, _⟩
  omega

/-- Pointers to blocks of a tiled region. -/
theorem Tiles.separate (t : Tiles hdr stop size 0 blocks) (pos : 0 < hdr)
    (block : ∀ p ∈ live, ∃ a ∈ blocks, p = a + hdr) : Separate hdr stop size blocks live where
  inside p hp := by
    obtain ⟨a, ha, rfl⟩ := block p hp
    have := (t.bounds ha).2
    rw [Nat.add_sub_cancel]
    omega
  headers p hp b hb := by
    obtain ⟨a, ha, rfl⟩ := block p hp
    simp only [payload, Nat.add_sub_cancel]
    apply apart_of_le
    rcases Nat.lt_or_ge a b with lt | ge
    · exact Or.inl (t.apart pos ha hb lt)
    · exact Or.inr (by omega)
  apart p hp q hq ne := by
    obtain ⟨a, ha, rfl⟩ := block p hp
    obtain ⟨b, hb, rfl⟩ := block q hq
    simp only [payload, Nat.add_sub_cancel]
    apply apart_of_le
    rcases Nat.lt_or_gt_of_ne (fun e : a = b => ne (by rw [e])) with lt | gt
    · have := t.apart pos ha hb lt
      omega
    · have := t.apart pos hb ha gt
      omega

/-! ## Which pointers are out -/

/-- The callers hold one pointer to each block in `P`. -/
structure Held (hdr : Nat) (P : Nat → Prop) (live : List Nat) : Prop where
  mem : ∀ p, p ∈ live ↔ ∃ a, P a ∧ p = a + hdr
  nodup : live.Nodup

variable {P Q : Nat → Prop}

theorem held_nil (none : ∀ a, ¬ P a) : Held hdr P [] where
  mem p := by
    simp only [List.not_mem_nil, false_iff, not_exists, not_and]
    intro a ha
    exact absurd ha (none a)
  nodup := List.nodup_nil

theorem Held.congr (h : Held hdr P live) (iff : ∀ a, Q a ↔ P a) : Held hdr Q live where
  mem p := by
    rw [h.mem]
    simp only [iff]
  nodup := h.nodup

theorem Held.block (h : Held hdr P live) (hp : a + hdr ∈ live) : P a := by
  obtain ⟨b, hb, e⟩ := (h.mem _).mp hp
  rwa [Nat.add_right_cancel e]

theorem Held.fresh (h : Held hdr P live) (new : ¬ P a) : a + hdr ∉ live :=
  fun hp => new (h.block hp)

/-- A block is handed out. -/
theorem Held.malloc (h : Held hdr P live) (new : ¬ P a) (iff : ∀ b, Q b ↔ b = a ∨ P b) :
    Held hdr Q ((a + hdr) :: live) where
  mem p := by
    rw [List.mem_cons, h.mem]
    constructor
    · rintro (rfl | ⟨b, hb, rfl⟩)
      · exact ⟨a, (iff a).mpr (Or.inl rfl), rfl⟩
      · exact ⟨b, (iff b).mpr (Or.inr hb), rfl⟩
    · rintro ⟨b, hb, rfl⟩
      rcases (iff b).mp hb with rfl | hb
      · exact Or.inl rfl
      · exact Or.inr ⟨b, hb, rfl⟩
  nodup := List.nodup_cons.mpr ⟨h.fresh new, h.nodup⟩

/-- A pointer is given back. -/
theorem Held.free (h : Held hdr P live) (iff : ∀ b, Q b ↔ b ≠ a ∧ P b) :
    Held hdr Q (live.erase (a + hdr)) where
  mem p := by
    rw [h.nodup.mem_erase_iff, h.mem]
    constructor
    · rintro ⟨ne, b, hb, rfl⟩
      exact ⟨b, (iff b).mpr ⟨fun e => ne (by rw [e]), hb⟩, rfl⟩
    · rintro ⟨b, hb, rfl⟩
      obtain ⟨ne, hb⟩ := (iff b).mp hb
      exact ⟨fun e => ne (Nat.add_right_cancel e), b, hb, rfl⟩
  nodup := h.nodup.erase _

end

end LearnC
