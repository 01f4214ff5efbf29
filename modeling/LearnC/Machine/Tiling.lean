import Mathlib.Algebra.GroupWithZero.Nat
import Mathlib.Data.List.Nodup

/-! A region cut into blocks, each a header followed by its payload. -/

namespace LearnC

section
variable {hdr stop off a b : Nat} {size size' : Nat → Nat} {xs ys zs : List Nat}

/-- From `off`, the blocks with headers at `xs` follow one another up to `stop`. -/
def Tiles (hdr stop : Nat) (size : Nat → Nat) : Nat → List Nat → Prop
  | off, [] => off = stop
  | off, a :: xs => a = off ∧ Tiles hdr stop size (a + hdr + size a) xs

/-- The walk from header to header; `fuel` bounds its length. -/
def tileWalk (hdr stop : Nat) (size : Nat → Nat) : Nat → Nat → List Nat
  | 0, _ => []
  | fuel + 1, off =>
    if off < stop then off :: tileWalk hdr stop size fuel (off + hdr + size off) else []

theorem Tiles.le (h : Tiles hdr stop size off xs) : off ≤ stop := by
  induction xs generalizing off with
  | nil => exact Nat.le_of_eq h
  | cons a xs ih =>
    obtain ⟨rfl, h⟩ := h
    have := ih h
    omega

theorem Tiles.bounds (h : Tiles hdr stop size off xs) (ha : a ∈ xs) :
    off ≤ a ∧ a + hdr + size a ≤ stop := by
  induction xs generalizing off with
  | nil => simp at ha
  | cons b xs ih =>
    obtain ⟨rfl, h⟩ := h
    rcases List.mem_cons.mp ha with rfl | ha
    · exact ⟨Nat.le_refl _, h.le⟩
    · have := ih h ha
      omega

theorem Tiles.sum (h : Tiles hdr stop size off xs) :
    off + (xs.map size).sum + hdr * xs.length = stop := by
  induction xs generalizing off with
  | nil => simpa [Tiles] using h
  | cons a xs ih =>
    obtain ⟨rfl, h⟩ := h
    have rest := ih h
    rw [List.map_cons, List.sum_cons, List.length_cons, Nat.mul_succ]
    omega

theorem Tiles.at_mid (h : Tiles hdr stop size off (ys ++ a :: zs)) :
    Tiles hdr stop size (a + hdr + size a) zs := by
  induction ys generalizing off with
  | nil => exact h.2
  | cons b ys ih => exact ih h.2

theorem Tiles.apart (h : Tiles hdr stop size off xs) (pos : 0 < hdr) (ha : a ∈ xs) (hb : b ∈ xs)
    (lt : a < b) : a + hdr + size a ≤ b := by
  induction xs generalizing off with
  | nil => simp at ha
  | cons c xs ih =>
    obtain ⟨rfl, h⟩ := h
    rcases List.mem_cons.mp ha with rfl | ha' <;> rcases List.mem_cons.mp hb with rfl | hb'
    · omega
    · exact (h.bounds hb').1
    · have := (h.bounds ha').1
      omega
    · exact ih h ha' hb'

theorem Tiles.nodup (h : Tiles hdr stop size off xs) (pos : 0 < hdr) : xs.Nodup := by
  induction xs generalizing off with
  | nil => exact List.nodup_nil
  | cons a xs ih =>
    obtain ⟨rfl, h⟩ := h
    refine List.nodup_cons.mpr ⟨?_, ih h⟩
    intro ha
    have := (h.bounds ha).1
    omega

theorem Tiles.length_le (h : Tiles hdr stop size off xs) (pos : 0 < hdr) :
    off + xs.length ≤ stop := by
  induction xs generalizing off with
  | nil => exact Nat.le_of_eq h
  | cons a xs ih =>
    obtain ⟨rfl, h⟩ := h
    have := ih h
    rw [List.length_cons]
    omega

theorem Tiles.congr (h : Tiles hdr stop size off xs) (same : ∀ a ∈ xs, size' a = size a) :
    Tiles hdr stop size' off xs := by
  induction xs generalizing off with
  | nil => exact h
  | cons a xs ih =>
    refine ⟨h.1, ?_⟩
    rw [same a List.mem_cons_self]
    exact ih h.2 fun b hb => same b (List.mem_cons_of_mem a hb)

/-- The end of a split block becomes a block of its own. -/
theorem Tiles.split (h : Tiles hdr stop size off (ys ++ a :: zs))
    (room : size' a + hdr ≤ size a)
    (rest : size' (a + hdr + size' a) = size a - size' a - hdr)
    (same : ∀ b ∈ ys ++ zs, size' b = size b) :
    Tiles hdr stop size' off (ys ++ a :: (a + hdr + size' a) :: zs) := by
  induction ys generalizing off with
  | nil =>
    obtain ⟨rfl, h⟩ := h
    refine ⟨rfl, rfl, ?_⟩
    rw [rest]
    have : a + hdr + size' a + hdr + (size a - size' a - hdr) = a + hdr + size a := by omega
    rw [this]
    exact h.congr same
  | cons b ys ih =>
    refine ⟨h.1, ?_⟩
    rw [same b List.mem_cons_self]
    exact ih h.2 fun c hc => same c (List.mem_cons_of_mem b hc)

/-- A block of a tiled region, wherever it stands, is cut in two. -/
theorem Tiles.cut (h : Tiles hdr stop size off xs) (pos : 0 < hdr) (ha : a ∈ xs)
    (room : size' a + hdr ≤ size a)
    (rest : size' (a + hdr + size' a) = size a - size' a - hdr)
    (same : ∀ b ∈ xs, b ≠ a → size' b = size b) :
    ∃ ys, Tiles hdr stop size' off ys ∧ ∀ b, b ∈ ys ↔ b = a + hdr + size' a ∨ b ∈ xs := by
  obtain ⟨ys, zs, rfl⟩ := List.append_of_mem ha
  have away : ∀ b ∈ ys ++ zs, b ≠ a := by
    rintro b hb rfl
    exact (List.nodup_cons.mp (List.nodup_middle.mp (h.nodup pos))).1 hb
  have others : ∀ b ∈ ys ++ zs, size' b = size b := by
    intro b hb
    exact same b (by simp at hb ⊢; tauto) (away b hb)
  refine ⟨_, h.split room rest others, ?_⟩
  intro b
  simp only [List.mem_append, List.mem_cons]
  tauto

theorem Tiles.merge (h : Tiles hdr stop size off (ys ++ a :: b :: zs))
    (both : size' a = size a + (hdr + size b)) (same : ∀ c ∈ ys ++ zs, size' c = size c) :
    Tiles hdr stop size' off (ys ++ a :: zs) := by
  induction ys generalizing off with
  | nil =>
    obtain ⟨rfl, rfl, h⟩ := h
    refine ⟨rfl, ?_⟩
    have : a + hdr + size' a = a + hdr + size a + hdr + size (a + hdr + size a) := by omega
    rw [this]
    exact h.congr same
  | cons c ys ih =>
    refine ⟨h.1, ?_⟩
    rw [same c List.mem_cons_self]
    exact ih h.2 fun d hd => same d (List.mem_cons_of_mem c hd)

theorem Tiles.next (h : Tiles hdr stop size off xs) (ha : a ∈ xs) :
    a + hdr + size a = stop ∨ a + hdr + size a ∈ xs := by
  induction xs generalizing off with
  | nil => simp at ha
  | cons b xs ih =>
    obtain ⟨rfl, h⟩ := h
    rcases List.mem_cons.mp ha with rfl | ha
    · cases xs with
      | nil => exact Or.inl h
      | cons c xs =>
        rw [← h.1]
        exact Or.inr (List.mem_cons_of_mem a List.mem_cons_self)
    · exact (ih h ha).imp_right (List.mem_cons_of_mem b)

/-- A block starts where the region does or where another block ends. -/
theorem Tiles.prev (h : Tiles hdr stop size off xs) (ha : a ∈ xs) :
    a = off ∨ ∃ b ∈ xs, b + hdr + size b = a := by
  induction xs generalizing off with
  | nil => simp at ha
  | cons b xs ih =>
    obtain ⟨rfl, h⟩ := h
    cases ha with
    | head => exact Or.inl rfl
    | tail _ ha =>
      cases ih h ha with
      | inl first => exact Or.inr ⟨b, List.mem_cons_self, first.symm⟩
      | inr behind =>
        obtain ⟨c, hc, ends⟩ := behind
        exact Or.inr ⟨c, List.mem_cons_of_mem b hc, ends⟩

theorem Tiles.cover (h : Tiles hdr stop size off xs) {x : Nat} (lo : off ≤ x) (hi : x < stop) :
    ∃ a ∈ xs, a ≤ x ∧ x < a + hdr + size a := by
  induction xs generalizing off with
  | nil =>
    have : off = stop := h
    omega
  | cons a xs ih =>
    obtain ⟨rfl, h⟩ := h
    by_cases lt : x < a + hdr + size a
    · exact ⟨a, List.mem_cons_self, lo, lt⟩
    · obtain ⟨b, hb, inside⟩ := ih h (by omega)
      exact ⟨b, List.mem_cons_of_mem a hb, inside⟩

theorem Tiles.walk (h : Tiles hdr stop size off xs) (pos : 0 < hdr) {fuel : Nat}
    (hf : stop - off ≤ fuel) : tileWalk hdr stop size fuel off = xs := by
  induction xs generalizing off fuel with
  | nil =>
    have : off = stop := h
    cases fuel <;> simp [tileWalk, this]
  | cons a xs ih =>
    obtain ⟨rfl, h⟩ := h
    have hle := h.le
    cases fuel with
    | zero => omega
    | succ fuel =>
      have lt : a < stop := by omega
      simp only [tileWalk, lt, ↓reduceIte, List.cons.injEq, true_and]
      exact ih h (by omega)

/-- Where a header comes in under a condition, all stand at multiples of `d` if it does. -/
theorem headers_dvd_iff {bs bs' : List Nat} {d x : Nat} {cuts : Prop}
    (new : ∀ b, b ∈ bs' ↔ (cuts ∧ b = x) ∨ b ∈ bs) (old : ∀ b ∈ bs, d ∣ b) :
    (∀ b ∈ bs', d ∣ b) ↔ (cuts → d ∣ x) := by
  constructor
  · intro all cut
    exact all x ((new x).mpr (Or.inl ⟨cut, rfl⟩))
  · intro even b hb
    cases (new b).mp hb with
    | inl here =>
      rw [here.2]
      exact even here.1
    | inr before => exact old b before

end

/-! ## Cutting blocks up -/

section
variable {hdr n : Nat} {size size' size'' : Nat → Nat} {xs ys zs : List Nat}

/-- Every block of `xs` is still there, if not as long, and the blocks of `ys` lie
inside those of `xs`. -/
structure Finer (hdr : Nat) (size size' : Nat → Nat) (xs ys : List Nat) : Prop where
  kept : ∀ a ∈ xs, a ∈ ys ∧ size' a ≤ size a
  inside : ∀ b ∈ ys, ∃ a ∈ xs, a ≤ b ∧ b + hdr + size' b ≤ a + hdr + size a

theorem Finer.refl (hdr : Nat) (size : Nat → Nat) (xs : List Nat) :
    Finer hdr size size xs xs where
  kept _ ha := ⟨ha, Nat.le_refl _⟩
  inside b hb := ⟨b, hb, Nat.le_refl _, Nat.le_refl _⟩

theorem Finer.trans (f : Finer hdr size size' xs ys) (f' : Finer hdr size' size'' ys zs) :
    Finer hdr size size'' xs zs where
  kept a ha := by
    obtain ⟨mid, le⟩ := f.kept a ha
    obtain ⟨last, le'⟩ := f'.kept a mid
    exact ⟨last, Nat.le_trans le' le⟩
  inside c hc := by
    obtain ⟨b, hb, lo', hi'⟩ := f'.inside c hc
    obtain ⟨a, ha, lo, hi⟩ := f.inside b hb
    exact ⟨a, ha, Nat.le_trans lo lo', Nat.le_trans hi' hi⟩

theorem Finer.shorter (f : Finer hdr size size' xs ys) (short : ∀ a ∈ xs, size a < n) :
    ∀ b ∈ ys, size' b < n := by
  intro b hb
  obtain ⟨a, ha, lo, hi⟩ := f.inside b hb
  have := short a ha
  omega

end

end LearnC
