import LearnC.FreeList.Explicit
import LearnC.FreeList.Implicit

/-! What the request has to do with the block it gets: the rounding of its size, and
where the next header ends up. -/

namespace LearnC.FreeList

section
variable {H B : Type} {prog : Program H B} {I : H → Prop} {h h' : H} {w w' : World H} {op : Op}
  {a c n size : Nat} {finds : H → Nat → Option Nat}

theorem align4_properties (fit : n + 3 < 2 ^ 64) :
    n ≤ align4 n ∧ align4 n < n + 4 ∧ 4 ∣ align4 n := by
  rw [align4, Nat.mod_eq_of_lt fit]
  have := Nat.div_add_mod (n + 3) 4
  have := Nat.mod_lt (n + 3) (show 0 < 4 by decide)
  refine ⟨by omega, by omega, Nat.dvd_mul_left 4 _⟩

theorem align4_wraps (fit : n < 2 ^ 64) (wrap : 2 ^ 64 ≤ n + 3) : align4 n = 0 := by
  rw [align4]
  omega

def Honours (prog : Program H B) (h : H) (size : Nat) : Prop :=
  ∀ h' ptr, prog.malloc h size = some (h', some ptr) → size ≤ prog.sizeAt h' (ptr - prog.hdr)

theorem Tidy.size_lt (T : Tidy prog h) (ha : a ∈ prog.blocks h) :
    prog.sizeAt h a < 2 ^ 64 - 3 := by
  have := (T.tiles.bounds ha).2
  simp only [poolSize] at this
  omega

/-- A request is honoured unless its rounding wraps, and then only when no block is
left to serve it from. -/
theorem Rules.honours_iff (R : Rules prog I) (hI : I h) (fit : size < 2 ^ 64) :
    Honours prog h size ↔
      size + 3 < 2 ^ 64 ∨ ∀ a ∈ prog.blocks h, prog.freeAt h a = false := by
  constructor
  · intro honours
    by_cases small : size + 3 < 2 ^ 64
    · exact Or.inl small
    · have zero := align4_wraps fit (Nat.le_of_not_lt small)
      cases R.malloc h size hI with
      | inl full =>
        refine Or.inr fun a ha => ?_
        by_contra free
        have none := full.1 a ha (by simpa using free)
        rw [zero] at none
        exact absurd none (Nat.not_lt_zero _)
      | inr served =>
        obtain ⟨h', c, ret, hI', takes⟩ := served
        have room := honours h' _ ret
        rw [Nat.add_sub_cancel] at room
        have bound := (R.tidy h' hI').size_lt ((takes.used c).mpr (Or.inl rfl)).1
        omega
  · intro cond h' ptr ret
    cases R.malloc h size hI with
    | inl full => cases ret.symm.trans full.2
    | inr served =>
      obtain ⟨h₁, c, ret', _, takes⟩ := served
      cases ret.symm.trans ret'
      rw [Nat.add_sub_cancel]
      cases cond with
      | inl small => exact Nat.le_trans (align4_properties small).1 takes.room
      | inr none => cases takes.free.symm.trans (none c takes.mem)

/-! ## Header offsets -/

/-- The headers stand at multiples of 8, the alignment of the words in them. -/
def HeadersAligned (prog : Program H B) (h : H) : Prop := ∀ a ∈ prog.blocks h, 8 ∣ a

/-- `finds` is where the search of `my_malloc` stops, and `my_malloc` cuts that block. -/
structure Cuts (prog : Program H B) (I : H → Prop) (finds : H → Nat → Option Nat) : Prop where
  full : ∀ h size, I h → finds h (align4 size) = none → prog.malloc h size = some (h, none)
  serves : ∀ h size c, I h → finds h (align4 size) = some c →
    c ∈ prog.blocks h ∧ prog.freeAt h c = true ∧ align4 size ≤ prog.sizeAt h c ∧
      ∃ h', prog.malloc h size = some (h', some (c + prog.hdr)) ∧ Cut prog h h' c (align4 size)

/-- A block is only cut at a multiple of 8. -/
def EvenCut (prog : Program H B) (finds : H → Nat → Option Nat) (w : World H) : Op → Prop
  | .malloc size => ∀ c, finds w.heap (align4 size) = some c →
      Splits prog w.heap c (align4 size) → 8 ∣ align4 size
  | .free _ => True
  | .write _ => True

/-- Freeing makes no new header: a free block starts where a block in use ends, or
where the pool does, and did so before. -/
theorem Frees.sub (frees : Frees prog h h' a) (pos : 0 < prog.hdr) (T : Tidy prog h)
    (T' : Tidy prog h') (ha : prog.Used h a) : ∀ c ∈ prog.blocks h', c ∈ prog.blocks h := by
  intro c hc
  have inside := (T'.tiles.bounds hc).2
  cases mark : prog.freeAt h' c with
  | false => exact ((frees.used c).mp ⟨hc, mark⟩).2.1
  | true =>
    cases T'.tiles.prev hc with
    | inl first =>
      have T₀ := T.tiles
      cases eq : prog.blocks h with
      | nil => simp [Program.Used, eq] at ha
      | cons b bs =>
        rw [eq] at T₀
        rw [first, ← T₀.1]
        exact List.mem_cons_self
    | inr behind =>
      obtain ⟨p, hp, ends⟩ := behind
      have before : prog.freeAt h' p = false := by
        by_contra free
        apply T'.apart p hp (ends.symm ▸ hc)
        rw [ends]
        exact ⟨by simpa using free, mark⟩
      obtain ⟨ne, used⟩ := (frees.used p).mp ⟨hp, before⟩
      rw [frees.keeps p ne used] at ends
      cases T.tiles.next used.1 with
      | inl stops => omega
      | inr next => rwa [ends] at next

/-- A request keeps the headers aligned exactly when it does not cut at an odd
multiple of 4: the only new header is that of the rest. -/
theorem Cuts.malloc_aligned_iff (C : Cuts prog I finds) (pos : 0 < prog.hdr) (eight : 8 ∣ prog.hdr)
    (hI : I h) (T : Tidy prog h) (aligned : HeadersAligned prog h) {r : Option Nat}
    (ret : prog.malloc h size = some (h', r)) :
    HeadersAligned prog h' ↔ ∀ c, finds h (align4 size) = some c →
      Splits prog h c (align4 size) → 8 ∣ align4 size := by
  cases found : finds h (align4 size) with
  | none =>
    cases ret.symm.trans (C.full h size hI found)
    simp [aligned]
  | some c =>
    obtain ⟨hc, free, fits, h₁, ret', cut⟩ := C.serves h size c hI found
    cases ret.symm.trans ret'
    obtain ⟨_, _, blocks⟩ := cut.takes pos T hc free fits
    have rest : 8 ∣ c + prog.hdr + align4 size ↔ 8 ∣ align4 size :=
      Nat.dvd_add_right (Nat.dvd_add (aligned c hc) eight)
    rw [HeadersAligned, headers_dvd_iff blocks aligned, rest]
    constructor
    · intro even c' eq
      cases eq
      exact even
    · intro even
      exact even c rfl

theorem Cuts.step_aligned_iff (C : Cuts prog I finds) (R : Rules prog I) (eight : 8 ∣ prog.hdr)
    (inv : Inv prog I w) (aligned : HeadersAligned prog w.heap) (step : Step prog w op w') :
    EvenCut prog finds w op ↔ HeadersAligned prog w'.heap := by
  have T := R.tidy w.heap inv.heap
  have T' := R.tidy w'.heap (R.step_inv inv step).heap
  cases step with
  | malloc fit ret => exact (C.malloc_aligned_iff R.pos eight inv.heap T aligned ret).symm
  | free hp ret =>
    obtain ⟨a, ha, rfl⟩ := inv.block hp
    obtain ⟨h', ret', _, frees⟩ := R.free w.heap a inv.heap ha
    cases ret.symm.trans ret'
    simp only [EvenCut, true_iff]
    exact fun c hc => aligned c (frees.sub R.pos T T' ha c hc)
  | freeNull ret =>
    cases ret.symm.trans (R.freeNull w.heap)
    simpa only [EvenCut, true_iff] using aligned
  | write hp same =>
    obtain ⟨a, ha, rfl⟩ := inv.block hp
    rw [Nat.add_sub_cancel] at same
    have headers := T.write_headers R.pos ha same
    obtain ⟨_, blocks, _⟩ := T.same_headers R.pos (prog.setMem w.heap _)
      (by rw [R.mem_setMem]; exact headers)
    simp only [EvenCut, true_iff, HeadersAligned, blocks]
    exact aligned

theorem Cuts.aligned_iff (C : Cuts prog I finds) (R : Rules prog I) (eight : 8 ∣ prog.hdr)
    (inv : Inv prog I w) (start : HeadersAligned prog w.heap) (ops : List Op) :
    Run (Into (fun w => HeadersAligned prog w.heap) (Step prog)) w ops w' ↔
      Run (When (EvenCut prog finds) (Step prog)) w ops w' := by
  symm
  apply run_when_iff_into (J := Inv prog I) inv _ start
  · intro v op v' inv aligned step
    exact C.step_aligned_iff R eight inv aligned step
  · intro v op v' inv step
    exact R.step_inv inv step

theorem start_aligned (one : prog.blocks h = [0]) : HeadersAligned prog h := by
  intro a ha
  rw [one, List.mem_singleton] at ha
  rw [ha]
  exact Nat.dvd_zero 8

end

namespace Implicit

def finds (h : Heap) (n : Nat) : Option Nat :=
  (findBlock sizeofHeader poolSize h.size (fits h n) turns 0).join

theorem cuts : Cuts implicit (Tidy implicit) finds where
  full h size T stop := by
    rw [finds, search_eq T] at stop
    simp only [Option.join_some] at stop
    have ret : myMalloc h size = some (h, none) := by simp [myMalloc, search_eq T, stop]
    exact ret
  serves h size c T stop := by
    rw [finds, search_eq T] at stop
    simp only [Option.join_some] at stop
    have fit := List.find?_some stop
    simp only [fits, Bool.and_eq_true, decide_eq_true_eq] at fit
    have ret : myMalloc h size = some (take h c (align4 size), some (c + sizeofHeader)) := by
      simp [myMalloc, search_eq T, stop]
    exact ⟨List.mem_of_find?_eq_some stop, fit.1, fit.2, _, ret, take_cut h c (align4 size)⟩

end Implicit

namespace Explicit

def finds (h : Heap) (n : Nat) : Option Nat :=
  (chainFind h.next (fits h n) turns h.freeList).join

theorem cuts : Cuts explicit Sound finds where
  full h size s stop := by
    obtain ⟨xs, _, search⟩ := search_eq s (align4 size)
    rw [finds, search] at stop
    simp only [Option.join_some] at stop
    have ret : myMalloc h size = some (h, none) := by simp [myMalloc, search, stop]
    exact ret
  serves h size c s stop := by
    obtain ⟨xs, mem, search⟩ := search_eq s (align4 size)
    rw [finds, search] at stop
    simp only [Option.join_some] at stop
    have hc := (mem c).mp (List.mem_of_find?_eq_some stop)
    have fit := List.find?_some stop
    simp only [fits, Bool.and_eq_true, decide_eq_true_eq] at fit
    have ret : myMalloc h size = some (take h c (align4 size), some (c + sizeofBlock)) := by
      simp [myMalloc, search, stop]
    exact ⟨hc.1, fit.1, fit.2, _, ret, take_cut h c (align4 size)⟩

end Explicit

end LearnC.FreeList
