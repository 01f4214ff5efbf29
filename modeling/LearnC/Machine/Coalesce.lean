import Mathlib.Data.Finset.Max
import Mathlib.Order.Bounds.Basic
import LearnC.Machine.Tiling

/-! Loops over a region cut into blocks: looking for a block, listing the blocks,
and joining neighbours that are both free. A header that is not inside the region
cannot be read. -/

namespace LearnC

section
variable (hdr stop : Nat) (size : Nat → Nat)

/-- The first block from `off` on that `p` accepts. -/
def findBlock (p : Nat → Bool) : Nat → Nat → Option (Option Nat)
  | 0, _ => none
  | fuel + 1, off =>
    if off < stop then
      if off + hdr ≤ stop then
        if p off then some (some off) else findBlock p fuel (off + hdr + size off)
      else none
    else some none

def listBlocks : Nat → Nat → Option (List Nat)
  | 0, _ => none
  | fuel + 1, off =>
    if off < stop then
      if off + hdr ≤ stop then (listBlocks fuel (off + hdr + size off)).map (off :: ·) else none
    else some []

/-- Two free blocks next to each other become one, which is then looked at again. -/
def coalesce {S : Type} (size : S → Nat → Nat) (free : S → Nat → Bool)
    (join : S → Nat → Nat → S) : Nat → S → Nat → Option S
  | 0, _, _ => none
  | fuel + 1, s, curr =>
    if curr < stop then
      if curr + hdr ≤ stop then
        let next := curr + hdr + size s curr
        if stop ≤ next then some s
        else if next + hdr ≤ stop then
          if free s curr && free s next then coalesce size free join fuel (join s curr next) curr
          else coalesce size free join fuel s next
        else none
      else none
    else some s

end

section
variable {hdr stop off a b fuel : Nat} {size : Nat → Nat} {free : Nat → Bool} {p : Nat → Bool}
  {xs : List Nat}

theorem Tiles.findBlock (h : Tiles hdr stop size off xs) (pos : 0 < hdr)
    (hf : stop - off < fuel) : findBlock hdr stop size p fuel off = some (xs.find? p) := by
  induction xs generalizing off fuel with
  | nil =>
    have : off = stop := h
    obtain ⟨fuel, rfl⟩ : ∃ n, fuel = n + 1 := ⟨fuel - 1, by omega⟩
    simp [LearnC.findBlock, this]
  | cons a xs ih =>
    obtain ⟨rfl, h⟩ := h
    have le := h.le
    obtain ⟨fuel, rfl⟩ : ∃ n, fuel = n + 1 := ⟨fuel - 1, by omega⟩
    have lt : a < stop := by omega
    have inside : a + hdr ≤ stop := by omega
    cases hp : p a with
    | true => simp [LearnC.findBlock, lt, inside, hp]
    | false =>
      simp only [LearnC.findBlock, lt, inside, hp, ↓reduceIte, Bool.false_eq_true,
        List.find?_cons_of_neg, not_false_eq_true]
      exact ih h (by omega)

theorem Tiles.listBlocks (h : Tiles hdr stop size off xs) (pos : 0 < hdr)
    (hf : stop - off < fuel) : listBlocks hdr stop size fuel off = some xs := by
  induction xs generalizing off fuel with
  | nil =>
    have : off = stop := h
    obtain ⟨fuel, rfl⟩ : ∃ n, fuel = n + 1 := ⟨fuel - 1, by omega⟩
    simp [LearnC.listBlocks, this]
  | cons a xs ih =>
    obtain ⟨rfl, h⟩ := h
    have le := h.le
    obtain ⟨fuel, rfl⟩ : ∃ n, fuel = n + 1 := ⟨fuel - 1, by omega⟩
    have lt : a < stop := by omega
    have inside : a + hdr ≤ stop := by omega
    simp only [LearnC.listBlocks, lt, inside, ↓reduceIte]
    rw [ih h (by omega)]
    rfl

/-! ## Free neighbours -/

/-- No two blocks next to each other are both free. -/
def Coalesced (hdr : Nat) (size : Nat → Nat) (free : Nat → Bool) (xs : List Nat) : Prop :=
  ∀ a ∈ xs, a + hdr + size a ∈ xs → ¬ (free a = true ∧ free (a + hdr + size a) = true)

/-- The bytes `lo`, .., `lo + n - 1` are in no block in use. -/
def Unused (hdr stop : Nat) (size : Nat → Nat) (used : Nat → Prop) (lo n : Nat) : Prop :=
  lo + n ≤ stop ∧ ∀ x, lo ≤ x → x < lo + n → ∀ a, used a → ¬ (a ≤ x ∧ x < a + hdr + size a)

/-- A run of unused bytes stays inside one free block. -/
theorem Coalesced.unused_inside (co : Coalesced hdr size free xs)
    (t : Tiles hdr stop size 0 xs) (pos : 0 < hdr) {lo n : Nat} (some : 0 < n)
    (unused : Unused hdr stop size (fun a => a ∈ xs ∧ free a = false) lo n) :
    ∃ b ∈ xs, free b = true ∧ b ≤ lo ∧ lo + n ≤ b + hdr + size b := by
  obtain ⟨le, out⟩ := unused
  have isFree {b x : Nat} (hb : b ∈ xs) (lo' : lo ≤ x) (hi : x < lo + n) (below : b ≤ x)
      (above : x < b + hdr + size b) : free b = true := by
    by_contra used
    exact out x lo' hi b ⟨hb, by simpa using used⟩ ⟨below, above⟩
  obtain ⟨b, hb, below, above⟩ := t.cover (Nat.zero_le lo) (by omega)
  have hfree := isFree hb (Nat.le_refl lo) (by omega) below above
  refine ⟨b, hb, hfree, below, ?_⟩
  -- Otherwise the run goes on into the next block, which would be free as well.
  by_contra beyond
  rcases t.next hb with stops | next
  · omega
  · exact co b hb next ⟨hfree, isFree next (by omega) (by omega) (Nat.le_refl _) (by omega)⟩

/-- The largest free block is the longest run of unused bytes. -/
theorem Coalesced.longest (co : Coalesced hdr size free xs) (t : Tiles hdr stop size 0 xs)
    (pos : 0 < hdr) (ha : a ∈ xs) (hf : free a = true)
    (max : ∀ b ∈ xs, free b = true → size b ≤ size a) :
    IsGreatest {n | ∃ lo, Unused hdr stop size (fun b => b ∈ xs ∧ free b = false) lo n}
      (hdr + size a) := by
  constructor
  · refine ⟨a, ?_, ?_⟩
    · have := (t.bounds ha).2
      omega
    · rintro x lo hi b ⟨hb, used⟩ ⟨below, above⟩
      rcases Nat.lt_trichotomy a b with lt | rfl | gt
      · have := t.apart pos ha hb lt
        omega
      · cases hf.symm.trans used
      · have := t.apart pos hb ha gt
        omega
  · rintro n ⟨lo, unused⟩
    rcases Nat.eq_zero_or_pos n with rfl | some
    · exact Nat.zero_le _
    · obtain ⟨b, hb, hfree, below, above⟩ := co.unused_inside t pos some unused
      have := max b hb hfree
      omega

theorem Unused.congr {used used' : Nat → Prop} {lo n : Nat} (iff : ∀ a, used' a ↔ used a) :
    Unused hdr stop size used' lo n ↔ Unused hdr stop size used lo n := by
  simp only [Unused, iff]

theorem exists_largest (some : ∃ a ∈ xs, free a = true) :
    ∃ a ∈ xs, free a = true ∧ ∀ b ∈ xs, free b = true → size b ≤ size a := by
  have nonempty : (xs.toFinset.filter fun a => free a = true).Nonempty := by
    obtain ⟨a, ha, hf⟩ := some
    exact ⟨a, by simp [ha, hf]⟩
  obtain ⟨a, ha, max⟩ := Finset.exists_max_image _ size nonempty
  simp only [Finset.mem_filter, List.mem_toFinset, and_imp] at ha max
  exact ⟨a, ha.1, ha.2, max⟩

/-- A block is cut in two, of which the second stays free. -/
theorem Coalesced.split {size' : Nat → Nat} {free' : Nat → Bool} {ys : List Nat} {c new : Nat}
    (co : Coalesced hdr size free xs) (t : Tiles hdr stop size 0 xs) (pos : 0 < hdr)
    (hc : c ∈ xs) (hf : free c = true) (used : free' c = false)
    (mem : ∀ b, b ∈ ys ↔ b = new ∨ b ∈ xs) (inside : c < new ∧ new < c + hdr + size c)
    (rest : new + hdr + size' new = c + hdr + size c)
    (sizes : ∀ b ∈ xs, b ≠ c → size' b = size b) (marks : ∀ b ∈ xs, b ≠ c → free' b = free b) :
    Coalesced hdr size' free' ys := by
  rintro a ha hn ⟨fa, fb⟩
  have ne : a ≠ c := by
    rintro rfl
    cases used.symm.trans fa
  have ne' : a + hdr + size' a ≠ c := by
    intro e
    rw [e] at fb
    cases used.symm.trans fb
  rcases (mem a).mp ha with rfl | ha
  · -- Behind the rest stands what stood behind the whole block.
    rw [rest] at hn fb
    have old : c + hdr + size c ∈ xs := ((mem _).mp hn).resolve_left (by omega)
    exact co c hc old ⟨hf, (marks _ old (by omega)) ▸ fb⟩
  · rw [sizes a ha ne] at hn fb ne'
    rcases (mem _).mp hn with e | old
    · rcases Nat.lt_or_gt_of_ne ne with lt | gt
      · have := t.apart pos ha hc lt
        omega
      · have := t.apart pos hc ha gt
        omega
    · exact co a ha old ⟨marks a ha ne ▸ fa, marks _ old ne' ▸ fb⟩

theorem Coalesced.take {size' : Nat → Nat} {free' : Nat → Bool}
    (co : Coalesced hdr size free xs) (sizes : ∀ b ∈ xs, size' b = size b)
    (marks : ∀ b, free' b = true → free b = true) : Coalesced hdr size' free' xs := by
  rintro a ha hn ⟨fa, fb⟩
  rw [sizes a ha] at hn fb
  exact co a ha hn ⟨marks _ fa, marks _ fb⟩

theorem Coalesced.congr {size' : Nat → Nat} {free' : Nat → Bool}
    (co : Coalesced hdr size free xs) (sizes : ∀ b ∈ xs, size' b = size b)
    (marks : ∀ b ∈ xs, free' b = free b) : Coalesced hdr size' free' xs := by
  intro a ha hn
  rw [sizes a ha] at hn ⊢
  rw [marks a ha, marks _ hn]
  exact co a ha hn

theorem Coalesced.single (co : Coalesced hdr size free xs) (t : Tiles hdr stop size 0 xs)
    (some : 0 < stop) (all : ∀ a ∈ xs, free a = true) : xs = [0] ∧ size 0 = stop - hdr := by
  cases xs with
  | nil =>
    have : 0 = stop := t
    omega
  | cons a xs =>
    obtain ⟨rfl, t'⟩ := t
    cases xs with
    | nil =>
      have : 0 + hdr + size 0 = stop := t'
      exact ⟨rfl, by omega⟩
    | cons b xs =>
      have hb : b = 0 + hdr + size 0 := t'.1
      have mem : 0 + hdr + size 0 ∈ 0 :: b :: xs := by simp [hb]
      exact absurd ⟨all 0 List.mem_cons_self, all _ mem⟩ (co 0 List.mem_cons_self mem)

/-- The same blocks of two regions are in use, with the same sizes. -/
structure SameUsed (size size' : Nat → Nat) (free free' : Nat → Bool) (xs ys : List Nat) :
    Prop where
  used : ∀ a, (a ∈ xs ∧ free a = false) ↔ (a ∈ ys ∧ free' a = false)
  sizes : ∀ a ∈ xs, free a = false → size' a = size a

section
variable {size' : Nat → Nat} {free' : Nat → Bool} {ys : List Nat}

theorem SameUsed.symm (S : SameUsed size size' free free' xs ys) :
    SameUsed size' size free' free ys xs where
  used a := (S.used a).symm
  sizes a mem used := by
    obtain ⟨mem, used⟩ := (S.used a).mpr ⟨mem, used⟩
    exact (S.sizes a mem used).symm

theorem SameUsed.tail (S : SameUsed size size' free free' (a :: xs) (a :: ys))
    (out : a ∉ xs) (out' : a ∉ ys) : SameUsed size size' free free' xs ys where
  used b := by
    have both := S.used b
    by_cases eq : b = a
    · subst eq
      simp [out, out']
    · simpa [eq] using both
  sizes b mem := S.sizes b (List.mem_cons_of_mem a mem)

theorem SameUsed.first_le (S : SameUsed size size' free free' (a :: xs) (a :: ys)) (pos : 0 < hdr)
    (t : Tiles hdr stop size off (a :: xs)) (t' : Tiles hdr stop size' off (a :: ys))
    (co : Coalesced hdr size free (a :: xs)) (hf : free a = true) : size' a ≤ size a := by
  by_contra longer
  obtain ⟨rfl, rest⟩ := t
  have fits := (t'.bounds List.mem_cons_self).2
  cases xs with
  | nil =>
    have ends : a + hdr + size a = stop := rest
    omega
  | cons b xs =>
    -- The next block is in use, and would begin inside the longer one.
    obtain ⟨rfl, _⟩ := rest
    have next : a + hdr + size a ∈ a :: (a + hdr + size a) :: xs := by simp
    have used : free (a + hdr + size a) = false := by
      by_contra both
      exact co a List.mem_cons_self next ⟨hf, by simpa using both⟩
    have mem := ((S.used _).mp ⟨next, used⟩).1
    have apart := t'.apart pos List.mem_cons_self mem (by omega)
    omega

theorem Coalesced.tail (co : Coalesced hdr size free (a :: xs)) : Coalesced hdr size free xs :=
  fun b mem next => co b (List.mem_cons_of_mem a mem) (List.mem_cons_of_mem a next)

/-- Where no two neighbours are free, the blocks in use determine the free ones. -/
theorem Coalesced.determined (S : SameUsed size size' free free' xs ys) (pos : 0 < hdr)
    (t : Tiles hdr stop size off xs) (t' : Tiles hdr stop size' off ys)
    (co : Coalesced hdr size free xs) (co' : Coalesced hdr size' free' ys) :
    ys = xs ∧ ∀ a ∈ xs, size' a = size a ∧ free' a = free a := by
  induction xs generalizing off ys with
  | nil =>
    cases ys with
    | nil => simp
    | cons b ys =>
      obtain rfl : off = stop := t
      have := (t'.bounds List.mem_cons_self).2
      have := t'.1
      omega
  | cons a xs ih =>
    cases ys with
    | nil =>
      obtain rfl : off = stop := t'
      have := (t.bounds List.mem_cons_self).2
      have := t.1
      omega
    | cons b ys =>
      obtain rfl : b = a := t'.1.trans t.1.symm
      have marks : free' b = free b := by
        have first := S.used b
        simp only [List.mem_cons_self, true_and] at first
        exact Bool.eq_iff_iff.mpr (by simpa using (not_congr first).symm)
      have sizes : size' b = size b := by
        cases hf : free b with
        | false => exact S.sizes b List.mem_cons_self hf
        | true =>
          have le := S.first_le pos t t' co hf
          have ge := S.symm.first_le pos t' t co' (marks.trans hf)
          omega
      have rest := S.tail (List.nodup_cons.mp (t.nodup pos)).1 (List.nodup_cons.mp (t'.nodup pos)).1
      have behind : Tiles hdr stop size' (b + hdr + size b) ys := sizes ▸ t'.2
      obtain ⟨rfl, others⟩ := ih rest t.2 behind co.tail co'.tail
      exact ⟨rfl, List.forall_mem_cons.mpr ⟨⟨sizes, marks⟩, others⟩⟩

end

end

/-! ## The joining loop -/

section
variable {S : Type} {hdr stop curr fuel : Nat} {size : S → Nat → Nat} {free : S → Nat → Bool}
  {join : S → Nat → Nat → S} {I : S → List Nat → Prop} {s s' : S} {xs xs' ys zs : List Nat}

/-- What joining two free neighbours does to the headers, and that it keeps `I`. -/
structure Joins (hdr stop : Nat) (size : S → Nat → Nat) (free : S → Nat → Bool)
    (join : S → Nat → Nat → S) (I : S → List Nat → Prop) : Prop where
  sizes : ∀ s a b c, size (join s a b) c = if c = a then size s a + (hdr + size s b) else size s c
  marks : ∀ s a b c, free (join s a b) c = free s c
  inv : ∀ s ys a b zs, Tiles hdr stop (size s) 0 (ys ++ a :: b :: zs) →
    I s (ys ++ a :: b :: zs) → free s a = true → free s b = true →
    I (join s a b) (ys ++ a :: zs)

/-- The blocks in use stay as they are, and no two free ones are neighbours. -/
structure Coalesces (hdr stop : Nat) (size : S → Nat → Nat) (free : S → Nat → Bool)
    (s s' : S) (xs xs' : List Nat) : Prop where
  tiles : Tiles hdr stop (size s') 0 xs'
  apart : Coalesced hdr (size s') (free s') xs'
  marks : ∀ c, free s' c = free s c
  used : ∀ c, free s c = false → (c ∈ xs' ↔ c ∈ xs) ∧ size s' c = size s c

theorem Joins.tiles (J : Joins hdr stop size free join I) (pos : 0 < hdr) {a b : Nat}
    (t : Tiles hdr stop (size s) 0 (ys ++ a :: b :: zs)) :
    Tiles hdr stop (size (join s a b)) 0 (ys ++ a :: zs) ∧
      ∀ c ∈ ys ++ zs, size (join s a b) c = size s c := by
  have away : ∀ c ∈ ys ++ b :: zs, c ≠ a := by
    rintro c hcm rfl
    exact (List.nodup_cons.mp (List.nodup_middle.mp (t.nodup pos))).1 hcm
  have joined : size (join s a b) a = size s a + (hdr + size s b) := by
    rw [J.sizes, if_pos rfl]
  have other : ∀ c ∈ ys ++ zs, size (join s a b) c = size s c := by
    intro c hcm
    rw [J.sizes, if_neg (away c (by simp at hcm ⊢; tauto))]
  exact ⟨t.merge joined other, other⟩

theorem Coalesces.after_join (J : Joins hdr stop size free join I) {a b : Nat}
    (ha : free s a = true) (hb : free s b = true)
    (rest : Coalesces hdr stop size free (join s a b) s' (ys ++ a :: zs) xs') :
    Coalesces hdr stop size free s s' (ys ++ a :: b :: zs) xs' where
  tiles := rest.tiles
  apart := rest.apart
  marks c := (rest.marks c).trans (J.marks s a b c)
  used c hc := by
    obtain ⟨mem, same⟩ := rest.used c ((J.marks s a b c).trans hc)
    have na : c ≠ a := by
      rintro rfl
      cases ha.symm.trans hc
    have nb : c ≠ b := by
      rintro rfl
      cases hb.symm.trans hc
    rw [mem, same, J.sizes, if_neg na]
    simp [nb]

/-- From a block before which no neighbours are left to join, the loop joins the rest. -/
theorem coalesce_spec (J : Joins hdr stop size free join I) (pos : 0 < hdr)
    (t : Tiles hdr stop (size s) 0 (ys ++ curr :: zs)) (inv : I s (ys ++ curr :: zs))
    (done : ∀ a ∈ ys, ¬ (free s a = true ∧ free s (a + hdr + size s a) = true))
    (hf : stop - (curr + hdr + size s curr) < fuel) :
    ∃ s' xs', coalesce hdr stop size free join fuel s curr = some s' ∧ I s' xs' ∧
      Coalesces hdr stop size free s s' (ys ++ curr :: zs) xs' := by
  induction zs generalizing s ys curr fuel with
  | nil =>
    have last : curr + hdr + size s curr = stop := t.at_mid
    have lt : curr < stop := by omega
    have inside : curr + hdr ≤ stop := by omega
    obtain ⟨fuel, rfl⟩ : ∃ n, fuel = n + 1 := ⟨fuel - 1, by omega⟩
    refine ⟨s, ys ++ [curr], by simp [coalesce, last, lt, inside], inv, t, ?_, fun _ => rfl,
      fun _ _ => ⟨Iff.rfl, rfl⟩⟩
    intro a ha next
    rcases List.mem_append.mp ha with ha | ha
    · exact done a ha
    · cases List.mem_singleton.mp ha
      have := (t.bounds next).2
      omega
  | cons next zs ih =>
    obtain ⟨follows, t'⟩ := t.at_mid
    have le := t'.le
    have lt : curr < stop := by omega
    have inside : curr + hdr ≤ stop := by omega
    have more : ¬ stop ≤ next := by omega
    have inside' : next + hdr ≤ stop := by omega
    obtain ⟨fuel, rfl⟩ : ∃ n, fuel = n + 1 := ⟨fuel - 1, by omega⟩
    by_cases both : free s curr = true ∧ free s next = true
    · obtain ⟨hc, hn⟩ := both
      obtain ⟨tiles, other⟩ := J.tiles pos t
      have joined : size (join s curr next) curr = size s curr + (hdr + size s next) := by
        rw [J.sizes, if_pos rfl]
      have done' : ∀ a ∈ ys, ¬ (free (join s curr next) a = true ∧
          free (join s curr next) (a + hdr + size (join s curr next) a) = true) := by
        intro a ha
        rw [other a (List.mem_append_left zs ha), J.marks, J.marks]
        exact done a ha
      have hf' : stop - (curr + hdr + size (join s curr next) curr) < fuel := by omega
      obtain ⟨s', xs', ret, inv', rest⟩ := ih tiles
        (J.inv s ys curr next zs t inv hc hn) done' hf'
      refine ⟨s', xs', ?_, inv', rest.after_join J hc hn⟩
      simp only [coalesce, lt, inside, more, inside', ← follows, hc, hn, ↓reduceIte, Bool.and_self]
      exact ret
    · rw [List.append_cons] at t inv ⊢
      have done' : ∀ a ∈ ys ++ [curr],
          ¬ (free s a = true ∧ free s (a + hdr + size s a) = true) := by
        intro a ha
        rcases List.mem_append.mp ha with ha | ha
        · exact done a ha
        · cases List.mem_singleton.mp ha
          rwa [← follows]
      have hf' : stop - (next + hdr + size s next) < fuel := by omega
      obtain ⟨s', xs', ret, inv', rest⟩ := ih t inv done' hf'
      refine ⟨s', xs', ?_, inv', rest⟩
      simp only [coalesce, lt, inside, more, inside', ← follows, ↓reduceIte, Bool.and_eq_true, both]
      exact ret

/-- Started at the first block of a region, the loop leaves no free neighbours in it. -/
theorem coalesce_region (J : Joins hdr stop size free join I) (pos : 0 < hdr) (ne : 0 < stop)
    (t : Tiles hdr stop (size s) 0 xs) (inv : I s xs) (hf : stop < fuel) :
    ∃ s' xs', coalesce hdr stop size free join fuel s 0 = some s' ∧ I s' xs' ∧
      Coalesces hdr stop size free s s' xs xs' := by
  cases xs with
  | nil =>
    have : 0 = stop := t
    omega
  | cons a xs =>
    have first : a = 0 := t.1
    subst first
    rw [← List.nil_append (0 :: xs)] at t inv ⊢
    exact coalesce_spec J pos t inv (by simp) (Nat.lt_of_le_of_lt (Nat.sub_le _ _) hf)

end

end LearnC
