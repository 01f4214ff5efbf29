import Mathlib.Data.Finset.Card
import LearnC.SlabPool.Places

/-! What the counters of the slabs count. -/

namespace LearnC.SlabPool

/-- The blocks there are, the slab each belongs to, and the two counters of each slab. -/
@[ext] structure Books where
  keys : Finset Addr
  cls : Addr → Option Nat
  total : Nat → UInt64
  inUse : Nat → UInt64

namespace Books

def reuse (B : Books) (i : Nat) : Books :=
  { B with inUse := Function.update B.inUse i (B.inUse i + 1) }

/-- A block is made for a slab, or for none. -/
def create (B : Books) (b : Addr) (idx : Option Nat) : Books where
  keys := insert b B.keys
  cls := Function.update B.cls b idx
  total := match idx with
    | some i => Function.update B.total i (B.total i + 1)
    | none => B.total
  inUse := B.inUse

def release (B : Books) (i : Nat) : Books :=
  { B with inUse := Function.update B.inUse i (B.inUse i - 1) }

/-- A block of no slab goes back to the system. -/
def drop (B : Books) (b : Addr) : Books :=
  { B with keys := B.keys.erase b, cls := Function.update B.cls b none }

/-- The blocks of slab `i`. -/
def made (B : Books) (i : Nat) : Nat := (B.keys.filter fun b => B.cls b = some i).card

def idle (B : Books) (place : Addr → Place) (i : Nat) : Nat :=
  (B.keys.filter fun b => place b = .slab i).card

def busy (B : Books) (place : Addr → Place) (i : Nat) : Nat :=
  (B.keys.filter fun b => place b = .active ∧ B.cls b = some i).card

end Books

/-- One counter counts the blocks made for the slab. The other is raised when a
block comes off the free list and lowered when one goes there, and so counts down
from zero the blocks on that list. -/
structure Tally (B : Books) (place : Addr → Place) : Prop where
  live : ∀ b, b ∈ B.keys ↔ place b ≠ .gone
  slab : ∀ b i, place b = .slab i → B.cls b = some i
  total : ∀ i, B.total i = UInt64.ofNat (B.made i)
  inUse : ∀ i, B.inUse i = 0 - UInt64.ofNat (B.idle place i)

section
variable {α : Type} [DecidableEq α] {s : Finset α} {b : α} {p q : α → Prop} [DecidablePred p]
  [DecidablePred q]

theorem card_filter_add (hb : b ∈ s) (off : ¬ p b) (on : q b)
    (same : ∀ c ∈ s, c ≠ b → (q c ↔ p c)) : (s.filter q).card = (s.filter p).card + 1 := by
  have eq : s.filter q = insert b (s.filter p) := by
    ext c
    rw [Finset.mem_insert, Finset.mem_filter, Finset.mem_filter]
    by_cases hc : c = b
    · subst hc
      simp [hb, on]
    · simp only [hc, false_or]
      exact and_congr_right fun mem => same c mem hc
  rw [eq, Finset.card_insert_of_notMem (by simp [off])]

/-- Away from one element that never counts nothing changes. -/
theorem card_filter_same {t : Finset α} (mem : ∀ c, c ≠ b → (c ∈ t ↔ c ∈ s))
    (off : ¬ (b ∈ s ∧ p b)) (off' : ¬ (b ∈ t ∧ q b)) (same : ∀ c, c ≠ b → (q c ↔ p c)) :
    (t.filter q).card = (s.filter p).card := by
  apply congrArg Finset.card
  ext c
  rw [Finset.mem_filter, Finset.mem_filter]
  by_cases hc : c = b
  · subst hc
    exact iff_of_false off' off
  · rw [mem c hc, same c hc]

theorem card_filter_eq_length {l : List α} (nodup : l.Nodup) (iff : ∀ a, a ∈ l ↔ a ∈ s ∧ p a) :
    (s.filter p).card = l.length := by
  rw [← List.toFinset_card_of_nodup nodup]
  apply congrArg Finset.card
  ext a
  rw [Finset.mem_filter, List.mem_toFinset, iff]

end

section
variable {B : Books} {place : Addr → Place} {b : Addr} {i : Nat} {idx : Option Nat}

theorem tally_nothing (keys : B.keys = ∅) (total : ∀ i, B.total i = 0)
    (inUse : ∀ i, B.inUse i = 0) : Tally B fun _ => .gone where
  live b := by simp [keys]
  slab _ _ := Place.noConfusion
  total i := by simp [total, Books.made, keys]
  inUse i := by simp [inUse, Books.idle]

theorem Tally.busy_add_idle (T : Tally B place) (i : Nat) :
    B.busy place i + B.idle place i = B.made i := by
  have idle : B.idle place i =
      (B.keys.filter fun b => B.cls b = some i ∧ ¬ place b = .active).card := by
    apply congrArg Finset.card
    apply Finset.filter_congr
    intro b hb
    constructor
    · intro slab
      exact ⟨T.slab b i slab, by simp [slab]⟩
    · rintro ⟨cls, off⟩
      cases there : place b with
      | gone => exact absurd there ((T.live b).mp hb)
      | active => exact absurd there off
      | slab j =>
        cases (T.slab b j there).symm.trans cls
        rfl
  have busy : B.busy place i =
      (B.keys.filter fun b => B.cls b = some i ∧ place b = .active).card := by
    simp only [Books.busy, and_comm]
  rw [idle, busy, Books.made, ← Finset.filter_filter, ← Finset.filter_filter]
  exact Finset.card_filter_add_card_filter_not _

/-- The counters say how many blocks are in use only where there are none at all. -/
theorem Tally.balanced_iff (T : Tally B place) (i : Nat) :
    ((B.inUse i).toNat = B.busy place i ∧
      (B.total i).toNat = (B.inUse i).toNat + B.idle place i) ↔ B.made i = 0 := by
  have sum := T.busy_add_idle i
  rw [T.total, T.inUse, UInt64.toNat_sub, UInt64.toNat_ofNat', UInt64.toNat_ofNat']
  simp only [UInt64.toNat_ofNat]
  omega

theorem Books.made_same {B' : Books} (keys : ∀ c, c ≠ b → (c ∈ B'.keys ↔ c ∈ B.keys))
    (cls : ∀ c, c ≠ b → B'.cls c = B.cls c) (old : b ∈ B.keys → B.cls b ≠ some i)
    (new : b ∈ B'.keys → B'.cls b ≠ some i) : B'.made i = B.made i := by
  apply card_filter_same keys
  · rintro ⟨hb, e⟩
    exact old hb e
  · rintro ⟨hb, e⟩
    exact new hb e
  · intro c hc
    rw [cls c hc]

theorem Books.idle_same {B' : Books} {dest : Place}
    (keys : ∀ c, c ≠ b → (c ∈ B'.keys ↔ c ∈ B.keys)) (old : place b ≠ .slab i)
    (new : dest ≠ .slab i) : B'.idle (Function.update place b dest) i = B.idle place i := by
  apply card_filter_same keys
  · rintro ⟨_, e⟩
    exact old e
  · rintro ⟨_, e⟩
    exact new (by simpa using e)
  · intro c hc
    rw [Function.update_of_ne hc]

/-- A block moves, and no other: the conditions on `live` and `slab`. -/
theorem Tally.moved (T : Tally B place) {B' : Books} {dest : Place}
    (keys : ∀ c, c ≠ b → (c ∈ B'.keys ↔ c ∈ B.keys)) (cls : ∀ c, c ≠ b → B'.cls c = B.cls c)
    (live : b ∈ B'.keys ↔ dest ≠ .gone) (slab : ∀ i, dest = .slab i → B'.cls b = some i)
    (total : ∀ i, B'.total i = UInt64.ofNat (B'.made i))
    (inUse : ∀ i, B'.inUse i = 0 - UInt64.ofNat (B'.idle (Function.update place b dest) i)) :
    Tally B' (Function.update place b dest) where
  live c := by
    by_cases hc : c = b
    · subst hc
      simpa using live
    · simpa [hc, keys c hc] using T.live c
  slab c j h := by
    by_cases hc : c = b
    · subst hc
      exact slab j (by simpa using h)
    · rw [cls c hc]
      exact T.slab c j (by simpa [hc] using h)
  total := total
  inUse := inUse

theorem Tally.create (T : Tally B place) (gone : place b = .gone) :
    Tally (B.create b idx) (Function.update place b .active) := by
  have new : b ∉ B.keys := fun hb => (T.live b).mp hb gone
  have all : (B.create b idx).keys = insert b B.keys := rfl
  have own : (B.create b idx).cls b = idx := Function.update_self ..
  have keys : ∀ c, c ≠ b → (c ∈ (B.create b idx).keys ↔ c ∈ B.keys) := by
    intro c hc
    simp [all, hc]
  have cls : ∀ c, c ≠ b → (B.create b idx).cls c = B.cls c := by
    intro c hc
    exact Function.update_of_ne hc ..
  have away : ∀ i, idx ≠ some i → (B.create b idx).made i = B.made i := by
    intro i hi
    exact Books.made_same keys cls (fun hb => absurd hb new) (fun _ => own.trans_ne hi)
  apply T.moved keys cls
  · simp [all]
  · intro i h
    cases h
  · intro i
    cases idx with
    | none =>
      rw [away i (by simp)]
      exact T.total i
    | some j =>
      by_cases hj : j = i
      · subst hj
        have one : (B.create b (some j)).made j = B.made j + 1 := by
          rw [Books.made, all, Finset.filter_insert, if_pos own,
            Finset.card_insert_of_notMem (by simp [new])]
          apply congrArg (· + 1)
          apply congrArg Finset.card
          apply Finset.filter_congr
          intro c hc
          rw [cls c fun e => new (e ▸ hc)]
        rw [one, UInt64.ofNat_add, ← T.total j]
        exact Function.update_self ..
      · rw [away i (by simpa using hj), ← T.total i]
        exact Function.update_of_ne (Ne.symm hj) ..
  · intro i
    rw [Books.idle_same keys (by simp [gone]) Place.noConfusion]
    exact T.inUse i

theorem Tally.reuse (T : Tally B place) (hb : place b = .slab i) :
    Tally (B.reuse i) (Function.update place b .active) := by
  have mem : b ∈ B.keys := (T.live b).mpr (by simp [hb])
  have keys : ∀ c, c ≠ b → (c ∈ (B.reuse i).keys ↔ c ∈ B.keys) := fun _ _ => Iff.rfl
  apply T.moved keys (fun _ _ => rfl)
  · exact iff_of_true mem Place.noConfusion
  · intro j h
    cases h
  · exact T.total
  · intro j
    by_cases hj : j = i
    · subst hj
      have one : B.idle place j = (B.reuse j).idle (Function.update place b .active) j + 1 := by
        apply card_filter_add mem
        · simp
        · exact hb
        · intro c _ hc
          simp [hc]
      have old := T.inUse j
      rw [one, UInt64.ofNat_add] at old
      rw [show (B.reuse j).inUse j = B.inUse j + 1 from Function.update_self .., old]
      grind
    · have old : place b ≠ .slab j := by simpa [hb] using Ne.symm hj
      rw [Books.idle_same keys old Place.noConfusion, ← T.inUse j]
      exact Function.update_of_ne hj ..

theorem Tally.release (T : Tally B place) (hb : place b = .active) (cls : B.cls b = some i) :
    Tally (B.release i) (Function.update place b (.slab i)) := by
  have mem : b ∈ B.keys := (T.live b).mpr (by simp [hb])
  have keys : ∀ c, c ≠ b → (c ∈ (B.release i).keys ↔ c ∈ B.keys) := fun _ _ => Iff.rfl
  apply T.moved keys (fun _ _ => rfl)
  · exact iff_of_true mem Place.noConfusion
  · intro j h
    cases h
    exact cls
  · exact T.total
  · intro j
    by_cases hj : j = i
    · subst hj
      have one : (B.release j).idle (Function.update place b (.slab j)) j =
          B.idle place j + 1 := by
        apply card_filter_add mem
        · simp [hb]
        · simp
        · intro c _ hc
          simp [hc]
      rw [one, UInt64.ofNat_add, show (B.release j).inUse j = B.inUse j - 1 from
        Function.update_self .., T.inUse j]
      grind
    · have old : place b ≠ .slab j := by simp [hb]
      rw [Books.idle_same keys old (by simpa using Ne.symm hj), ← T.inUse j]
      exact Function.update_of_ne hj ..

theorem Tally.drop (T : Tally B place) (hb : place b = .active) (cls : B.cls b = none) :
    Tally (B.drop b) (Function.update place b .gone) := by
  have all : (B.drop b).keys = B.keys.erase b := rfl
  have keys : ∀ c, c ≠ b → (c ∈ (B.drop b).keys ↔ c ∈ B.keys) := by
    intro c hc
    simp [all, hc]
  have other : ∀ c, c ≠ b → (B.drop b).cls c = B.cls c := by
    intro c hc
    exact Function.update_of_ne hc ..
  apply T.moved keys other
  · simp [all]
  · intro i h
    cases h
  · intro i
    rw [Books.made_same keys other (by simp [cls]) (by simp [all])]
    exact T.total i
  · intro i
    rw [Books.idle_same keys (by simp [hb]) Place.noConfusion]
    exact T.inUse i

end

/-! ## The books of a pool -/

/-- Some slab has blocks. -/
def Books.Stocked (B : Books) : Prop := ∃ b ∈ B.keys, ∃ i, B.cls b = some i

section
variable {B : Books} {place : Addr → Place} {b : Addr} {i : Nat} {idx : Option Nat}

theorem Books.made_eq_zero (cls : ∀ b i, B.cls b = some i → i < slabCount) :
    (∀ i < slabCount, B.made i = 0) ↔ ¬ B.Stocked := by
  constructor
  · rintro none ⟨b, hb, i, hi⟩
    have empty := Finset.card_eq_zero.mp (none i (cls b i hi))
    exact absurd (Finset.mem_filter.mpr ⟨hb, hi⟩) (empty ▸ Finset.notMem_empty b)
  · intro none i _
    rw [Books.made, Finset.card_eq_zero, Finset.filter_eq_empty_iff]
    intro b hb hi
    exact none ⟨b, hb, i, hi⟩

theorem Books.stocked_create (new : b ∉ B.keys) :
    (B.create b idx).Stocked ↔ B.Stocked ∨ idx.isSome = true := by
  have keys : (B.create b idx).keys = insert b B.keys := rfl
  constructor
  · rintro ⟨c, hc, i, hi⟩
    by_cases eq : c = b
    · subst eq
      exact Or.inr (Option.isSome_iff_exists.mpr ⟨i, by simpa [Books.create] using hi⟩)
    · refine Or.inl ⟨c, ?_, i, by simpa [Books.create, eq] using hi⟩
      simpa [keys, eq] using hc
  · rintro (⟨c, hc, i, hi⟩ | some)
    · have eq : c ≠ b := fun e => new (e ▸ hc)
      exact ⟨c, by simp [keys, hc], i, by simpa [Books.create, eq] using hi⟩
    · obtain ⟨i, hi⟩ := Option.isSome_iff_exists.mp some
      exact ⟨b, by simp [keys], i, by simp [Books.create, hi]⟩

theorem Books.made_block {c : Addr} (live : ∀ c, c ∈ B.keys ↔ place c ≠ .gone)
    (live' : ∀ d, d ∈ (B.create b idx).keys ↔ Function.update place c .active d ≠ .gone)
    (new : b ∉ B.keys) : c = b := by
  by_contra ne
  have here := (live' b).mp (Finset.mem_insert_self b B.keys)
  rw [Function.update_of_ne (Ne.symm ne)] at here
  exact new ((live b).mpr here)

theorem Books.stocked_drop (cls : B.cls b = none) : (B.drop b).Stocked ↔ B.Stocked := by
  have keys : (B.drop b).keys = B.keys.erase b := rfl
  constructor
  · rintro ⟨c, hc, i, hi⟩
    obtain ⟨eq, hc⟩ := Finset.mem_erase.mp hc
    exact ⟨c, hc, i, by simpa [Books.drop, eq] using hi⟩
  · rintro ⟨c, hc, i, hi⟩
    have eq : c ≠ b := by
      rintro rfl
      cases cls.symm.trans hi
    exact ⟨c, by simp [keys, hc, eq], i, by simpa [Books.drop, eq] using hi⟩

end

/-- A request that has a slab. -/
def Op.Slabbed : Op → Prop
  | .alloc size _ => (classOf slabSizes size).isSome = true
  | .free _ | .write _ _ _ => False

/-- Each call of the pool changes its books in one of the four ways. -/
structure Accounts {S : Type} (prog : Program S) (Layout : S → (Addr → Place) → Prop)
    (books : S → Books) : Prop where
  cls : ∀ s place b i, Layout s place → (books s).cls b = some i → i < slabCount
  alloc : ∀ s place size env s' ptr, Layout s place → size + guardSize * 2 < 2 ^ 64 →
    Supplies prog s env → prog.alloc s size env = some (s', ptr) →
    ∃ b, Layout s' (Function.update place b .active) ∧
      ((∃ i, place b = .slab i ∧ books s' = (books s).reuse i) ∨
        (place b = .gone ∧ books s' = (books s).create b (classOf slabSizes size)))
  free : ∀ s place ptr s', Layout s place → prog.free s (some ptr) = some s' →
    s' = s ∨ ∃ b, place b = .active ∧
      ((∃ i, (books s).cls b = some i ∧ Layout s' (Function.update place b (.slab i)) ∧
          books s' = (books s).release i) ∨
        ((books s).cls b = none ∧ Layout s' (Function.update place b .gone) ∧
          books s' = (books s).drop b))
  freeNull : ∀ s, prog.free s none = some s
  write : ∀ s place mem, Layout s place → (∀ a, mem.extent a = (prog.mem s).extent a) →
    Layout (prog.setMem s mem) place ∧ books (prog.setMem s mem) = books s

section
variable {S : Type} {prog : Program S} {Layout : S → (Addr → Place) → Prop} {books : S → Books}
  {place : Addr → Place} {w w' : World S} {op : Op} {s₀ : S} {ops : List Op}

theorem Accounts.step (A : Accounts prog Layout books) (L : Layout w.state place)
    (T : Tally (books w.state) place) (step : Step prog w op w') :
    ∃ place', Layout w'.state place' ∧ Tally (books w'.state) place' ∧
      ((books w'.state).Stocked ↔ (books w.state).Stocked ∨ op.Slabbed) := by
  cases step with
  | @alloc size env s' ptr fit supply ret =>
    obtain ⟨b, L', ⟨i, hb, eq⟩ | ⟨hb, eq⟩⟩ := A.alloc _ _ _ _ _ _ L fit supply ret
    · have stocked : (books w.state).Stocked :=
        ⟨b, (T.live b).mpr (by simp [hb]), i, T.slab b i hb⟩
      refine ⟨_, L', ?_, ?_⟩
      · rw [eq]
        exact T.reuse hb
      · rw [eq]
        exact iff_of_true stocked (Or.inl stocked)
    · have new : b ∉ (books w.state).keys := fun hk => (T.live b).mp hk hb
      refine ⟨_, L', ?_, ?_⟩
      · rw [eq]
        exact T.create hb
      · rw [eq]
        exact Books.stocked_create new
  | @free ptr s' ret =>
    rcases A.free _ _ _ _ L ret with rfl | ⟨b, hb, ⟨i, cls, L', eq⟩ | ⟨cls, L', eq⟩⟩
    · exact ⟨place, L, T, by simp [Op.Slabbed]⟩
    · refine ⟨_, L', ?_, ?_⟩
      · rw [eq]
        exact T.release hb cls
      · rw [eq, Op.Slabbed, or_false]
        rfl
    · refine ⟨_, L', ?_, ?_⟩
      · rw [eq]
        exact T.drop hb cls
      · rw [eq, Op.Slabbed, or_false]
        exact Books.stocked_drop cls
  | freeNull ret =>
    cases (A.freeNull w.state).symm.trans ret
    exact ⟨place, L, T, by simp [Op.Slabbed]⟩
  | @write raw off byte mem ret =>
    obtain ⟨L', eq⟩ := A.write _ _ _ L (Memory.store_extent ret)
    refine ⟨place, L', ?_, ?_⟩
    · rw [eq]
      exact T
    · rw [eq]
      simp [Op.Slabbed]

/-- A run that starts with no block has stocked a slab exactly if it made a request
that has one. -/
theorem Accounts.run (A : Accounts prog Layout books) (L : Layout s₀ place)
    (T : Tally (books s₀) place) (empty : (books s₀).keys = ∅)
    (run : Run (Step prog) (World.start s₀) ops w) :
    ∃ place, Layout w.state place ∧ Tally (books w.state) place ∧
      ((books w.state).Stocked ↔ ∃ op ∈ ops, op.Slabbed) := by
  induction run with
  | nil =>
    refine ⟨place, L, T, ?_⟩
    simp [Books.Stocked, World.start, empty]
  | snoc run step ih =>
    obtain ⟨place, L, T, stocked⟩ := ih
    obtain ⟨place', L', T', iff⟩ := A.step L T step
    refine ⟨place', L', T', ?_⟩
    rw [iff, stocked]
    simp [or_and_right, exists_or]

theorem slabbed_iff :
    (∃ op ∈ ops, op.Slabbed) ↔ ¬ ∀ size env, .alloc size env ∈ ops → 4096 < size := by
  have cls (size : Nat) : (classOf slabSizes size).isSome = true ↔ ¬ 4096 < size := by
    rw [← not_iff_not, not_not, Option.not_isSome_iff_eq_none, classOf_large]
  constructor
  · rintro ⟨op, mem, slabbed⟩ large
    cases op with
    | alloc size env => exact (cls size).mp slabbed (large size env mem)
    | free | write => exact slabbed
  · intro small
    push Not at small
    obtain ⟨size, env, mem, le⟩ := small
    exact ⟨_, mem, (cls size).mpr (Nat.not_lt.mpr le)⟩

/-- The counters are those of the blocks in use and on the free lists exactly if
every request was too large for a slab. -/
theorem Accounts.balanced_iff (A : Accounts prog Layout books) (L : Layout s₀ place)
    (T : Tally (books s₀) place) (empty : (books s₀).keys = ∅)
    (run : Run (Step prog) (World.start s₀) ops w) :
    ∃ place, Layout w.state place ∧
      ((∀ i < slabCount, ((books w.state).inUse i).toNat = (books w.state).busy place i ∧
          ((books w.state).total i).toNat =
            ((books w.state).inUse i).toNat + (books w.state).idle place i) ↔
        ∀ size env, .alloc size env ∈ ops → 4096 < size) := by
  obtain ⟨place, L, T, stocked⟩ := A.run L T empty run
  refine ⟨place, L, ?_⟩
  simp only [T.balanced_iff]
  rw [Books.made_eq_zero (fun b i => A.cls _ _ b i L), stocked, slabbed_iff, not_not]

end

end LearnC.SlabPool
