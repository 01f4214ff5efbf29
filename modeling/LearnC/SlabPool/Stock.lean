import LearnC.SlabPool.Books

/-! What a pool has for its slabs, whatever blocks these are. -/

namespace LearnC.SlabPool

/-- The blocks made for each slab, and those of them that wait on its free list. -/
structure Stock where
  made : Nat → Nat
  idle : Nat → Nat

namespace Stock

def empty : Stock := ⟨fun _ => 0, fun _ => 0⟩

/-- A request is given a block that waits, and has one made where none does. -/
def take (t : Stock) (i : Nat) : Stock :=
  if t.idle i = 0 then { t with made := Function.update t.made i (t.made i + 1) }
  else { t with idle := Function.update t.idle i (t.idle i - 1) }

def give (t : Stock) (i : Nat) : Stock :=
  { t with idle := Function.update t.idle i (t.idle i + 1) }

/-- A call of the pool; `owner` has the requests that the pointers in use were handed out for. -/
def call (t : Stock) (owner : Addr → Option Nat) : Op → Stock
  | .alloc size _ => (classOf slabSizes size).elim t t.take
  | .free ptr => ((ptr.bind owner).bind (classOf slabSizes)).elim t t.give
  | .write _ _ _ => t

end Stock

/-- The blocks of the pool are as many as those of the stock. -/
structure Counted (B : Books) (place : Addr → Place) (t : Stock) : Prop where
  made : ∀ i, B.made i = t.made i
  idle : ∀ i, B.idle place i = t.idle i

/-- The pointers in use are those of the callers, in blocks of the slabs they asked for. -/
def Owned (span : Addr → Option Span) (place : Addr → Place) (owner : Addr → Option Nat) : Prop :=
  ∀ ptr k, (∃ n, InUse span place ptr n ∧ classOf slabSizes n = k) ↔
    (owner ptr).map (classOf slabSizes) = some k

section
variable {B : Books} {place : Addr → Place} {b : Addr} {i : Nat} {idx : Option Nat} {t : Stock}
  {dest : Place}

theorem Books.made_create (new : b ∉ B.keys) :
    (B.create b (some i)).made i = B.made i + 1 := by
  have own : (B.create b (some i)).cls b = some i := Function.update_self ..
  have keys : (B.create b (some i)).keys = insert b B.keys := rfl
  rw [Books.made, keys, Finset.filter_insert, if_pos own,
    Finset.card_insert_of_notMem (by simp [new])]
  apply congrArg (fun s : Finset Addr => s.card + 1)
  apply Finset.filter_congr
  intro c hc
  have other : c ≠ b := fun e => new (e ▸ hc)
  rw [show (B.create b (some i)).cls c = B.cls c from Function.update_of_ne other ..]

theorem Books.made_create_other (new : b ∉ B.keys) (other : idx ≠ some i) :
    (B.create b idx).made i = B.made i := by
  have keys : (B.create b idx).keys = insert b B.keys := rfl
  apply Books.made_same (b := b)
  · intro c hc
    simp [keys, hc]
  · intro c hc
    exact Function.update_of_ne hc ..
  · exact fun mem => absurd mem new
  · intro _
    rw [show (B.create b idx).cls b = idx from Function.update_self ..]
    exact other

/-- A block leaves the free list of a slab. -/
theorem Books.idle_leave (mem : b ∈ B.keys) (hb : place b = .slab i) (off : dest ≠ .slab i) :
    B.idle place i = B.idle (Function.update place b dest) i + 1 := by
  apply card_filter_add mem
  · simpa using off
  · exact hb
  · intro c _ hc
    simp [hc]

/-- A block joins the free list of a slab. -/
theorem Books.idle_join (mem : b ∈ B.keys) (hb : place b ≠ .slab i) :
    B.idle (Function.update place b (.slab i)) i = B.idle place i + 1 := by
  apply card_filter_add mem
  · exact hb
  · simp
  · intro c _ hc
    simp [hc]

theorem Counted.create (S : Counted B place t) (T : Tally B place) (gone : place b = .gone)
    (none : ∀ i c, idx = some i → place c ≠ .slab i) :
    Counted (B.create b idx) (Function.update place b .active) (idx.elim t t.take) := by
  have new : b ∉ B.keys := fun mem => (T.live b).mp mem gone
  have keys : ∀ c, c ≠ b → (c ∈ (B.create b idx).keys ↔ c ∈ B.keys) := by
    intro c hc
    simp [show (B.create b idx).keys = insert b B.keys from rfl, hc]
  have idle (j : Nat) :
      (B.create b idx).idle (Function.update place b .active) j = t.idle j := by
    rw [Books.idle_same keys (by simp [gone]) Place.noConfusion]
    exact S.idle j
  cases idx with
  | none => exact ⟨fun j => (Books.made_create_other new (by simp)).trans (S.made j), idle⟩
  | some i =>
    have zero : t.idle i = 0 := by
      rw [← S.idle i, Books.idle, Finset.card_eq_zero, Finset.filter_eq_empty_iff]
      exact fun c _ => none i c rfl
    rw [Option.elim_some, Stock.take, if_pos zero]
    refine ⟨?_, idle⟩
    intro j
    by_cases hj : j = i
    · subst hj
      simp [Books.made_create new, S.made j]
    · rw [Books.made_create_other new (by simpa using Ne.symm hj), S.made j]
      simp [hj]

theorem Counted.reuse (S : Counted B place t) (T : Tally B place) (hb : place b = .slab i) :
    Counted (B.reuse i) (Function.update place b .active) (t.take i) := by
  have mem : b ∈ B.keys := (T.live b).mpr (by simp [hb])
  have one : B.idle place i = (B.reuse i).idle (Function.update place b .active) i + 1 :=
    Books.idle_leave mem hb Place.noConfusion
  rw [S.idle i] at one
  rw [Stock.take, if_neg (by omega)]
  refine ⟨S.made, ?_⟩
  intro j
  by_cases hj : j = i
  · subst hj
    simp [one]
  · have same : (B.reuse i).idle (Function.update place b .active) j = B.idle place j :=
      Books.idle_same (fun _ _ => Iff.rfl) (by simpa [hb] using Ne.symm hj) Place.noConfusion
    rw [same, S.idle j]
    simp [hj]

theorem Counted.release (S : Counted B place t) (T : Tally B place) (hb : place b = .active) :
    Counted (B.release i) (Function.update place b (.slab i)) (t.give i) := by
  have mem : b ∈ B.keys := (T.live b).mpr (by simp [hb])
  refine ⟨S.made, ?_⟩
  intro j
  by_cases hj : j = i
  · subst hj
    have one : (B.release j).idle (Function.update place b (.slab j)) j = B.idle place j + 1 :=
      Books.idle_join mem (by simp [hb])
    rw [S.idle j] at one
    simpa [Stock.give] using one
  · have same : (B.release i).idle (Function.update place b (.slab i)) j = B.idle place j :=
      Books.idle_same (fun _ _ => Iff.rfl) (by simp [hb]) (by simpa using Ne.symm hj)
    rw [same, S.idle j]
    simp [Stock.give, hj]

theorem Counted.drop (S : Counted B place t) (hb : place b = .active) (cls : B.cls b = none) :
    Counted (B.drop b) (Function.update place b .gone) t := by
  have all : (B.drop b).keys = B.keys.erase b := rfl
  have keys : ∀ c, c ≠ b → (c ∈ (B.drop b).keys ↔ c ∈ B.keys) := by
    intro c hc
    simp [all, hc]
  constructor
  · intro j
    have other : ∀ c, c ≠ b → (B.drop b).cls c = B.cls c := by
      intro c hc
      exact Function.update_of_ne hc ..
    rw [Books.made_same keys other (by simp [cls]) (by simp [all])]
    exact S.made j
  · intro j
    rw [Books.idle_same keys (by simp [hb]) Place.noConfusion]
    exact S.idle j

end

/-- Each call of the pool does with one block what it does with the stock. -/
structure Stocking {S : Type} (prog : Program S) (Layout : S → (Addr → Place) → Prop)
    (books : S → Books) (span : S → Addr → Option Span) : Prop where
  accounts : Accounts prog Layout books
  placed : ∀ s place, Layout s place → Placed (prog.mem s) (span s) place
  alloc : ∀ s place size env s' ptr, Layout s place → size + guardSize * 2 < 2 ^ 64 →
    Supplies prog s env → prog.alloc s size env = some (s', ptr) →
    ∃ b v, v.userPtr = ptr ∧ classOf slabSizes v.size = classOf slabSizes size ∧
      (∀ c, c ≠ b → span s' c = span s c) ∧ span s' b = some v ∧
      Layout s' (Function.update place b .active) ∧
      ((∃ i, classOf slabSizes size = some i ∧ place b = .slab i ∧
          books s' = (books s).reuse i) ∨
        (place b = .gone ∧ (∀ i c, classOf slabSizes size = some i → place c ≠ .slab i) ∧
          books s' = (books s).create b (classOf slabSizes size)))
  free : ∀ s place ptr s', Layout s place → prog.free s (some ptr) = some s' →
    (s' = s ∧ ∀ n, ¬ InUse (span s) place ptr n) ∨
    ∃ b v, v.userPtr = ptr ∧ place b = .active ∧
      (books s).cls b = classOf slabSizes v.size ∧ (∀ c, c ≠ b → span s' c = span s c) ∧
      span s b = some v ∧ Layout s' (Function.update place b (home v.size)) ∧
      books s' = (classOf slabSizes v.size).elim ((books s).drop b) (books s).release
  write : ∀ s mem, span (prog.setMem s mem) = span s

/-- A pool and its callers, with the stock that it has. -/
structure Carries {S : Type} (Layout : S → (Addr → Place) → Prop) (books : S → Books)
    (span : S → Addr → Option Span) (w : World S) (t : Stock) (place : Addr → Place) : Prop where
  layout : Layout w.state place
  tally : Tally (books w.state) place
  counted : Counted (books w.state) place t
  owned : Owned (span w.state) place w.owner

section
variable {S : Type} {prog : Program S} {Layout : S → (Addr → Place) → Prop} {books : S → Books}
  {span : S → Addr → Option Span} {place : Addr → Place} {w w' : World S} {op : Op} {t : Stock}
  {ptr : Addr} {size : Nat}

theorem Owned.handed {span' : Addr → Option Span} {span₀ : Addr → Option Span} {m : Memory}
    {owner : Addr → Option Nat} {b : Addr} {v : Span} (O : Owned span₀ place owner)
    (P : Placed m span' (Function.update place b .active))
    (other : ∀ c, c ≠ b → span' c = span₀ c) (off : place b ≠ .active) (hv : span' b = some v)
    (cls : classOf slabSizes v.size = classOf slabSizes size) :
    Owned span' (Function.update place b .active)
      (Function.update owner v.userPtr (some size)) := by
  intro p k
  simp only [inUse_add P other off hv]
  by_cases hp : p = v.userPtr
  · subst hp
    simp [cls]
  · rw [Function.update_of_ne hp, ← O p k]
    simp [hp]

theorem Owned.taken {span' : Addr → Option Span} {span₀ : Addr → Option Span} {m : Memory}
    {owner : Addr → Option Nat} {b : Addr} {v : Span} {dest : Place} (O : Owned span₀ place owner)
    (P : Placed m span₀ place) (other : ∀ c, c ≠ b → span' c = span₀ c) (off : dest ≠ .active)
    (hv : span₀ b = some v) :
    Owned span' (Function.update place b dest) (Function.update owner v.userPtr none) := by
  intro p k
  simp only [inUse_remove P other off hv]
  by_cases hp : p = v.userPtr
  · subst hp
    simp
  · rw [Function.update_of_ne hp, ← O p k]
    simp [hp]

/-- Nobody owns a pointer that is not in use. -/
theorem Owned.none {span₀ : Addr → Option Span} {owner : Addr → Option Nat}
    (O : Owned span₀ place owner) : owner ptr = none ↔ ∀ n, ¬ InUse span₀ place ptr n := by
  constructor
  · intro none n used
    have some := (O ptr _).mp ⟨n, used, rfl⟩
    rw [none] at some
    cases some
  · intro absent
    cases own : owner ptr with
    | none => rfl
    | some n =>
      obtain ⟨m, used, _⟩ := (O ptr (classOf slabSizes n)).mpr (by rw [own]; rfl)
      exact absurd used (absent m)

theorem Stocking.step (K : Stocking prog Layout books span)
    (C : Carries Layout books span w t place) (step : Step prog w op w') :
    ∃ place', Carries Layout books span w' (t.call w.owner op) place' := by
  cases step with
  | @alloc size env s' ptr fit supply ret =>
    obtain ⟨b, v, rfl, cls, other, hv, L', ⟨i, slab, hb, eq⟩ | ⟨hb, none, eq⟩⟩ :=
      K.alloc _ _ _ _ _ _ C.layout fit supply ret
    · refine ⟨_, L', eq ▸ C.tally.reuse hb, ?_, ?_⟩
      · rw [Stock.call, slab, eq]
        exact C.counted.reuse C.tally hb
      · exact C.owned.handed (K.placed _ _ L') other (by simp [hb]) hv cls
    · refine ⟨_, L', eq ▸ C.tally.create hb, ?_, ?_⟩
      · rw [Stock.call, eq]
        exact C.counted.create C.tally hb none
      · exact C.owned.handed (K.placed _ _ L') other (by simp [hb]) hv cls
  | @free ptr s' ret =>
    rcases K.free _ _ _ _ C.layout ret with
      ⟨rfl, absent⟩ | ⟨b, v, rfl, hb, cls, other, hv, L', eq⟩
    · have none := C.owned.none.mpr absent
      refine ⟨place, C.layout, C.tally, ?_, ?_⟩
      · rw [Stock.call, Option.bind_some, none]
        exact C.counted
      · rw [Function.update_eq_self_iff.mpr none.symm]
        exact C.owned
    · have slab : (w.owner v.userPtr).bind (classOf slabSizes) = classOf slabSizes v.size := by
        have own := (C.owned v.userPtr _).mp ⟨v.size, ⟨b, v, hb, hv, rfl, rfl⟩, rfl⟩
        obtain ⟨n, owner, same⟩ := Option.map_eq_some_iff.mp own
        rw [owner, Option.bind_some, same]
      have owned := C.owned.taken (K.placed _ _ C.layout) other (home_ne_active v.size) hv
      rw [Stock.call, Option.bind_some, slab]
      rw [home] at L' owned
      cases idx : classOf slabSizes v.size with
      | some i =>
        rw [idx] at L' eq owned cls
        refine ⟨_, L', ?_, ?_, owned⟩
        · rw [eq]
          exact C.tally.release hb cls
        · rw [eq]
          exact C.counted.release C.tally hb
      | none =>
        rw [idx] at L' eq owned cls
        refine ⟨_, L', ?_, ?_, owned⟩
        · rw [eq]
          exact C.tally.drop hb cls
        · rw [eq]
          exact C.counted.drop hb cls
  | freeNull ret =>
    cases (K.accounts.freeNull w.state).symm.trans ret
    exact ⟨place, C⟩
  | @write raw off byte mem ret =>
    obtain ⟨L', eq⟩ := K.accounts.write _ _ _ C.layout (Memory.store_extent ret)
    refine ⟨place, L', ?_, ?_, ?_⟩
    · rw [eq]
      exact C.tally
    · rw [eq]
      exact C.counted
    · rw [K.write]
      exact C.owned

end

end LearnC.SlabPool
