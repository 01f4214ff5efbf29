import LearnC.MemPool.Layout

/-! Walking the lists: the statistics and the leak report over the active list, and
the destructor, which gives every block back. -/

namespace LearnC.MemPool

/-- A line of the leak report. The call stack is printed in debug mode. -/
structure Leak where
  userPtr : Addr
  size : Nat
  label : List UInt8
  allocTime : Nat
  callstack : List Addr

namespace Pool

/-- `for (cur = head; cur; cur = cur->next)`, over the blocks that are not freed. -/
def foldActive {β : Type} (s : Pool) (f : β → Addr → MemBlk → β) :
    Nat → Option Addr → β → Except Stop β
  | 0, _, _ => .error .diverges
  | _ + 1, none, acc => .ok acc
  | fuel + 1, some cur, acc => do
    let b ← s.blk cur
    s.foldActive f fuel b.next (if b.freed then acc else f acc cur b)

/-- `__mem_pool_dump_stats_nolock`: the `int` and the `size_t` that it prints. -/
def dumpStats (s : Pool) : Except Stop (Int32 × UInt64) :=
  s.foldActive (fun acc _ b => (acc.1 + 1, acc.2 + UInt64.ofNat b.size)) s.fuel s.activeList (0, 0)

/-- `__mem_pool_dump_leaks_nolock`: the lines that it prints. -/
def dumpLeaks (s : Pool) : Except Stop (List Leak) :=
  s.foldActive (fun acc cur b => acc ++ [⟨cur + sizeofMemBlk, b.size, b.label, b.allocTime,
    if s.debugMode then b.callstack else []⟩]) s.fuel s.activeList []

/-- One list of `mem_pool_destroy`, with the pointers passed to `free` so far. -/
def destroyList (s : Pool) : Nat → Option Addr → List Addr → Except Stop (Pool × List Addr)
  | 0, _, _ => .error .diverges
  | _ + 1, none, freed => .ok (s, freed)
  | fuel + 1, some cur, freed => do
    let b ← s.blk cur
    let s ← s.sysFree b.realPtr
    s.destroyList fuel b.next (freed ++ [b.realPtr])

/-- The loop over the slabs in `mem_pool_destroy`. -/
def destroySlabs (s : Pool) : List Nat → List Addr → Except Stop (Pool × List Addr)
  | [], freed => .ok (s, freed)
  | i :: rest, freed => do
    let (s, freed) ← s.destroyList s.fuel (s.slabs i).freeList freed
    s.destroySlabs rest freed

/-- `mem_pool_destroy`, with the pointers it passes to `free` and the report of leaks. -/
def memPoolDestroy (s : Pool) : Except Stop (Pool × List Addr × List Leak) := do
  let (s, freed) ← s.destroySlabs (List.range s.slabClsCnt) []
  let leaks ← if s.activeList.isSome then s.dumpLeaks else .ok []
  let (s, freed) ← s.destroyList s.fuel s.activeList freed
  .ok ({ s with activeList := none }, freed, leaks)

end Pool

section
variable {T : Type} {s s' : Pool} {loc : Addr → Loc T} {head : Option Addr} {xs : List Addr}

theorem foldActive_spec {β : Type} {f : β → Addr → MemBlk → β} {fuel : Nat} (acc : β)
    (chain : Chain s.next head xs) (header : ∀ a ∈ xs, s.mem.Inside a 0 sizeofMemBlk)
    (fresh : ∀ a ∈ xs, (s.hdr a).freed = false) (hf : xs.length < fuel) :
    s.foldActive f fuel head acc = .ok (xs.foldl (fun acc a => f acc a (s.hdr a)) acc) := by
  induction xs generalizing head fuel acc with
  | nil =>
    obtain ⟨fuel, rfl⟩ := Nat.exists_eq_succ_of_ne_zero (Nat.ne_of_gt hf)
    rw [chain_nil.mp chain]
    rfl
  | cons a xs ih =>
    obtain ⟨fuel, rfl⟩ := Nat.exists_eq_succ_of_ne_zero (Nat.ne_of_gt (Nat.zero_lt_of_lt hf))
    obtain ⟨rfl, rest⟩ := chain_cons.mp chain
    have here := blk_ok (header a List.mem_cons_self)
    have new := fresh a List.mem_cons_self
    have later := ih (f acc a (s.hdr a)) rest
      (fun b hb => header b (List.mem_cons_of_mem a hb))
      (fun b hb => fresh b (List.mem_cons_of_mem a hb)) (Nat.lt_of_succ_lt_succ hf)
    simp only [Pool.foldActive, here, new, bind, Except.bind]
    exact later

theorem stats_foldl (xs : List Addr) (size : Addr → Nat) (acc : Int32 × UInt64) :
    xs.foldl (fun acc a => (acc.1 + 1, acc.2 + UInt64.ofNat (size a))) acc =
      (acc.1 + Int32.ofNat xs.length, acc.2 + UInt64.ofNat (xs.map size).sum) := by
  induction xs generalizing acc with
  | nil => simp
  | cons a xs ih =>
    rw [List.foldl_cons, ih]
    simp only [List.length_cons, List.map_cons, List.sum_cons, Int32.ofNat_add, UInt64.ofNat_add,
      Int32.add_assoc, UInt64.add_assoc, Int32.add_comm (Int32.ofNat xs.length)]
    rfl

theorem dumpStats_spec (L : Layout s loc) :
    ∃ xs, Chain s.next s.activeList xs ∧ (∀ a, a ∈ xs ↔ loc a = .active) ∧
      s.dumpStats = .ok (Int32.ofNat xs.length,
        UInt64.ofNat (xs.map fun a => (s.hdr a).size).sum) := by
  obtain ⟨xs, chain, hxs⟩ := L.active
  replace hxs : ∀ a, a ∈ xs ↔ loc a = .active := hxs
  have header (a : Addr) (ha : a ∈ xs) : s.mem.Inside a 0 sizeofMemBlk :=
    L.header a (by simp [(hxs a).mp ha])
  have walk := foldActive_spec (f := fun acc _ b => (acc.1 + 1, acc.2 + UInt64.ofNat b.size))
    ((0, 0) : Int32 × UInt64) chain header (fun a ha => (L.inUse a ((hxs a).mp ha)).2)
    (length_lt_fuel chain.nodup fun a ha => (header a ha).mem)
  refine ⟨xs, chain, hxs, ?_⟩
  rw [Pool.dumpStats, walk, stats_foldl xs fun a => (s.hdr a).size]
  simp

theorem destroyList_spec {fuel : Nat} (freed : List Addr) (chain : Chain s.next head xs)
    (nodup : xs.Nodup) (header : ∀ a ∈ xs, s.mem.Inside a 0 sizeofMemBlk)
    (self : ∀ a ∈ xs, (s.hdr a).realPtr = a) (hf : xs.length < fuel) :
    ∃ mem, s.destroyList fuel head freed = .ok ({ s with mem := mem }, freed ++ xs) ∧
      ∀ b, mem.lookup b = if b ∈ xs then none else s.mem.lookup b := by
  induction xs generalizing s head fuel freed with
  | nil =>
    obtain ⟨fuel, rfl⟩ := Nat.exists_eq_succ_of_ne_zero (Nat.ne_of_gt hf)
    rw [chain_nil.mp chain]
    exact ⟨s.mem, by simp [Pool.destroyList], fun b => by simp⟩
  | cons a xs ih =>
    obtain ⟨fuel, rfl⟩ := Nat.exists_eq_succ_of_ne_zero (Nat.ne_of_gt (Nat.zero_lt_of_lt hf))
    obtain ⟨rfl, rest⟩ := chain_cons.mp chain
    obtain ⟨out, nodup⟩ := List.nodup_cons.mp nodup
    have here := header a List.mem_cons_self
    have live : a ∈ s.mem := here.mem
    have other (b : Addr) (hb : b ∈ xs) : b ≠ a := by
      rintro rfl
      exact out hb
    let s₁ : Pool := { s with mem := s.mem.erase a }
    have gave : s.sysFree a = .ok s₁ := by simp [Pool.sysFree, live, s₁]
    have kept (b : Addr) (hb : b ∈ xs) : s₁.mem.Inside b 0 sizeofMemBlk := by
      have look : s₁.mem.lookup b = s.mem.lookup b := Finmap.lookup_erase_ne (other b hb)
      exact (inside_of_lookup look).mpr (header b (List.mem_cons_of_mem a hb))
    obtain ⟨mem, rest', look⟩ := ih (s := s₁) (freed ++ [a]) rest nodup kept
      (fun b hb => self b (List.mem_cons_of_mem a hb)) (Nat.lt_of_succ_lt_succ hf)
    refine ⟨mem, ?_, ?_⟩
    · have ret : s.destroyList (fuel + 1) (some a) freed =
          s₁.destroyList fuel (s.next a) (freed ++ [a]) := by
        simp [Pool.destroyList, blk_ok here, self a List.mem_cons_self, gave, bind, Except.bind,
          Pool.next]
      rw [ret, rest']
      simp [s₁]
    · intro b
      rw [look b]
      by_cases hb : b = a
      · subst hb
        simp [out, s₁]
      · simp [hb, s₁, Finmap.lookup_erase_ne hb]

theorem destroySlabs_spec {is : List Nat} {P : Nat → Addr → Prop} (freed : List Addr)
    (nodup : is.Nodup) (lists : ∀ i ∈ is, Holds s.next (s.slabs i).freeList (P i))
    (apart : ∀ i j a, P i a → P j a → i = j)
    (header : ∀ i ∈ is, ∀ a, P i a → s.mem.Inside a 0 sizeofMemBlk)
    (self : ∀ i a, P i a → (s.hdr a).realPtr = a) :
    ∃ mem xs, s.destroySlabs is freed = .ok ({ s with mem := mem }, freed ++ xs) ∧ xs.Nodup ∧
      (∀ a, a ∈ xs ↔ ∃ i ∈ is, P i a) ∧
      ∀ b, mem.lookup b = if b ∈ xs then none else s.mem.lookup b := by
  induction is generalizing s freed with
  | nil => exact ⟨s.mem, [], by simp [Pool.destroySlabs], by simp, by simp, by simp⟩
  | cons i is ih =>
    obtain ⟨out, nodup⟩ := List.nodup_cons.mp nodup
    obtain ⟨ys, chain, hys⟩ := lists i List.mem_cons_self
    have inside (a : Addr) (ha : a ∈ ys) : s.mem.Inside a 0 sizeofMemBlk :=
      header i List.mem_cons_self a ((hys a).mp ha)
    have live (a : Addr) (ha : a ∈ ys) : a ∈ s.mem := (inside a ha).mem
    obtain ⟨mem₁, ret₁, look₁⟩ := destroyList_spec freed chain chain.nodup inside
      (fun a ha => self i a ((hys a).mp ha)) (length_lt_fuel chain.nodup live)
    let s₁ : Pool := { s with mem := mem₁ }
    have later (j : Nat) (hj : j ∈ is) (a : Addr) (ha : P j a) : a ∉ ys := by
      intro hy
      have := apart i j a ((hys a).mp hy) ha
      exact out (this ▸ hj)
    have header₁ : ∀ j ∈ is, ∀ a, P j a → s₁.mem.Inside a 0 sizeofMemBlk := by
      intro j hj a ha
      have look : s₁.mem.lookup a = s.mem.lookup a := by simp [s₁, look₁, later j hj a ha]
      exact (inside_of_lookup look).mpr (header j (List.mem_cons_of_mem i hj) a ha)
    obtain ⟨mem₂, zs, ret₂, nodup₂, hzs, look₂⟩ := ih (s := s₁) (freed ++ ys) nodup
      (fun j hj => lists j (List.mem_cons_of_mem i hj)) header₁ self
    refine ⟨mem₂, ys ++ zs, ?_, ?_, ?_, ?_⟩
    · simp only [Pool.destroySlabs, ret₁, bind, Except.bind]
      rw [← List.append_assoc]
      exact ret₂
    · apply chain.nodup.append nodup₂
      intro a hy hz
      obtain ⟨j, hj, ha⟩ := (hzs a).mp hz
      exact later j hj a ha hy
    · intro a
      simp [hys, hzs]
    · intro b
      rw [look₂ b]
      by_cases hz : b ∈ zs
      · simp [hz]
      · simp [hz, s₁, look₁]

theorem slabClsCnt_eq (sizes : s.blockSizes = classSizes) : s.slabClsCnt = classSizes.length := by
  rw [← sizes, Pool.blockSizes, List.length_map, List.length_range]

theorem Layout.destroySlabs (L : Layout s loc) :
    ∃ mem ys, s.destroySlabs (List.range s.slabClsCnt) [] = .ok ({ s with mem := mem }, ys) ∧
      ys.Nodup ∧ (∀ a, a ∈ ys ↔ ∃ i, loc a = .slab i) ∧
      ∀ b, mem.lookup b = if b ∈ ys then none else s.mem.lookup b := by
  have range : (List.range s.slabClsCnt).Nodup := List.nodup_range
  obtain ⟨mem, ys, ret, nodup, hys, look⟩ :=
    destroySlabs_spec (P := fun i a => loc a = .slab i) [] range (fun i _ => L.slab i)
      (fun i j a hi hj => by simpa [hi] using hj)
      (fun i _ a ha => L.header a (by simp [ha])) (fun i a ha => (L.idle a i ha).1.self)
  refine ⟨mem, ys, ret, nodup, ?_, look⟩
  intro a
  rw [hys]
  constructor
  · rintro ⟨i, _, ha⟩
    exact ⟨i, ha⟩
  · rintro ⟨i, ha⟩
    have bound := classOf_lt (L.idle a i ha).2.2
    exact ⟨i, by rwa [List.mem_range, slabClsCnt_eq L.sizes], ha⟩

/-- The destructor passes every live block to `free` once, and nothing else. -/
theorem memPoolDestroy_spec (L : Layout s loc) (settled : ∀ a t, loc a ≠ .held t) :
    ∃ s' freed leaks, s.memPoolDestroy = .ok (s', freed, leaks) ∧ freed.Nodup ∧
      (∀ a, a ∈ freed ↔ a ∈ s.mem) ∧ s'.mem = ∅ := by
  obtain ⟨mem₁, ys, ret₁, nodup₁, onSlab, look₁⟩ := L.destroySlabs
  obtain ⟨xs, chain, hxs⟩ := L.active
  replace hxs : ∀ a, a ∈ xs ↔ loc a = .active := hxs
  let s₁ : Pool := { s with mem := mem₁ }
  have header (a : Addr) (ha : a ∈ xs) : s₁.mem.Inside a 0 sizeofMemBlk := by
    have active := (hxs a).mp ha
    have off : a ∉ ys := by
      rw [onSlab]
      simp [active]
    have look : s₁.mem.lookup a = s.mem.lookup a := by simp [s₁, look₁, off]
    exact (inside_of_lookup look).mpr (L.header a (by simp [active]))
  have bound := length_lt_fuel (s := s₁) chain.nodup fun a ha => (header a ha).mem
  -- The report reads the blocks that the second loop frees.
  obtain ⟨leaks, report⟩ : ∃ leaks, s₁.dumpLeaks = .ok leaks :=
    ⟨_, foldActive_spec [] chain header (fun a ha => (L.inUse a ((hxs a).mp ha)).2) bound⟩
  obtain ⟨mem₂, ret₂, look₂⟩ := destroyList_spec (s := s₁) ys chain chain.nodup header
    (fun a ha => (L.inUse a ((hxs a).mp ha)).1.self) bound
  have freed (a : Addr) : a ∈ ys ++ xs ↔ a ∈ s.mem := by
    rw [List.mem_append, onSlab, hxs, L.live]
    cases h : loc a with
    | held t => exact absurd h (settled a t)
    | _ => simp
  refine ⟨{ s₁ with mem := mem₂, activeList := none }, ys ++ xs,
    if s.activeList.isSome then leaks else [], ?_, ?_, freed, ?_⟩
  · simp only [s₁] at report ret₂
    cases hs : s.activeList.isSome <;>
      simp [Pool.memPoolDestroy, ret₁, report, ret₂, hs, bind, Except.bind, s₁]
  · apply nodup₁.append chain.nodup
    intro a hy hx
    obtain ⟨i, hi⟩ := (onSlab a).mp hy
    simp [(hxs a).mp hx] at hi
  · apply Finmap.ext_lookup
    intro a
    rw [look₂ a, Finmap.lookup_empty]
    by_cases hx : a ∈ xs
    · simp [hx]
    · by_cases hy : a ∈ ys
      · simp [hx, s₁, look₁, hy]
      · have gone : a ∉ s.mem := by
          rw [← freed a, List.mem_append]
          exact not_or.mpr ⟨hy, hx⟩
        simp [hx, s₁, look₁, hy, Finmap.lookup_eq_none.mpr gone]

end

end LearnC.MemPool
