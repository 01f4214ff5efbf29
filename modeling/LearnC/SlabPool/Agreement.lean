import LearnC.SlabPool.BaseStats
import LearnC.SlabPool.BaseTeardown
import LearnC.SlabPool.Bounds
import LearnC.SlabPool.CxxStats
import LearnC.SlabPool.CxxTeardown
import LearnC.SlabPool.Outstanding
import LearnC.SlabPool.Stock

/-! `1.base` and the C++ pool, called in the same way: they take and give back different
blocks, and have the same stock. -/

namespace LearnC.SlabPool

namespace Base

section
variable {s s' : Pool} {place : Addr → Place} {ptr : Addr} {size i : Nat} {env : Env}

/-- Where no block is found for a request, none waits in its slab. -/
theorem serving_none (L : Layout s place) (idle : s.serving size = none)
    (cls : slabIndex size = some i) (c : Addr) : place c ≠ .slab i := by
  have empty : (s.slabs i).freeList = none := by simpa [Pool.serving, cls] using idle
  obtain ⟨blocks, chain, mem⟩ := L.slab i
  rw [empty] at chain
  intro hc
  have waits := (mem c).mpr hc
  rw [chain_none chain] at waits
  cases waits

/-- A free releases the block in use at the pointer. -/
theorem free_released {b : Addr} {v : Block} (L : Layout s place) (hb : place b = .active)
    (hv : s.desc.lookup b = some v) {msg : Option Message}
    (ret : s.memPoolFree (some v.userPtr) = some (s', msg)) :
    (s.removeActive b).release b v = some s' := by
  rcases free_inv L ret with rfl | ⟨c, u, _, hu, user, release⟩
  · -- The block cannot have stayed.
    obtain ⟨s₁, intact, ok, _, _, L'⟩ := free_accepted L hb hv
    cases ok.symm.trans ret
    have still := (L'.active b).mp ((L.active b).mpr hb)
    rw [Function.update_self] at still
    exact absurd still (home_ne_active _)
  · cases L.placed.same_block (span_some hv) (span_some hu) user
    cases hv.symm.trans hu
    exact release

theorem stocking : Stocking base Layout Pool.books Pool.span where
  accounts := accounts
  placed s place L := L.placed
  alloc s place size env s' ptr L fit supply ret := by
    cases idle : s.serving size with
    | none =>
      obtain ⟨c, blk, new⟩ := supply.1
      obtain ⟨s₁, b, v, hb, ok, exact_size, same, hv, L'⟩ := alloc_create L fit idle supply
      cases ok.symm.trans ret
      have books := create_books idle blk ret
      have eq : b = c := Books.made_block (fun _ => L.live) (fun _ => books ▸ L'.live) new
      exact ⟨b, v, rfl, by rw [exact_size], same.span, hv, L',
        .inr ⟨hb, fun i c cls => serving_none L idle cls c, eq ▸ books⟩⟩
    | some b =>
      obtain ⟨i, cls, head⟩ := Option.bind_eq_some_iff.mp idle
      obtain ⟨s₁, v, hb, hv, ok, same, kept, L'⟩ := alloc_reuse L cls head env
      cases ok.symm.trans ret
      have slab := L.placed.idle b _ i hb (span_some hv)
      exact ⟨b, v.toSpan, rfl, slab.trans cls.symm, same.span, kept, L',
        .inl ⟨i, cls, hb, reuse_books cls head hv ret⟩⟩
  free s place ptr s' L ret := by
    obtain ⟨⟨_, msg⟩, call, rfl⟩ := Option.map_eq_some_iff.mp ret
    rcases free_cases L ptr with ⟨absent, ok⟩ | ⟨b, v, hb, hv, rfl⟩
    · cases ok.symm.trans call
      exact .inl ⟨rfl, absent⟩
    · have release := free_released L hb hv call
      obtain ⟨s₁, ok, same, L'⟩ := release_spec L hb hv
      cases ok.symm.trans release
      refine .inr ⟨b, v.toSpan, rfl, hb, slabOf_some hv, same.span, span_some hv, L', ?_⟩
      rw [release_books hv release, slabIndex]
      cases classOf slabSizes v.size <;> rfl
  write s mem := rfl

/-- The callers' table tells which pointers are refused. -/
theorem refused_iff {w : World Pool} {t : Stock} (C : Carries Layout Pool.books Pool.span w t place)
    (ptr : Option Addr) : (∃ s', w.state.memPoolFree ptr = some (s', some .invalid)) ↔
      ptr.map w.owner = some none := by
  rw [C.layout.rejected_iff, Option.map_eq_some_iff]
  apply exists_congr
  intro p
  rw [C.layout.mem_outstanding, C.owned.none, not_exists]

/-! ## The sizes of the slabs -/

/-- The slabs are those that `mem_pool_init` has set up. -/
def Sized (s : Pool) : Prop := ∀ i < slabCount, (s.slabs i).chunkSize = slabSizes.getD i 0

theorem init_sized : Sized Pool.init := by
  intro i hi
  simp [Pool.init, Pool.memPoolInit, hi]

theorem Sized.setSlab (sized : Sized s) {slab : Slab}
    (same : slab.chunkSize = (s.slabs i).chunkSize) : Sized (s.setSlab i slab) := by
  intro j hj
  by_cases eq : j = i
  · subst eq
    simpa [Pool.setSlab, same] using sized j hj
  · simpa [Pool.setSlab, eq] using sized j hj

theorem Sized.take {b : Addr} (sized : Sized s) (ret : s.take size env = some (s', b)) :
    Sized s' := by
  have create {idx : Option Nat} (made : s.create idx size env = some (s', b)) : Sized s' := by
    obtain ⟨blk, _, made⟩ := Option.bind_eq_some_iff.mp made
    obtain ⟨raw, _, made⟩ := Option.bind_eq_some_iff.mp made
    obtain ⟨mem, _, made⟩ := Option.bind_eq_some_iff.mp made
    cases idx with
    | none =>
      cases made
      exact sized
    | some i =>
      cases made
      exact Sized.setSlab sized rfl
  cases cls : slabIndex size with
  | none =>
    simp only [Pool.take, cls] at ret
    exact create ret
  | some i =>
    cases head : (s.slabs i).freeList with
    | none =>
      simp only [Pool.take, cls, head] at ret
      exact create ret
    | some blk =>
      simp only [Pool.take, cls, head] at ret
      obtain ⟨s₁, reuse, eq⟩ := Option.map_eq_some_iff.mp ret
      cases eq
      obtain ⟨v, _, reuse⟩ := Option.bind_eq_some_iff.mp reuse
      cases reuse
      exact sized.setSlab rfl

theorem Sized.release {b : Addr} {v : Block} (sized : Sized s)
    (ret : s.release b v = some s') : Sized s' := by
  simp only [Pool.release] at ret
  split at ret
  · cases ret
    exact Sized.setSlab sized rfl
  · split at ret
    · cases ret
      exact sized
    · cases ret

theorem Sized.step {w w' : World Pool} {op : Op} (sized : Sized w.state) {place : Addr → Place}
    (L : Layout w.state place) (step : Step base w op w') : Sized w'.state := by
  cases step with
  | alloc _ _ ret =>
    obtain ⟨⟨s₁, b⟩, take, ret⟩ := Option.bind_eq_some_iff.mp ret
    obtain ⟨v, _, ret⟩ := Option.bind_eq_some_iff.mp ret
    cases ret
    have taken : Sized s₁ := sized.take take
    exact taken
  | free ret =>
    obtain ⟨⟨_, msg⟩, call, rfl⟩ := Option.map_eq_some_iff.mp ret
    rcases free_inv L call with rfl | ⟨b, v, _, _, _, release⟩
    · exact sized
    · exact Sized.release (s := w.state.removeActive b) sized release
  | freeNull ret =>
    cases ret
    exact sized
  | write _ => exact sized

end

end Base

namespace Cxx

section
variable {s s' : MemoryPool} {place : Addr → Place} {ptr : Addr} {size i : Nat} {env : Env}

/-- Where no block is found for a request, none waits in its slab. -/
theorem serving_none (L : Layout s place) (idle : s.serving size = none)
    (cls : classOf slabSizes size = some i) (c : Addr) : place c ≠ .slab i := by
  obtain ⟨slab, hslab⟩ := L.slab_exists cls
  have find : s.findSlabIndex size = some i := (L.findSlabIndex size).trans cls
  have empty : slab.freeList = [] := by simpa [MemoryPool.serving, find, hslab] using idle
  intro hc
  have waits := ((L.slab i slab hslab).2 c).mpr hc
  rw [empty] at waits
  cases waits

/-- The block that is found for a request waits in the slab of its size. -/
theorem serving_class {b : Addr} (L : Layout s place) (front : s.serving size = some b)
    (hb : place b = .slab i) : classOf slabSizes size = some i := by
  obtain ⟨j, find, front⟩ := Option.bind_eq_some_iff.mp front
  obtain ⟨slab, hslab, front⟩ := Option.bind_eq_some_iff.mp front
  obtain ⟨rest, list⟩ := List.head?_eq_some_iff.mp front
  cases hb.symm.trans (((L.slab j slab hslab).2 b).mp (by simp [list]))
  exact (L.findSlabIndex size).symm.trans find

theorem stocking : Stocking cxx Layout MemoryPool.books MemoryPool.span where
  accounts := accounts
  placed s place L := L.placed
  alloc s place size env s' ptr L fit supply ret := by
    cases front : s.serving size with
    | none =>
      obtain ⟨c, blk, new⟩ := supply.1
      obtain ⟨s₁, b, v, ok, _, exact_size, same, hv, L'⟩ := alloc_create L fit front supply
      cases ok.symm.trans ret
      have books := create_books L front blk ret
      have eq : b = c := Books.made_block (fun _ => L.live) (fun _ => books ▸ L'.live) new
      have gone : place b = .gone := by
        by_contra live
        exact new (eq ▸ L.live.mpr live)
      exact ⟨b, v, rfl, by rw [exact_size], same.span, hv, L',
        .inr ⟨gone, fun i c cls => serving_none L front cls c, eq ▸ books⟩⟩
    | some b =>
      obtain ⟨v, hv, _, small, large⟩ := alloc_reuse L front env
      obtain ⟨i, hb, books⟩ := reuse_books L front ret
      by_cases inside : s.mem.Inside v.realPtr 0 (size + guardSize * 2)
      · obtain ⟨s₁, u, ok, exact_size, same, hu, L'⟩ := large inside
        cases ok.symm.trans ret
        exact ⟨b, u, rfl, by rw [exact_size], same.span, hu, L',
          .inl ⟨i, serving_class L front hb, hb, books⟩⟩
      · cases (small inside).symm.trans ret
  free s place ptr s' L ret := by
    obtain ⟨⟨_, msg⟩, call, rfl⟩ := Option.map_eq_some_iff.mp ret
    rcases free_cases L ptr with ⟨absent, ok⟩ | ⟨b, v, hb, hv, rfl⟩
    · cases ok.symm.trans call
      exact .inl ⟨rfl, absent⟩
    · have key : s.activeBlocks.lookup v.userPtr = some b :=
        (L.active _ b).mpr ⟨hb, by simp [span_some hv]⟩
      simp only [MemoryPool.deallocate, key, hv, Option.bind_eq_bind, Option.bind_some] at call
      obtain ⟨intact, _, call⟩ := Option.bind_eq_some_iff.mp call
      obtain ⟨s₁, release, call⟩ := Option.bind_eq_some_iff.mp call
      cases call
      obtain ⟨s₂, ok, same, L'⟩ := release_spec L hb hv
      cases ok.symm.trans release
      refine .inr ⟨b, v.toSpan, rfl, hb, L.slabOf hv, same.span, span_some hv, L', ?_⟩
      rw [release_books L hv release]
      cases classOf slabSizes v.size <;> rfl
  write s mem := rfl

/-- The callers' table tells which pointers are refused. -/
theorem refused_iff {w : World MemoryPool} {t : Stock}
    (C : Carries Layout MemoryPool.books MemoryPool.span w t place) (ptr : Option Addr) :
    (∃ s', w.state.deallocate ptr = some (s', some .invalid)) ↔ ptr.map w.owner = some none := by
  cases ptr with
  | none => simp [MemoryPool.deallocate]
  | some p =>
    rw [Option.map_some, Option.some_inj, C.owned.none]
    rcases free_cases C.layout p with ⟨absent, ok⟩ | ⟨b, v, hb, hv, rfl⟩
    · exact iff_of_true ⟨_, ok⟩ absent
    · obtain ⟨s₁, intact, ok, _⟩ := deallocate_accepted C.layout hb hv
      apply iff_of_false
      · rintro ⟨s', refused⟩
        rw [ok] at refused
        cases intact <;> cases refused
      · intro absent
        exact absent v.size ⟨b, v.toSpan, hb, span_some hv, rfl, rfl⟩

end

end Cxx

/-! ## The two pools -/

/-- Both pools, each with its callers. -/
structure Both where
  base : World Base.Pool
  cxx : World Cxx.MemoryPool

/-- The same call: for one size, or of pointers that were handed out for one size, or that
nobody owns. What the owners write is their own affair. -/
def Alike (σ : Both) : Op → Op → Prop
  | .alloc size _, .alloc size' _ => size = size'
  | .free ptr, .free ptr' => ptr.map σ.base.owner = ptr'.map σ.cxx.owner
  | .write _ _ _, .write _ _ _ => True
  | _, _ => False

def BothStep (σ : Both) (ops : Op × Op) (σ' : Both) : Prop :=
  Alike σ ops.1 ops.2 ∧ Step Base.base σ.base ops.1 σ'.base ∧ Step Cxx.cxx σ.cxx ops.2 σ'.cxx

instance (σ : Both) : (op op' : Op) → Decidable (Alike σ op op')
  | .alloc size _, .alloc size' _ => inferInstanceAs (Decidable (size = size'))
  | .free ptr, .free ptr' =>
    inferInstanceAs (Decidable (ptr.map σ.base.owner = ptr'.map σ.cxx.owner))
  | .write _ _ _, .write _ _ _ => isTrue trivial
  | .alloc _ _, .free _ | .alloc _ _, .write _ _ _ | .free _, .alloc _ _
  | .free _, .write _ _ _ | .write _ _ _, .alloc _ _ | .write _ _ _, .free _ => isFalse id

/-- The step of both calls, when they are alike and both return. -/
def Both.call (σ : Both) (ops : Op × Op) : Option Both :=
  if Alike σ ops.1 ops.2 then do
    let base ← σ.base.call Base.base ops.1
    let cxx ← σ.cxx.call Cxx.cxx ops.2
    some ⟨base, cxx⟩
  else none

def Both.start : Both := ⟨World.start Base.Pool.init, World.start Cxx.MemoryPool.init⟩

/-- Both pools have the same stock. -/
structure Agree (σ : Both) : Prop where
  sized : Base.Sized σ.base.state
  stock : ∃ t place place',
    Carries Base.Layout Base.Pool.books Base.Pool.span σ.base t place ∧
    Carries Cxx.Layout Cxx.MemoryPool.books Cxx.MemoryPool.span σ.cxx t place'

section
variable {σ σ' : Both} {op op' : Op} {t : Stock} {place place' : Addr → Place}

theorem Alike.call (alike : Alike σ op op') (t : Stock) :
    t.call σ.base.owner op = t.call σ.cxx.owner op' := by
  cases op <;> cases op' <;> simp only [Alike] at alike
  · rw [Stock.call, Stock.call, alike]
  · next ptr ptr' =>
    have same : ptr.bind σ.base.owner = ptr'.bind σ.cxx.owner := by
      rcases ptr with _ | p <;> rcases ptr' with _ | q
      · rfl
      · cases alike
      · cases alike
      · exact Option.some.inj alike
    rw [Stock.call, Stock.call, same]
  · rfl

theorem both_step {ops : Op × Op} (h : σ.call ops = some σ') : BothStep σ ops σ' := by
  simp only [Both.call] at h
  split at h
  · next alike =>
    obtain ⟨base, returned, h⟩ := Option.bind_eq_some_iff.mp h
    obtain ⟨cxx, returned', h⟩ := Option.bind_eq_some_iff.mp h
    cases h
    exact ⟨alike, call_step returned, call_step returned'⟩
  · cases h

theorem step_agree {ops : Op × Op} (A : Agree σ) (step : BothStep σ ops σ') : Agree σ' := by
  obtain ⟨alike, base, cxx⟩ := step
  obtain ⟨t, place, place', C, C'⟩ := A.stock
  obtain ⟨_, D⟩ := Base.stocking.step C base
  obtain ⟨_, D'⟩ := Cxx.stocking.step C' cxx
  rw [← alike.call t] at D'
  exact ⟨A.sized.step C.layout base, _, _, _, D, D'⟩

theorem owned_nobody (span : Addr → Option Span) :
    Owned span (fun _ => .gone) fun _ => none := by
  intro ptr k
  constructor
  · rintro ⟨n, ⟨b, v, hb, _⟩, _⟩
    cases hb
  · intro h
    cases h

theorem counted_nothing {B : Books} (keys : B.keys = ∅) :
    Counted B (fun _ => .gone) Stock.empty where
  made i := by simp [Books.made, keys, Stock.empty]
  idle i := by simp [Books.idle, Stock.empty]

theorem start_agree : Agree Both.start where
  sized := Base.init_sized
  stock := ⟨Stock.empty, _, _,
    ⟨Base.init_layout, Base.init_tally, counted_nothing rfl, owned_nobody _⟩,
    ⟨Cxx.init_layout, Cxx.init_tally, counted_nothing rfl, owned_nobody _⟩⟩

/-- Both pools count the same for a slab, and its free list in the C++ pool is as long as the
stock says. -/
theorem Agree.slab (A : Agree σ) {i : Nat} {slab : Cxx.Slab}
    (h : σ.cxx.state.slabs[i]? = some slab) :
    (σ.base.state.slabs i).total = slab.totalBlocks ∧
      (σ.base.state.slabs i).inUse = slab.allocatedBlocks ∧
      slab.allocatedBlocks = 0 - UInt64.ofNat slab.freeList.length := by
  obtain ⟨t, place, place', C, C'⟩ := A.stock
  have total : (σ.base.state.slabs i).total = slab.totalBlocks := by
    have base := C.tally.total i
    have cxx := C'.tally.total i
    rw [C.counted.made] at base
    rw [C'.counted.made, ← base] at cxx
    exact (cxx.symm.trans (Cxx.counter_some h))
  have inUse : (σ.base.state.slabs i).inUse = slab.allocatedBlocks := by
    have base := C.tally.inUse i
    have cxx := C'.tally.inUse i
    rw [C.counted.idle] at base
    rw [C'.counted.idle, ← base] at cxx
    exact (cxx.symm.trans (Cxx.counter_some h))
  have free := C'.tally.inUse i
  rw [C'.layout.idle h] at free
  exact ⟨total, inUse, (Cxx.counter_some h).symm.trans free⟩

/-- Called in the same way, both pools print the same totals for every slab and the same counts
of blocks in use. `1.base` prints more free blocks than are on the list, by the slab's total.
And both refuse the same pointers. -/
theorem pools_agree (ops : List (Op × Op)) (σ : Both) (run : Run BothStep Both.start ops σ) :
    σ.base.state.dumpStats = σ.cxx.state.dumpSlabStats.map
      (fun (size, total, used, free) => (size, total, used, total + UInt64.ofNat free)) ∧
    ∀ ptr ptr', ptr.map σ.base.owner = ptr'.map σ.cxx.owner →
      ((∃ s, σ.base.state.memPoolFree ptr = some (s, some .invalid)) ↔
        ∃ s, σ.cxx.state.deallocate ptr' = some (s, some .invalid)) := by
  have A : Agree σ := run.invariant start_agree fun _ _ _ A step => step_agree A step
  obtain ⟨t, place, place', C, C'⟩ := A.stock
  constructor
  · have length : σ.cxx.state.slabs.length = slabCount := by
      rw [show slabCount = slabSizes.length from rfl, ← C'.layout.sizes, List.length_map]
    apply List.ext_getElem?
    intro i
    rw [Base.Pool.dumpStats, Cxx.MemoryPool.dumpSlabStats, List.map_map, List.getElem?_map,
      List.getElem?_map]
    cases h : σ.cxx.state.slabs[i]? with
    | none =>
      have outside := List.getElem?_eq_none_iff.mp h
      rw [List.getElem?_eq_none (by simpa [length] using outside)]
      rfl
    | some slab =>
      have hi : i < slabCount := length ▸ (List.getElem?_eq_some_iff.mp h).1
      obtain ⟨total, inUse, free⟩ := A.slab h
      have size : (σ.base.state.slabs i).chunkSize = slab.chunkSize := by
        have sizes := congrArg (·[i]?) C'.layout.sizes
        simp only [List.getElem?_map, h, Option.map_some] at sizes
        rw [A.sized i hi, List.getD_eq_getElem?_getD, ← sizes, Option.getD_some]
      have spare : slab.totalBlocks - slab.allocatedBlocks =
          slab.totalBlocks + UInt64.ofNat slab.freeList.length := by
        rw [free]
        grind
      rw [List.getElem?_range hi]
      simp [size, total, inUse, spare]
  · intro ptr ptr' same
    rw [Base.refused_iff C, Cxx.refused_iff C', same]

end

/-- Two blocks of one slab come and go, in memory of each pool's own. -/
def comeAndGo : List (Op × Op) :=
  [(.alloc 8 (fresh 1 1000), .alloc 8 (fresh 5 5000)),
    (.alloc 9 (fresh 2 2000), .alloc 9 (fresh 6 6000)), (.free (some 2016), .free (some 6016)),
    (.free (some 1016), .free (some 5016)), (.alloc 8 (fresh 3 3000), .alloc 8 (fresh 7 7000))]

/-- `1.base` hands out the block that was freed last, and the C++ pool the one before it. -/
theorem comeAndGo_agree : ∃ σ, Run BothStep Both.start comeAndGo σ ∧
    (σ.base.owner 1016, σ.cxx.owner 6016) = (some 8, some 8) ∧
    σ.base.state.dumpStats = σ.cxx.state.dumpSlabStats.map
      (fun (size, total, used, free) => (size, total, used, total + UInt64.ofNat free)) ∧
    ∀ ptr ptr', ptr.map σ.base.owner = ptr'.map σ.cxx.owner →
      ((∃ s, σ.base.state.memPoolFree ptr = some (s, some .invalid)) ↔
        ∃ s, σ.cxx.state.deallocate ptr' = some (s, some .invalid)) := by
  have ran : (execute Both.call Both.start comeAndGo).map
      (fun σ => (σ.base.owner 1016, σ.cxx.owner 6016)) = some (some 8, some 8) := by
    decide +kernel
  obtain ⟨σ, ret, eq⟩ := Option.map_eq_some_iff.mp ran
  have run : Run BothStep Both.start comeAndGo σ := execute_run (fun _ _ _ => both_step) ret
  exact ⟨σ, run, eq, pools_agree comeAndGo σ run⟩

end LearnC.SlabPool
