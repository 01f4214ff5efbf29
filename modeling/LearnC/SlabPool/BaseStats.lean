import LearnC.SlabPool.BaseLayout
import LearnC.SlabPool.Books

/-! What `mem_pool_dump_stats` prints for the slabs of `1.base`. -/

namespace LearnC.SlabPool.Base

/-- The slab of the block at `b`. -/
def Pool.slabOf (s : Pool) (b : Addr) : Option Nat :=
  (s.desc.lookup b).bind fun v => slabIndex v.size

/-- `in_use` counts the active blocks of each slab, and `total` these and the
blocks on its free list. -/
def Pool.Balanced (s : Pool) : Prop :=
  ∀ i < slabCount,
    (s.slabs i).inUse.toNat = s.activeBlocks.countP (fun b => s.slabOf b = some i) ∧
    ∃ free, Chain s.next (s.slabs i).freeList free ∧
      (s.slabs i).total.toNat = (s.slabs i).inUse.toNat + free.length

def Pool.books (s : Pool) : Books where
  keys := s.desc.keys
  cls := s.slabOf
  total i := (s.slabs i).total
  inUse i := (s.slabs i).inUse

section
variable {s s' : Pool} {place : Addr → Place} {b c ptr : Addr} {v : Block} {i size : Nat}
  {env : Env}

theorem slabOf_some (h : s.desc.lookup b = some v) : s.slabOf b = slabIndex v.size := by
  simp [Pool.slabOf, h]

theorem mem_desc (h : s.desc.lookup b = some v) : b ∈ s.desc.keys :=
  Finmap.mem_keys.mpr (Finmap.mem_iff.mpr ⟨v, h⟩)

/-- A descriptor that keeps its size keeps the books. -/
theorem books_rewrite (hv : s.desc.lookup b = some v) {v' : Block} (size : v'.size = v.size)
    (mem : Memory) (slabs : Nat → Slab) (active : List Addr) (capacity : Nat) :
    Pool.books ⟨mem, s.desc.insert b v', slabs, active, capacity⟩ =
      { s.books with total := fun i => (slabs i).total, inUse := fun i => (slabs i).inUse } := by
  apply Books.ext
  · ext c
    simp only [Pool.books, Finmap.mem_keys, Finmap.mem_insert, or_iff_right_iff_imp]
    rintro rfl
    exact Finmap.mem_keys.mp (mem_desc hv)
  · funext c
    by_cases hc : c = b
    · subst hc
      simp [Pool.books, Pool.slabOf, hv, size]
    · simp [Pool.books, Pool.slabOf, hc]
  · rfl
  · rfl

/-! ## Allocation -/

theorem traced_size (v : Block) (env : Env) :
    ({ v with backtrace := env.trace.take maxBacktrace } : Block).size = v.size := rfl

theorem reuse_books (cls : slabIndex size = some i) (head : (s.slabs i).freeList = some b)
    (hv : s.desc.lookup b = some v) (ret : s.memPoolAlloc size env = some (s', ptr)) :
    s'.books = s.books.reuse i := by
  simp only [Pool.memPoolAlloc, Pool.take, cls, head, Pool.reuse, hv, Option.bind_eq_bind,
    Option.bind_some, Option.map_some, Option.some.injEq, Prod.mk.injEq, Pool.setSlab] at ret
  obtain ⟨rfl, rfl⟩ := ret
  refine (books_rewrite hv (traced_size v env) _ _ _ _).trans ?_
  apply Books.ext
  · rfl
  · rfl
  · funext j
    by_cases hj : j = i
    · subst hj
      simp [Books.reuse, Pool.books]
    · simp [Books.reuse, Pool.books, hj]
  · exact Function.comp_update Slab.inUse s.slabs i _

/-- A new descriptor, and the counter of its slab. -/
theorem create_eq (blk : env.blk = some b) {s₁ : Pool}
    (ret : s.create (slabIndex size) size env = some (s₁, c)) :
    c = b ∧ (∃ v, s₁.desc.lookup b = some v) ∧ s₁.books = s.books.create b (slabIndex size) := by
  simp only [Pool.create, blk, Option.bind_eq_bind, Option.bind_some] at ret
  obtain ⟨raw, _, ret⟩ := Option.bind_eq_some_iff.mp ret
  obtain ⟨mem, _, ret⟩ := Option.bind_eq_some_iff.mp ret
  let v : Block := ⟨⟨raw, raw + guardSize, size⟩, none, []⟩
  have desc : c = b ∧ s₁.desc = s.desc.insert b v := by
    split at ret <;> cases ret <;> exact ⟨rfl, rfl⟩
  obtain ⟨rfl, desc⟩ := desc
  refine ⟨rfl, ⟨v, ?_⟩, ?_⟩
  · rw [desc]
    exact Finmap.lookup_insert _
  apply Books.ext
  · ext d
    simp [Pool.books, Books.create, desc, Finmap.mem_keys]
  · funext d
    by_cases hd : d = c
    · subst hd
      simp [Pool.books, Pool.slabOf, Books.create, desc, v]
    · simp [Pool.books, Pool.slabOf, Books.create, desc, hd]
  · cases cls : slabIndex size with
    | none =>
      simp only [cls] at ret
      cases ret
      rfl
    | some i =>
      simp only [cls] at ret
      cases ret
      exact Function.comp_update Slab.total s.slabs i _
  · split at ret
    · next i _ =>
      cases ret
      funext j
      by_cases hj : j = i
      · subst hj
        simp [Pool.books, Books.create, Pool.setSlab]
      · simp [Pool.books, Books.create, Pool.setSlab, hj]
    · cases ret
      rfl

theorem create_books (idle : s.serving size = none) (blk : env.blk = some b)
    (ret : s.memPoolAlloc size env = some (s', ptr)) :
    s'.books = s.books.create b (slabIndex size) := by
  obtain ⟨⟨s₁, c⟩, take, ret⟩ := Option.bind_eq_some_iff.mp ret
  have made : s.create (slabIndex size) size env = some (s₁, c) := by
    cases cls : slabIndex size with
    | none => simpa [Pool.take, cls] using take
    | some i =>
      have empty : (s.slabs i).freeList = none := by simpa [Pool.serving, cls] using idle
      simpa [Pool.take, cls, empty] using take
  obtain ⟨rfl, ⟨v, hv⟩, books⟩ := create_eq blk made
  simp only [hv, Option.bind_eq_bind, Option.bind_some, Option.some.injEq, Prod.mk.injEq] at ret
  obtain ⟨rfl, rfl⟩ := ret
  rw [← books]
  exact books_rewrite hv (traced_size v env) _ _ _ _

/-! ## Freeing -/

theorem release_books (hv : s.desc.lookup b = some v)
    (ret : (s.removeActive b).release b v = some s') :
    s'.books = match slabIndex v.size with
      | some i => s.books.release i
      | none => s.books.drop b := by
  cases cls : slabIndex v.size with
  | some i =>
    simp only [Pool.release, cls] at ret
    cases ret
    have size : ({ v with next := (s.slabs i).freeList } : Block).size = v.size := rfl
    refine (books_rewrite hv size _ _ _ _).trans ?_
    apply Books.ext
    · rfl
    · rfl
    · funext j
      by_cases hj : j = i
      · subst hj
        simp [Books.release, Pool.books, Pool.removeActive]
      · simp [Books.release, Pool.books, Pool.removeActive, hj]
    · exact Function.comp_update Slab.inUse s.slabs i _
  | none =>
    simp only [Pool.release, cls] at ret
    split at ret
    · cases ret
      apply Books.ext
      · exact Finmap.keys_erase b s.desc
      · funext c
        by_cases hc : c = b
        · subst hc
          simp [Pool.books, Pool.slabOf, Books.drop]
        · simp [Pool.books, Pool.slabOf, Books.drop, Pool.removeActive, hc]
      · rfl
      · rfl
    · cases ret

theorem Layout.live (L : Layout s place) : b ∈ s.books.keys ↔ place b ≠ .gone := by
  rw [← L.placed.live, Pool.span, Option.isSome_map, Finmap.lookup_isSome]
  exact Finmap.mem_keys

theorem accounts : Accounts base Layout Pool.books where
  cls s place b i _ h := by
    obtain ⟨v, _, cls⟩ := Option.bind_eq_some_iff.mp h
    exact classOf_lt cls
  alloc s place size env s' ptr L fit supply ret := by
    cases idle : s.serving size with
    | none =>
      obtain ⟨c, blk, new⟩ := supply.1
      obtain ⟨s₁, b, v, hb, ok, _, _, _, L'⟩ := alloc_create L fit idle supply
      cases ok.symm.trans ret
      have books := create_books idle blk ret
      have eq : b = c := Books.made_block (fun _ => L.live) (fun _ => books ▸ L'.live) new
      exact ⟨b, L', Or.inr ⟨hb, eq ▸ books⟩⟩
    | some b =>
      obtain ⟨i, cls, head⟩ := Option.bind_eq_some_iff.mp idle
      obtain ⟨s₁, v, hb, hv, ok, _, _, L'⟩ := alloc_reuse L cls head env
      cases ok.symm.trans ret
      exact ⟨b, L', Or.inl ⟨i, hb, reuse_books cls head hv ret⟩⟩
  free s place ptr s' L ret := by
    obtain ⟨⟨_, msg⟩, call, rfl⟩ := Option.map_eq_some_iff.mp ret
    rcases free_inv L call with rfl | ⟨b, v, hb, hv, _, release⟩
    · exact Or.inl rfl
    · refine Or.inr ⟨b, hb, ?_⟩
      have books := release_books hv release
      cases cls : slabIndex v.size with
      | some i =>
        obtain ⟨_, ok, _, L'⟩ := release_slab L hb hv cls
        cases ok.symm.trans release
        rw [cls] at books
        exact Or.inl ⟨i, (slabOf_some hv).trans cls, L', books⟩
      | none =>
        obtain ⟨_, ok, _, L'⟩ := release_system L hb hv cls
        cases ok.symm.trans release
        rw [cls] at books
        exact Or.inr ⟨(slabOf_some hv).trans cls, L', books⟩
  freeNull s := rfl
  write s place mem L extent := ⟨L.store extent, rfl⟩

/-! ## What the counters count -/

theorem Layout.busy (L : Layout s place) (i : Nat) :
    s.books.busy place i = s.activeBlocks.countP fun b => s.slabOf b = some i := by
  rw [List.countP_eq_length_filter]
  apply card_filter_eq_length (L.once.filter _)
  intro b
  have live : place b = .active → b ∈ s.books.keys := fun hb => L.live.mpr (by simp [hb])
  simp only [List.mem_filter, L.active, decide_eq_true_eq]
  constructor
  · rintro ⟨hb, cls⟩
    exact ⟨live hb, hb, cls⟩
  · rintro ⟨_, hb, cls⟩
    exact ⟨hb, cls⟩

theorem Layout.idle (L : Layout s place) {free : List Addr}
    (list : Chain s.next (s.slabs i).freeList free) : s.books.idle place i = free.length := by
  obtain ⟨blocks, chain, mem⟩ := L.slab i
  cases chain.unique list
  apply card_filter_eq_length list.nodup
  intro b
  rw [mem]
  constructor
  · intro hb
    exact ⟨L.live.mpr (by simp [hb]), hb⟩
  · exact And.right

theorem Layout.balanced (L : Layout s place) :
    s.Balanced ↔ ∀ i < slabCount, (s.books.inUse i).toNat = s.books.busy place i ∧
      (s.books.total i).toNat = (s.books.inUse i).toNat + s.books.idle place i := by
  apply forall₂_congr
  intro i _
  rw [L.busy]
  apply and_congr_right
  intro _
  constructor
  · rintro ⟨free, chain, total⟩
    rw [L.idle chain]
    exact total
  · intro total
    obtain ⟨free, chain, _⟩ := L.slab i
    rw [L.idle chain] at total
    exact ⟨free, chain, total⟩

theorem init_tally : Tally Pool.init.books fun _ => .gone := by
  apply tally_nothing
  · rfl
  · intro i
    simp only [Pool.books, Pool.init, Pool.memPoolInit, Pool.start]
    split <;> rfl
  · intro i
    simp only [Pool.books, Pool.init, Pool.memPoolInit, Pool.start]
    split <;> rfl

/-- A request of any size that is answered is a step. -/
theorem alloc_step {w : World Pool} (supply : Supplies base w.state env)
    (ret : w.state.memPoolAlloc size env = some (s', ptr)) :
    Step base w (.alloc size env) ⟨s', Function.update w.owner ptr (some size)⟩ :=
  .alloc (alloc_fits ret) supply ret

/-- In every run the counters balance exactly if each request so far was too large
for a slab. -/
theorem stats_balanced_iff (ops : List Op) (w : World Pool)
    (run : Run (Step base) (World.start Pool.init) ops w) :
    w.state.Balanced ↔ ∀ size env, .alloc size env ∈ ops → 4096 < size := by
  obtain ⟨place, L, iff⟩ := accounts.balanced_iff init_layout init_tally rfl run
  exact L.balanced.trans iff

end

/-- A block too large for any slab. -/
def oversized : List Op := [.alloc 5000 (fresh 1 1000)]

theorem oversized_balanced : (World.after base Pool.init oversized).state.Balanced := by
  apply (stats_balanced_iff oversized (World.after base Pool.init oversized)
    (after_run (by decide))).mpr
  intro size env mem
  cases List.mem_singleton.mp mem
  decide

/-- The first block of a slab comes and goes. -/
def returned : List Op := [.alloc 8 (fresh 1 1000), .free (some 1016)]

/-- Coming, it is not counted, and going it is: nothing is in use, and the counter
has wrapped. -/
theorem returned_block_wraps : ∃ w, Run (Step base) (World.start Pool.init) returned w ∧
    (w.state.slabs 0).inUse.toNat = 2 ^ 64 - 1 ∧ w.state.activeBlocks = [] ∧
    ¬ w.state.Balanced := by
  have run : Run (Step base) (World.start Pool.init) returned
      (World.after base Pool.init returned) := after_run (by decide)
  have counter : ((World.after base Pool.init returned).state.slabs 0).inUse.toNat =
      2 ^ 64 - 1 := by decide
  have active : (World.after base Pool.init returned).state.activeBlocks = [] := by
    decide
  refine ⟨_, run, counter, active, ?_⟩
  intro balanced
  have inUse := (balanced 0 (by decide)).1
  rw [counter, active] at inUse
  cases inUse

end LearnC.SlabPool.Base
