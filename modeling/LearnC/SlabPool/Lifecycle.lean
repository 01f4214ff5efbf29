import LearnC.MemPool.Lifecycle
import LearnC.SlabPool.BaseStats
import LearnC.SlabPool.BaseTeardown

/-! `mem_pool_destroy` and `mem_pool_init` again, in `1.base` and in `2.upgrade`. -/

namespace LearnC.SlabPool.Base

/-- `mem_pool_destroy` and then `mem_pool_init`. -/
def Pool.restart (s : Pool) : Option Pool := s.memPoolDestroy.map fun d => d.pool.memPoolInit

def World.restart (w : World Pool) : Option (World Pool) := w.state.restart.map World.start

/-- Destroying and initialising the pool gives the state after the first `mem_pool_init`. -/
def Renews (w : World Pool) : Prop := w.state.restart = some .init

/-- A request is too large for any slab. -/
def Large : Option Op → Prop
  | some (.alloc size _) => 4096 < size
  | _ => True

/-- The slabs are as they were at first, and the blocks in use are of no slab's size. -/
def Idle (s : Pool) (place : Addr → Place) : Prop :=
  s.slabs = Pool.init.slabs ∧
    ∀ b v, place b = .active → s.span b = some v → classOf slabSizes v.size = none

section
variable {s s' : Pool} {place : Addr → Place} {b ptr : Addr} {v : Block} {i size : Nat} {env : Env}
  {w w' : World Pool} {op : Op}

theorem init_slab (i : Nat) :
    (Pool.init.slabs i).freeList = none ∧ (Pool.init.slabs i).total = 0 := by
  simp only [Pool.init, Pool.memPoolInit, Pool.start]
  split <;> exact ⟨rfl, rfl⟩

theorem alloc_slabs (cls : slabIndex size = none) (ret : s.memPoolAlloc size env = some (s', ptr)) :
    s'.slabs = s.slabs := by
  obtain ⟨⟨s₁, c⟩, take, ret⟩ := Option.bind_eq_some_iff.mp ret
  obtain ⟨d, _, ret⟩ := Option.bind_eq_some_iff.mp ret
  cases ret
  simp only [Pool.take, cls] at take
  obtain ⟨blk, _, take⟩ := Option.bind_eq_some_iff.mp take
  obtain ⟨raw, _, take⟩ := Option.bind_eq_some_iff.mp take
  obtain ⟨mem, _, take⟩ := Option.bind_eq_some_iff.mp take
  cases take
  rfl

theorem release_slabs (cls : slabIndex v.size = none) (ret : s.release b v = some s') :
    s'.slabs = s.slabs := by
  simp only [Pool.release, cls] at ret
  split at ret <;> cases ret
  rfl

/-! ## Restarts -/

theorem init_again : (⟨∅, ∅, Pool.init.slabs, [], 0⟩ : Pool).memPoolInit = .init := by
  have slabs : (fun i => if i < slabCount then
      { Pool.init.slabs i with chunkSize := slabSizes.getD i 0 } else Pool.init.slabs i) =
      Pool.init.slabs := by
    funext i
    by_cases hi : i < slabCount <;> simp [Pool.init, Pool.memPoolInit, hi]
  simp only [Pool.memPoolInit, slabs]
  rfl

theorem Idle.renews (I : Idle s place) (L : Layout s place) : s.restart = some .init := by
  obtain ⟨d, ret, left, _⟩ := L.destroy
  rw [Pool.restart, ret, Option.map_some, left, I.1]
  exact congrArg some init_again

theorem restart_total (ret : s.restart = some s') (i : Nat) :
    (s'.slabs i).total = (s.slabs i).total := by
  obtain ⟨d, destroyed, rfl⟩ := Option.map_eq_some_iff.mp ret
  obtain ⟨_, _, destroyed⟩ := Option.bind_eq_some_iff.mp destroyed
  obtain ⟨_, _, destroyed⟩ := Option.bind_eq_some_iff.mp destroyed
  obtain ⟨_, _, destroyed⟩ := Option.bind_eq_some_iff.mp destroyed
  cases destroyed
  simp only [Pool.memPoolInit]
  split <;> rfl

theorem Idle.step {l : Option Op} (I : Idle w.state place) (L : Layout w.state place)
    (step : Cycle (Step base) World.restart w l w') (large : Large l) :
    ∃ place', Layout w'.state place' ∧ Idle w'.state place' := by
  cases l with
  | none =>
    have renewed := I.renews L
    obtain ⟨s, ret, rfl⟩ := Option.map_eq_some_iff.mp step
    cases renewed.symm.trans ret
    exact ⟨_, init_layout, rfl, fun b v hb => Place.noConfusion hb⟩
  | some op =>
    cases step with
    | @alloc size env s ptr fit supply ret =>
      have cls : slabIndex size = none := classOf_large.mpr large
      have idle : w.state.serving size = none := by simp [Pool.serving, cls]
      obtain ⟨s₁, b, v, _, ok, exact_size, same, hv, L'⟩ := alloc_create L fit idle supply
      cases ok.symm.trans ret
      refine ⟨_, L', (alloc_slabs cls ret).trans I.1, ?_⟩
      intro c u hc hu
      by_cases eq : c = b
      · subst eq
        cases hv.symm.trans hu
        rw [exact_size]
        exact cls
      · exact I.2 c u (by simpa [eq] using hc) ((same.span c eq).symm.trans hu)
    | @free ptr s ret =>
      obtain ⟨⟨_, msg⟩, call, rfl⟩ := Option.map_eq_some_iff.mp ret
      rcases free_inv L call with rfl | ⟨b, v, hb, hv, _, release⟩
      · exact ⟨place, L, I⟩
      · have cls := I.2 b _ hb (span_some hv)
        obtain ⟨s₁, ok, same, L'⟩ := release_system L hb hv cls
        cases ok.symm.trans release
        refine ⟨_, L', (release_slabs cls release).trans I.1, ?_⟩
        intro c u hc hu
        have ne : c ≠ b := by
          rintro rfl
          simp at hc
        exact I.2 c u (by simpa [ne] using hc) ((same.span c ne).symm.trans hu)
    | freeNull ret =>
      cases ret
      exact ⟨place, L, I⟩
    | write ret => exact ⟨place, L.store (Memory.store_extent ret), I⟩

theorem Idle.large {l : Option Op} (I : Idle w.state place)
    (step : Cycle (Step base) World.restart w l w') (renews : Renews w') : Large l := by
  cases l with
  | none => trivial
  | some op =>
    cases step with
    | @alloc size env s ptr fit supply ret =>
      by_contra small
      obtain ⟨i, cls⟩ : ∃ i, slabIndex size = some i :=
        Option.ne_none_iff_exists'.mp fun none => small (classOf_large.mp none)
      have idle : w.state.serving size = none := by
        simp [Pool.serving, cls, I.1, init_slab]
      obtain ⟨b, blk, _⟩ := supply.1
      have counted := congrArg (fun B => B.total i) (create_books idle blk ret)
      have kept := restart_total renews i
      simp [Books.create, Pool.books, cls, I.1, init_slab] at counted
      simp [counted, init_slab] at kept
    | free | freeNull | write => trivial

end

/-- In `1.base` the runs in whose every state destroying and initialising the pool
renews it are those whose every request is too large for a slab. In `2.upgrade` there
is no such state in any run. -/
theorem renews_iff_large (calls : List (Option Op)) (w : World Pool) :
    (Run (Into Renews (Cycle (Step base) World.restart)) (.start .init) calls w ↔
      Run (When (fun _ => Large) (Cycle (Step base) World.restart)) (.start .init) calls w) ∧
    ∀ garbage calls' w', Run (Cycle (MemPool.Step MemPool.upgrade) MemPool.World.restart)
      (.start (.memPoolInit (.static garbage))) calls' w' → ¬ w'.state.Renews := by
  constructor
  · symm
    apply run_when_iff_kept (K := fun w => ∃ place, Layout w.state place ∧ Idle w.state place)
    · exact ⟨_, init_layout, rfl, fun b v hb => Place.noConfusion hb⟩
    · rintro w l w' ⟨place, L, I⟩ step large
      obtain ⟨place', L', I'⟩ := I.step L step large
      exact ⟨⟨place', L', I'⟩, I'.renews L'⟩
    · rintro w l w' ⟨place, L, I⟩ step renews
      exact I.large step renews
  · intro garbage calls' w'
    exact MemPool.Upgrade.never_renews

/-- After a block of a slab came and went, a restarted pool still lists it: the next
request of its size and the next `mem_pool_destroy` use what is freed. And `2.upgrade`
counts its classes twice. -/
theorem restart_lists_freed :
    (∃ w s, Run (Cycle (Step base) World.restart) (.start .init) (returned.map some) w ∧
      w.state.restart = some s ∧ (s.slabs 0).freeList = some 1 ∧ 1 ∉ s.desc ∧
      s.memPoolAlloc 8 (fresh 2 2000) = none ∧ s.memPoolDestroy = none ∧ ¬ Renews w) ∧
    ∀ garbage, ∃ u, (MemPool.Upgrade.memPoolInit (.static garbage)).restart = .ok u ∧
      u.pool.slabClsCnt = 22 := by
  constructor
  · have run : Run (Step base) (.start .init) returned (World.after base Pool.init returned) :=
      after_run (by decide)
    have facts : (World.after base Pool.init returned).state.restart.map (fun s =>
        ((s.slabs 0).freeList, decide (1 ∈ s.desc), (s.memPoolAlloc 8 (fresh 2 2000)).isSome,
          s.memPoolDestroy.isSome)) = some (some 1, false, false, false) := by decide
    obtain ⟨s, ret, eq⟩ := Option.map_eq_some_iff.mp facts
    simp only [Prod.mk.injEq, decide_eq_false_iff_not] at eq
    obtain ⟨list, freed, alloc, destroy⟩ := eq
    refine ⟨_, s, run.cycle, ret, list, freed, Option.not_isSome_iff_eq_none.mp (by simp [alloc]),
      Option.not_isSome_iff_eq_none.mp (by simp [destroy]), ?_⟩
    intro renews
    cases renews.symm.trans ret
    cases list
  · intro garbage
    exact ⟨_, rfl, rfl⟩

end LearnC.SlabPool.Base
