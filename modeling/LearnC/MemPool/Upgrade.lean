import LearnC.MemPool.Owners

/-! `2.upgrade`: the same pool with its classes in file-scope tables, the block
sizes kept twice. Its runs are runs of the server. -/

namespace LearnC.MemPool

/-- The file-scope variables. `slab_classes`, its count, the list and the switches
are the pool; `slab_sizes` is the second table of block sizes. -/
structure Upgrade where
  pool : Pool
  slabSizes : Nat → Nat

namespace Upgrade

/-- The variables as the program starts. -/
def static (garbage : Addr → MemBlk) : Upgrade where
  pool :=
    { mem := ∅
      hdr := garbage
      slabs := fun _ => ⟨0, none⟩
      slabClsCnt := 0
      activeList := none
      debugMode := false
      protectMode := true }
  slabSizes := fun _ => 0

/-- The loop of `init_slab_classes`, with `left` iterations before `MAX_SLAB_CLASSES`. -/
def initSlabClasses : Nat → Nat → Nat → Upgrade → Upgrade
  | 0, _, _, u => u
  | left + 1, i, size, u =>
    if size ≤ slabMaxSize then
      initSlabClasses left (i + 1) (size * 2)
        { u with
          slabSizes := Function.update u.slabSizes i size
          pool := { u.pool with
            slabs := Function.update u.pool.slabs i { u.pool.slabs i with blockSize := size }
            slabClsCnt := u.pool.slabClsCnt + 1 } }
    else u

def memPoolInit (u : Upgrade) : Upgrade := initSlabClasses maxSlabClasses 0 slabMinSize u

def findSlabIndex (u : Upgrade) (size : Nat) : Option Nat :=
  classOf ((List.range u.pool.slabClsCnt).map u.slabSizes) size

def memPoolAllocLabel (u : Upgrade) (size : Nat) (label : Option (List UInt8)) (env : Env) :
    Except Stop (Upgrade × Option Addr) := do
  let (pool, ptr) ← u.pool.allocAt (u.findSlabIndex size) size label env
  .ok ({ u with pool := pool }, ptr)

def memPoolFree (u : Upgrade) (ptr : Option Addr) : Except Stop Upgrade := do
  let pool ← u.pool.freeWith (fun s n => { u with pool := s }.findSlabIndex n) ptr
  .ok { u with pool := pool }

def userWrite (u : Upgrade) (ptr : Addr) (off : Nat) (byte : UInt8) : Except Stop Upgrade := do
  let pool ← u.pool.userWrite ptr off byte
  .ok { u with pool := pool }

end Upgrade

def upgrade : Program Upgrade where
  pool := Upgrade.pool
  alloc := Upgrade.memPoolAllocLabel
  free := Upgrade.memPoolFree
  setProtection := fun u enabled => { u with pool := u.pool.memPoolSetProtection enabled }
  setDebug := fun u enabled => { u with pool := u.pool.memPoolSetDebug enabled }
  write := Upgrade.userWrite

section
variable {u : Upgrade} {s : Pool} {garbage : Addr → MemBlk} {ops : List Op}

theorem ok_of_map {ε α β : Type} {x : Except ε α} {f : α → β} {y : β} (h : x.map f = .ok y) :
    ∃ v, x = .ok v ∧ f v = y := by
  cases x with
  | error e => cases h
  | ok v => exact ⟨v, rfl, Except.ok.inj h⟩

/-- The loop fills the class table as the server's loop does, and the size table with it. -/
theorem initSlabClasses_spec (left i size : Nat)
    (tables : ∀ j, u.slabSizes j = (u.pool.slabs j).blockSize) :
    (Upgrade.initSlabClasses left i size u).pool =
      { u.pool with
        slabs := (Pool.initSlabs left i size (u.pool.slabs, u.pool.slabClsCnt)).1
        slabClsCnt := (Pool.initSlabs left i size (u.pool.slabs, u.pool.slabClsCnt)).2 } ∧
    ∀ j, (Upgrade.initSlabClasses left i size u).slabSizes j =
      ((Upgrade.initSlabClasses left i size u).pool.slabs j).blockSize := by
  induction left generalizing i size u with
  | zero => exact ⟨rfl, tables⟩
  | succ left ih =>
    simp only [Upgrade.initSlabClasses, Pool.initSlabs]
    split
    · apply ih (i + 1) (size * 2)
      intro j
      by_cases hj : j = i
      · subst hj
        simp
      · simpa [hj] using tables j
    · exact ⟨rfl, tables⟩

/-- The first `mem_pool_init` leaves the state that the server's leaves. -/
theorem memPoolInit_pool :
    (Upgrade.memPoolInit (.static garbage)).pool = Pool.memPoolInit garbage :=
  (initSlabClasses_spec maxSlabClasses 0 slabMinSize fun _ => rfl).1

/-- The two tables of block sizes say the same. -/
def Upgrade.Twin (u : Upgrade) : Prop := (List.range classSizes.length).map u.slabSizes = classSizes

theorem memPoolInit_twin : (Upgrade.memPoolInit (.static garbage)).Twin := by
  have sizes := init_blockSizes garbage
  have cnt : (Pool.memPoolInit garbage).slabClsCnt = classSizes.length := by
    rw [← sizes, Pool.blockSizes, List.length_map, List.length_range]
  rw [Upgrade.Twin, ← cnt]
  refine Eq.trans (List.map_congr_left ?_) sizes
  intro j _
  rw [← memPoolInit_pool]
  exact (initSlabClasses_spec maxSlabClasses 0 slabMinSize fun _ => rfl).2 j

theorem Upgrade.Twin.findSlabIndex_eq (twin : u.Twin) (sizes : u.pool.blockSizes = classSizes)
    (n : Nat) : u.findSlabIndex n = classOf classSizes n := by
  have cnt : u.pool.slabClsCnt = classSizes.length := by
    rw [← sizes, Pool.blockSizes, List.length_map, List.length_range]
  rw [Upgrade.findSlabIndex, cnt, twin]

theorem memPoolAllocLabel_eq (twin : u.Twin) (sizes : u.pool.blockSizes = classSizes) (size : Nat)
    (label : Option (List UInt8)) (env : Env) : u.memPoolAllocLabel size label env =
      (u.pool.memPoolAllocLabel size label env).map
        fun out => ({ u with pool := out.1 }, out.2) := by
  rw [Upgrade.memPoolAllocLabel, Pool.memPoolAllocLabel, twin.findSlabIndex_eq sizes,
    findSlabIndex_eq sizes]
  cases u.pool.allocAt (classOf classSizes size) size label env <;> rfl

theorem memPoolFree_eq {owner : Addr → Option Request} {loc : Addr → Loc Unit} {p : Addr}
    {q : Request} (twin : u.Twin) (A : Agrees u.pool owner loc) (out : owner p = some q) :
    u.memPoolFree (some p) =
      (u.pool.memPoolFree (some p)).map fun s => { u with pool := s } := by
  obtain ⟨a, rfl, ha, _⟩ := A.active out
  have twins (s : Pool) : ({ u with pool := s } : Upgrade).Twin := twin
  have same : u.pool.freeWith (fun s n => { u with pool := s }.findSlabIndex n)
      (some (a + sizeofMemBlk)) = u.pool.memPoolFree (some (a + sizeofMemBlk)) :=
    freeWith_congr A.layout ha (fun s sizes n =>
      ((twins s).findSlabIndex_eq sizes n).trans (findSlabIndex_eq sizes n).symm) ()
  rw [Upgrade.memPoolFree, same]
  cases u.pool.memPoolFree (some (a + sizeofMemBlk)) <;> rfl

/-- The pool of `2.upgrade` takes the server's steps. -/
theorem upgrade_step {w w' : World Upgrade} {op : Op} {loc : Addr → Loc Unit}
    (twin : w.state.Twin) (A : Agrees w.state.pool w.owner loc) (step : Step upgrade w op w') :
    Step server ⟨w.state.pool, w.owner⟩ op ⟨w'.state.pool, w'.owner⟩ ∧ w'.state.Twin := by
  cases step with
  | @alloc size label env u' ptr fit new ret =>
    obtain ⟨⟨s, r⟩, ok, e⟩ :=
      ok_of_map ((memPoolAllocLabel_eq twin A.layout.sizes size label env).symm.trans ret)
    obtain ⟨rfl, rfl⟩ := Prod.mk.inj e
    exact ⟨.alloc fit new ok, twin⟩
  | @allocNull size label env u' fit new ret =>
    obtain ⟨⟨s, r⟩, ok, e⟩ :=
      ok_of_map ((memPoolAllocLabel_eq twin A.layout.sizes size label env).symm.trans ret)
    obtain ⟨rfl, rfl⟩ := Prod.mk.inj e
    exact ⟨.allocNull fit new ok, twin⟩
  | @free ptr q u' out ret =>
    obtain ⟨s, ok, rfl⟩ := ok_of_map ((memPoolFree_eq twin A out).symm.trans ret)
    exact ⟨.free out ok, twin⟩
  | freeNull ret =>
    cases ret
    exact ⟨.freeNull rfl, twin⟩
  | setProtection => exact ⟨.setProtection, twin⟩
  | setDebug => exact ⟨.setDebug, twin⟩
  | @write ptr q off byte u' out inside ret =>
    simp only [upgrade, Upgrade.userWrite, bind, Except.bind] at ret
    split at ret
    · cases ret
    · next s ok =>
      cases ret
      exact ⟨.write out inside ok, twin⟩

/-- Every run of `2.upgrade`, with any calls left out, is a run of the server. -/
theorem upgrade_run {C : Op → Prop} {w : World Upgrade}
    (run : Run (When (fun _ => C) (Step upgrade)) (World.start (.memPoolInit (.static garbage)))
      ops w) :
    Run (When (fun _ => C) (Step server)) (World.start (Pool.memPoolInit garbage)) ops
      ⟨w.state.pool, w.owner⟩ ∧ w.state.Twin := by
  have start : (World.start (Pool.memPoolInit garbage) : World Pool) =
      ⟨(Upgrade.memPoolInit (.static garbage)).pool, fun _ => none⟩ := by
    rw [memPoolInit_pool, World.start]
  rw [start]
  refine (run.simulate (f := fun w => (⟨w.state.pool, w.owner⟩ : World Pool))
    (J := fun w => w.state.Twin ∧ ∃ loc, Agrees w.state.pool w.owner loc) ?_ ?_).imp id And.left
  · refine ⟨memPoolInit_twin, fun _ => .gone, ?_⟩
    rw [World.start, memPoolInit_pool]
    exact start_agrees
  · intro w op w' ⟨twin, loc, A⟩ ⟨meets, step⟩
    obtain ⟨step', twin'⟩ := upgrade_step twin A step
    exact ⟨⟨meets, step'⟩, twin', (step_follows A step').agrees⟩

end

end LearnC.MemPool
