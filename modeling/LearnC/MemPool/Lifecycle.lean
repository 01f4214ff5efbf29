import LearnC.MemPool.Teardown
import LearnC.MemPool.Upgrade

/-! `mem_pool_destroy` of `2.upgrade`, and `mem_pool_init` after it. -/

namespace LearnC.MemPool

namespace Upgrade

/-- `mem_pool_destroy`, with the pointers it passes to `free`. The loop over the slabs
stops with `slab_class_count`, not with the array. -/
def memPoolDestroy (u : Upgrade) : Except Stop (Upgrade × List Addr) :=
  if u.pool.slabClsCnt ≤ maxSlabClasses then do
    let (s, freed) ← u.pool.destroySlabs (List.range u.pool.slabClsCnt) []
    let (s, freed) ← s.destroyList s.fuel s.activeList freed
    .ok ({ u with pool := { s with activeList := none } }, freed)
  else .error .outside

/-- `mem_pool_destroy` and then `mem_pool_init`. -/
def restart (u : Upgrade) : Except Stop Upgrade := do
  let (u, _) ← u.memPoolDestroy
  .ok u.memPoolInit

/-- Destroying and initialising the pool gives a state that a first `mem_pool_init` can
have left. -/
def Renews (u : Upgrade) : Prop := ∃ garbage, u.restart = .ok (memPoolInit (.static garbage))

end Upgrade

/-- No pointer is outstanding after a restart. -/
def World.restart (w : World Upgrade) : Option (World Upgrade) :=
  w.state.restart.toOption.map World.start

section
variable {s s' : Pool} {u u' : Upgrade} {w w' : World Upgrade} {op : Op}

theorem init_classes (u : Upgrade) :
    u.memPoolInit.pool.slabClsCnt = u.pool.slabClsCnt + 11 := rfl

/-! ## The number of classes stays -/

theorem setBlk_classes {a : Addr} {b : MemBlk} (ret : s.setBlk a b = .ok s') :
    s'.slabClsCnt = s.slabClsCnt := by
  simp only [Pool.setBlk] at ret
  split at ret <;> cases ret
  rfl

theorem takeRaw_classes {idx : Option Nat} {total : Nat} {env : Env} {raw : Option Addr}
    (ret : s.takeRaw idx total env = .ok (s', raw)) : s'.slabClsCnt = s.slabClsCnt := by
  have malloc (s : Pool) : (s.malloc env total).1.slabClsCnt = s.slabClsCnt := by
    unfold Pool.malloc
    split <;> rfl
  have pop (i : Nat) (s₁ : Pool) (r : Option Addr) (ok : s.slabPop i = .ok (s₁, r)) :
      s₁.slabClsCnt = s.slabClsCnt := by
    cases head : (s.slabs i).freeList with
    | none =>
      simp only [Pool.slabPop, head] at ok
      cases ok
      rfl
    | some tmp =>
      simp only [Pool.slabPop, head] at ok
      obtain ⟨b, _, ok⟩ := ok_of_bind ok
      cases ok
      rfl
  cases idx with
  | none =>
    have eq : (s.malloc env total).1 = s' := congrArg Prod.fst (Except.ok.inj ret)
    rw [← eq, malloc]
  | some i =>
    obtain ⟨⟨s₁, r⟩, first, ret⟩ := ok_of_bind ret
    have kept := pop i s₁ r first
    cases r with
    | some a =>
      cases ret
      exact kept
    | none =>
      have eq : (s₁.malloc env total).1 = s' := congrArg Prod.fst (Except.ok.inj ret)
      rw [← eq, malloc, kept]

theorem initBlk_classes {raw : Addr} {actual : Nat} {label : Option (List UInt8)} {env : Env}
    (ret : s.initBlk raw actual label env = .ok s') : s'.slabClsCnt = s.slabClsCnt := by
  obtain ⟨b, _, ret⟩ := ok_of_bind ret
  obtain ⟨s₁, set, ret⟩ := ok_of_bind ret
  have kept := setBlk_classes set
  split at ret
  · simp only [Pool.storeTail] at ret
    split at ret <;> cases ret
    exact kept
  · cases ret
    exact kept

theorem activePush_classes {blk : Addr} (ret : s.activePush blk = .ok s') :
    s'.slabClsCnt = s.slabClsCnt := by
  obtain ⟨b, _, ret⟩ := ok_of_bind ret
  obtain ⟨s₁, set, ret⟩ := ok_of_bind ret
  have kept := setBlk_classes set
  cases ret
  exact kept

theorem allocAt_classes {idx : Option Nat} {size : Nat} {label : Option (List UInt8)} {env : Env}
    {ptr : Option Addr} (ret : s.allocAt idx size label env = .ok (s', ptr)) :
    s'.slabClsCnt = s.slabClsCnt := by
  obtain ⟨⟨s₁, raw⟩, take, ret⟩ := ok_of_bind ret
  have kept := takeRaw_classes take
  cases raw with
  | none =>
    cases ret
    exact kept
  | some a =>
    obtain ⟨s₂, init, ret⟩ := ok_of_bind ret
    obtain ⟨s₃, push, ret⟩ := ok_of_bind ret
    cases ret
    exact (activePush_classes push).trans ((initBlk_classes init).trans kept)

theorem unlink_classes {blk : Addr} {fuel : Nat} {prev : Pool.Cell}
    (ret : s.unlink blk fuel prev = .ok s') : s'.slabClsCnt = s.slabClsCnt := by
  induction fuel generalizing prev with
  | zero => cases ret
  | succ fuel ih =>
    obtain ⟨cur, _, ret⟩ := ok_of_bind ret
    cases cur with
    | none =>
      cases ret
      rfl
    | some a =>
      dsimp only at ret
      split at ret
      · obtain ⟨b, _, ret⟩ := ok_of_bind ret
        cases prev with
        | head =>
          cases ret
          rfl
        | next c =>
          obtain ⟨d, _, ret⟩ := ok_of_bind ret
          exact setBlk_classes ret
      · exact ih ret

theorem checkAndUnlink_classes {ptr blk : Addr} (ret : s.checkAndUnlink ptr blk = .ok s') :
    s'.slabClsCnt = s.slabClsCnt := by
  have last (b : MemBlk) (intact : Bool)
      (ok : (if !intact then Except.error (Stop.overflow ptr b.label) else do
        let s ← s.setBlk blk { b with freed := true }
        s.unlink blk s.fuel .head) = .ok s') : s'.slabClsCnt = s.slabClsCnt := by
    cases intact with
    | false => cases ok
    | true =>
      obtain ⟨s₁, set, ok⟩ := ok_of_bind ok
      exact (unlink_classes ok).trans (setBlk_classes set)
  obtain ⟨b, _, ret⟩ := ok_of_bind ret
  split at ret
  · cases ret
  · split at ret
    · cases ret
    · split at ret
      · obtain ⟨intact, _, ret⟩ := ok_of_bind ret
        exact last b intact ret
      · obtain ⟨intact, _, ret⟩ := ok_of_bind ret
        exact last b intact ret

theorem sysFree_classes {p : Addr} (ret : s.sysFree p = .ok s') : s'.slabClsCnt = s.slabClsCnt := by
  simp only [Pool.sysFree] at ret
  split at ret <;> cases ret
  rfl

theorem release_classes {idx : Option Nat} {blk : Addr} (ret : s.release idx blk = .ok s') :
    s'.slabClsCnt = s.slabClsCnt := by
  cases idx with
  | some i =>
    obtain ⟨b, _, ret⟩ := ok_of_bind ret
    obtain ⟨s₁, set, ret⟩ := ok_of_bind ret
    have kept := setBlk_classes set
    cases ret
    exact kept
  | none =>
    obtain ⟨b, _, ret⟩ := ok_of_bind ret
    exact sysFree_classes ret

theorem freeWith_classes {find : Pool → Nat → Option Nat} {ptr : Option Addr}
    (ret : s.freeWith find ptr = .ok s') : s'.slabClsCnt = s.slabClsCnt := by
  cases ptr with
  | none =>
    cases ret
    rfl
  | some ptr =>
    obtain ⟨s₁, check, ret⟩ := ok_of_bind ret
    obtain ⟨b, _, ret⟩ := ok_of_bind ret
    exact (release_classes ret).trans (checkAndUnlink_classes check)

theorem step_classes (step : Step upgrade w op w') :
    w'.state.pool.slabClsCnt = w.state.pool.slabClsCnt := by
  cases step with
  | alloc _ _ ret =>
    obtain ⟨⟨s, r⟩, ok, eq⟩ := ok_of_bind ret
    cases eq
    exact allocAt_classes ok
  | allocNull _ _ ret =>
    obtain ⟨⟨s, r⟩, ok, eq⟩ := ok_of_bind ret
    cases eq
    exact allocAt_classes ok
  | free _ ret =>
    obtain ⟨s, ok, eq⟩ := ok_of_bind ret
    cases eq
    exact freeWith_classes ok
  | freeNull ret =>
    obtain ⟨s, ok, eq⟩ := ok_of_bind ret
    cases eq
    exact freeWith_classes ok
  | setProtection => rfl
  | setDebug => rfl
  | write _ _ ret =>
    obtain ⟨s, ok, eq⟩ := ok_of_bind ret
    cases eq
    simp only [Pool.userWrite] at ok
    split at ok <;> cases ok
    rfl

/-! ## And grows with each restart -/

theorem destroyList_classes {fuel : Nat} {cur : Option Addr} {freed freed' : List Addr}
    (ret : s.destroyList fuel cur freed = .ok (s', freed')) : s'.slabClsCnt = s.slabClsCnt := by
  induction fuel generalizing s cur freed with
  | zero => cases ret
  | succ fuel ih =>
    cases cur with
    | none =>
      cases ret
      rfl
    | some a =>
      obtain ⟨b, _, ret⟩ := ok_of_bind ret
      obtain ⟨s₁, gave, ret⟩ := ok_of_bind ret
      exact (ih ret).trans (sysFree_classes gave)

theorem destroySlabs_classes {is : List Nat} {freed freed' : List Addr}
    (ret : s.destroySlabs is freed = .ok (s', freed')) : s'.slabClsCnt = s.slabClsCnt := by
  induction is generalizing s freed with
  | nil =>
    cases ret
    rfl
  | cons i is ih =>
    obtain ⟨⟨s₁, freed₁⟩, list, ret⟩ := ok_of_bind ret
    exact (ih ret).trans (destroyList_classes list)

theorem restart_classes (ret : u.restart = .ok u') :
    u'.pool.slabClsCnt = u.pool.slabClsCnt + 11 := by
  obtain ⟨⟨u₁, freed⟩, destroy, ret⟩ := ok_of_bind ret
  simp only [Upgrade.memPoolDestroy] at destroy
  split at destroy
  · obtain ⟨⟨s₁, _⟩, slabs, destroy⟩ := ok_of_bind destroy
    obtain ⟨⟨s₂, _⟩, list, destroy⟩ := ok_of_bind destroy
    cases destroy
    cases ret
    rw [init_classes]
    exact congrArg (· + 11) ((destroyList_classes list).trans (destroySlabs_classes slabs))
  · cases destroy

theorem run_classes {garbage : Addr → MemBlk} {calls : List (Option Op)}
    (run : Run (Cycle (Step upgrade) World.restart)
      (World.start (.memPoolInit (.static garbage))) calls w) :
    11 ≤ w.state.pool.slabClsCnt := by
  apply run.invariant (I := fun w => 11 ≤ w.state.pool.slabClsCnt)
  · exact Nat.le_refl 11
  · intro w l w' le step
    cases l with
    | some op =>
      rw [step_classes step]
      exact le
    | none =>
      obtain ⟨u, ret, rfl⟩ := Option.map_eq_some_iff.mp step
      have ok : w.state.restart = .ok u := by
        cases again : w.state.restart with
        | error e => simp [again, Except.toOption] at ret
        | ok v => simpa [again, Except.toOption] using ret
      have classes := restart_classes ok
      simp only [World.start, classes]
      omega

/-- In no state of any run do destroying and initialising the pool renew it: each time
it counts its classes once more. -/
theorem Upgrade.never_renews {garbage : Addr → MemBlk} {calls : List (Option Op)}
    (run : Run (Cycle (Step upgrade) World.restart)
      (World.start (.memPoolInit (.static garbage))) calls w) : ¬ w.state.Renews := by
  rintro ⟨garbage', ret⟩
  have more := restart_classes ret
  have first : (memPoolInit (.static garbage')).pool.slabClsCnt = 11 := rfl
  have le := run_classes run
  omega

end

end LearnC.MemPool
