import LearnC.SlabPool.CxxLayout

/-! When the C++ pool keeps its guards inside its buffers. -/

namespace LearnC.SlabPool.Cxx

/-- The block in use at `ptr` has `n` bytes between its guards, and these and both
guards lie in its buffer. -/
def Bytes (s : MemoryPool) (ptr : Addr) (n : Nat) : Prop :=
  ∃ b v, s.activeBlocks.lookup ptr = some b ∧ s.blocks.lookup b = some v ∧ v.userPtr = ptr ∧
    v.realPtr + guardSize = ptr ∧ v.size = n ∧
    s.mem.Inside v.realPtr 0 (guardSize + n + guardSize)

/-- A request that finds a freed block of its slab finds one whose buffer was made
for no smaller a request. -/
def Serves (s : MemoryPool) (size : Nat) : Prop :=
  ∀ b v, s.serving size = some b → s.blocks.lookup b = some v →
    s.mem.Inside v.realPtr 0 (size + guardSize * 2)

def Inv (s : MemoryPool) : Prop := ∃ place, Layout s place

section
variable {s s' : MemoryPool} {place : Addr → Place} {ptr : Addr} {n size : Nat} {env : Env}

theorem bytes_iff (L : Layout s place) : Bytes s ptr n ↔ InUse s.span place ptr n := by
  constructor
  · rintro ⟨b, v, hb, hv, user, _, size, _⟩
    exact ⟨b, v.toSpan, ((L.active ptr b).mp hb).1, span_some hv, user, size⟩
  · rintro ⟨b, u, hb, hu, rfl, rfl⟩
    obtain ⟨v, hv, rfl⟩ := Option.map_eq_some_iff.mp hu
    have made := L.placed.made b _ hu
    obtain ⟨e, extent, fit⟩ := made.room
    have active : s.activeBlocks.lookup v.userPtr = some b :=
      (L.active _ b).mpr ⟨hb, by simp [hu]⟩
    refine ⟨b, v, active, hv, rfl, made.user.symm, rfl, e, extent, ?_⟩
    omega

theorem serves_iff {b : Addr} {v : Block} (front : s.serving size = some b)
    (hv : s.blocks.lookup b = some v) :
    Serves s size ↔ s.mem.Inside v.realPtr 0 (size + guardSize * 2) := by
  constructor
  · intro serves
    exact serves b v front hv
  · intro inside c w hc hw
    cases front.symm.trans hc
    cases hv.symm.trans hw
    exact inside

/-- A request is answered if it is served, and writes outside its buffer if not. -/
theorem alloc_spec (L : Layout s place) (fit : size + guardSize * 2 < 2 ^ 64)
    (supply : Supplies cxx s env) :
    (¬ Serves s size ∧ s.allocate size env = none) ∨
    (Serves s size ∧ ∃ s' b u, s.allocate size env = some (s', u.userPtr) ∧ place b ≠ .active ∧
      u.size = size ∧ Same s s' b ∧ s'.span b = some u ∧
      Layout s' (Function.update place b .active)) := by
  cases front : s.serving size with
  | none =>
    refine Or.inr ⟨?_, alloc_create L fit front supply⟩
    simp [Serves, front]
  | some b =>
    obtain ⟨v, hv, off, small, large⟩ := alloc_reuse L front env
    rw [serves_iff front hv]
    by_cases inside : s.mem.Inside v.realPtr 0 (size + guardSize * 2)
    · obtain ⟨s', u, ret, exact_size, same, hu, L'⟩ := large inside
      exact Or.inr ⟨inside, s', b, u, ret, off, exact_size, same, hu, L'⟩
    · exact Or.inl ⟨inside, small inside⟩

/-- A pointer is refused, or an active block's. -/
theorem free_cases (L : Layout s place) (ptr : Addr) :
    ((∀ n, ¬ InUse s.span place ptr n) ∧
      s.deallocate (some ptr) = some (s, some .invalid)) ∨
    ∃ b v, place b = .active ∧ s.blocks.lookup b = some v ∧ v.userPtr = ptr := by
  cases key : s.activeBlocks.lookup ptr with
  | none =>
    refine Or.inl ⟨?_, deallocate_rejected key⟩
    rintro n ⟨b, u, hb, hu, user, _⟩
    have found := (L.active ptr b).mpr ⟨hb, by simp [hu, user]⟩
    cases key.symm.trans found
  | some b =>
    obtain ⟨hb, user⟩ := (L.active ptr b).mp key
    obtain ⟨u, hu, rfl⟩ := Option.map_eq_some_iff.mp user
    obtain ⟨v, hv, rfl⟩ := Option.map_eq_some_iff.mp hu
    exact Or.inr ⟨b, v, hb, hv, rfl⟩

theorem ledger : Ledger cxx Inv Bytes Serves := by
  apply Ledger.of_moves
  · intro s place L
    exact L.placed
  · intro s place p n L
    exact bytes_iff L
  · intro s place size env s' ptr L fit supply ret
    rcases alloc_spec L fit supply with ⟨_, stop⟩ | ⟨serves, s₁, b, u, ok, off, rfl, same, hu, L'⟩
    · cases stop.symm.trans ret
    · cases ok.symm.trans ret
      exact ⟨b, u, rfl, off, same.span, hu, L', by simp [serves]⟩
  · intro s place ptr s' L ret
    obtain ⟨⟨_, msg⟩, call, rfl⟩ := Option.map_eq_some_iff.mp ret
    rcases free_cases L ptr with ⟨absent, ok⟩ | ⟨b, v, hb, hv, rfl⟩
    · cases ok.symm.trans call
      exact Or.inl ⟨rfl, absent⟩
    · obtain ⟨s₁, intact, ok, _, same, L'⟩ := deallocate_accepted L hb hv
      cases ok.symm.trans call
      exact Or.inr ⟨b, v.toSpan, _, rfl, home_ne_active v.size, same.span, span_some hv, L'⟩
  · intro s
    rfl
  · intro s place mem L extent
    exact ⟨L.store extent, rfl⟩

theorem init_inv : Inv MemoryPool.init := ⟨_, init_layout⟩

theorem alloc_returns (inv : Inv s) (fit : size + guardSize * 2 < 2 ^ 64)
    (supply : Supplies cxx s env) (serves : Serves s size) :
    ∃ s' ptr, s.allocate size env = some (s', ptr) := by
  obtain ⟨place, L⟩ := inv
  rcases alloc_spec L fit supply with ⟨unserved, _⟩ | ⟨_, s', b, u, ret, _⟩
  · exact absurd serves unserved
  · exact ⟨s', u.userPtr, ret⟩

/-- A request that is answered was served. -/
theorem step_served {w w' : World MemoryPool} {op : Op} (inv : Inv w.state)
    (step : Step cxx w op w') : Served Serves w op := by
  cases step with
  | alloc fit supply ret =>
    obtain ⟨place, L⟩ := inv
    rcases alloc_spec L fit supply with ⟨_, stop⟩ | ⟨serves, _⟩
    · cases stop.symm.trans ret
    · exact serves
  | free | freeNull | write => trivial

theorem run_roomy {ops : List Op} {w : World MemoryPool}
    (run : Run (Step cxx) (World.start MemoryPool.init) ops w) : Inv w.state ∧ Roomy Bytes w := by
  apply run.invariant (I := fun w => Inv w.state ∧ Roomy Bytes w)
  · refine ⟨init_inv, ?_⟩
    intro ptr n hp
    cases hp
  · rintro w op w' ⟨inv, roomy⟩ step
    obtain ⟨inv', iff⟩ := ledger.step inv step
    exact ⟨inv', (iff roomy).mp (step_served inv step)⟩

/-- In any run, both guards of a request and the bytes asked for fall inside the
buffer exactly if the request is served; and every owner so far has its room. -/
theorem allocate_inside_iff_served (ops : List Op) (w : World MemoryPool)
    (run : Run (Step cxx) (World.start MemoryPool.init) ops w) :
    (∀ size env, size + guardSize * 2 < 2 ^ 64 → Supplies cxx w.state env →
      ((∃ s ptr, w.state.allocate size env = some (s, ptr) ∧ Room Bytes s ptr size) ↔
        Serves w.state size)) ∧
    Roomy Bytes w := by
  obtain ⟨inv, roomy⟩ := run_roomy run
  refine ⟨?_, roomy⟩
  intro size env fit supply
  constructor
  · rintro ⟨s, ptr, ret, room⟩
    exact (ledger.room_iff inv fit supply ret).mp room
  · intro serves
    obtain ⟨s, ptr, ret⟩ := alloc_returns inv fit supply serves
    exact ⟨s, ptr, ret, (ledger.room_iff inv fit supply ret).mpr serves⟩

end

/-- A block made for 40 bytes is freed. -/
def freed : List Op := [.alloc 40 (fresh 1 1000), .free (some 1016)]

/-- A request for 33 bytes is served by the freed block. -/
theorem smaller_request_inside : ∃ s ptr,
    (World.after cxx MemoryPool.init freed).state.allocate 33 (fresh 2 2000) = some (s, ptr) ∧
    Room Bytes s ptr 33 := by
  apply ((allocate_inside_iff_served freed (World.after cxx MemoryPool.init freed)
    (after_run (by decide))).1 33 (fresh 2 2000) (by decide) (by decide)).mpr
  intro b v hb hv
  have front : (World.after cxx MemoryPool.init freed).state.serving 33 = some 1 := by
    decide
  cases front.symm.trans hb
  have real : ((World.after cxx MemoryPool.init freed).state.blocks.lookup 1).map (·.realPtr) =
      some 1000 := by decide
  rw [hv, Option.map_some, Option.some.injEq] at real
  rw [real]
  decide

/-- For 64 bytes the tail guard of the same block falls behind its 72 bytes. -/
theorem recycled_guard_outside : ∃ w,
    Run (Step cxx) (World.start MemoryPool.init) freed w ∧ Supplies cxx w.state (fresh 2 2000) ∧
    w.state.serving 64 = some 1 ∧ (w.state.blocks.lookup 1).map (·.realPtr) = some 1000 ∧
    w.state.mem.extent 1000 = some 72 ∧ w.state.allocate 64 (fresh 2 2000) = none := by
  have run : Run (Step cxx) (World.start MemoryPool.init) freed
      (World.after cxx MemoryPool.init freed) := after_run (by decide)
  have supply : Supplies cxx (World.after cxx MemoryPool.init freed).state (fresh 2 2000) := by
    decide
  have buffer : (World.after cxx MemoryPool.init freed).state.mem.extent 1000 = some 72 := by
    decide
  have real : ((World.after cxx MemoryPool.init freed).state.blocks.lookup 1).map (·.realPtr) =
      some 1000 := by decide
  have front : (World.after cxx MemoryPool.init freed).state.serving 64 = some 1 := by
    decide
  have stop : ((World.after cxx MemoryPool.init freed).state.allocate 64 (fresh 2 2000)).isNone =
      true := by decide
  exact ⟨_, run, supply, front, real, buffer, Option.isNone_iff_eq_none.mp stop⟩

end LearnC.SlabPool.Cxx
