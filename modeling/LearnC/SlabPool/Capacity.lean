import LearnC.SlabPool.BaseLayout

/-! How many bytes the pointers of `1.base` are good for. -/

namespace LearnC.SlabPool.Base

/-- The block in use at `ptr` has `n` bytes between its guards, and these and both
guards lie in its buffer. -/
def Bytes (s : Pool) (ptr : Addr) (n : Nat) : Prop :=
  ∃ b ∈ s.activeBlocks, ∃ v, s.desc.lookup b = some v ∧ v.userPtr = ptr ∧
    v.realPtr + guardSize = ptr ∧ v.size = n ∧
    s.mem.Inside v.realPtr 0 (guardSize + n + guardSize)

/-- A request that finds a freed block of its slab finds one that was made for no
smaller a request. -/
def Serves (s : Pool) (size : Nat) : Prop :=
  ∀ b v, s.serving size = some b → s.desc.lookup b = some v → size ≤ v.size

def Inv (s : Pool) : Prop := ∃ place, Layout s place

section
variable {s s' : Pool} {place : Addr → Place} {ptr : Addr} {n size : Nat} {env : Env}

theorem bytes_iff (L : Layout s place) : Bytes s ptr n ↔ InUse s.span place ptr n := by
  constructor
  · rintro ⟨b, hb, v, hv, user, _, size, _⟩
    exact ⟨b, v.toSpan, (L.active b).mp hb, span_some hv, user, size⟩
  · rintro ⟨b, u, hb, hu, rfl, rfl⟩
    obtain ⟨v, hv, rfl⟩ := Option.map_eq_some_iff.mp hu
    have made := L.placed.made b _ hu
    obtain ⟨e, extent, fit⟩ := made.room
    exact ⟨b, (L.active b).mpr hb, v, hv, rfl, made.user.symm, rfl, e, extent, by omega⟩

/-- Every request is answered, with a block that was not in use. -/
theorem alloc_spec (L : Layout s place) (fit : size + guardSize * 2 < 2 ^ 64)
    (supply : Supplies base s env) :
    ∃ s' b v, s.memPoolAlloc size env = some (s', v.userPtr) ∧ place b ≠ .active ∧
      Same s s' b ∧ s'.span b = some v ∧ Layout s' (Function.update place b .active) ∧
      (size ≤ v.size ↔ Serves s size) := by
  cases idle : s.serving size with
  | none =>
    obtain ⟨s', b, v, hb, ret, exact_size, same, hv, L'⟩ := alloc_create L fit idle supply
    refine ⟨s', b, v, ret, by simp [hb], same, hv, L', ?_⟩
    simp [Serves, idle, exact_size]
  | some b =>
    obtain ⟨i, cls, head⟩ := Option.bind_eq_some_iff.mp idle
    obtain ⟨s', v, hb, hv, ret, same, hv', L'⟩ := alloc_reuse L cls head env
    refine ⟨s', b, v.toSpan, ret, by simp [hb], same, hv', L', ?_⟩
    constructor
    · intro le c u hc hu
      cases idle.symm.trans hc
      cases hv.symm.trans hu
      exact le
    · intro serves
      exact serves b v idle hv

theorem alloc_returns (inv : Inv s) (fit : size + guardSize * 2 < 2 ^ 64)
    (supply : Supplies base s env) : ∃ s' ptr, s.memPoolAlloc size env = some (s', ptr) := by
  obtain ⟨place, L⟩ := inv
  obtain ⟨s', b, v, ret, _⟩ := alloc_spec L fit supply
  exact ⟨s', v.userPtr, ret⟩

/-- A pointer is refused, or an active block's. -/
theorem free_cases (L : Layout s place) (ptr : Addr) :
    ((∀ n, ¬ InUse s.span place ptr n) ∧
      s.memPoolFree (some ptr) = some (s, some .invalid)) ∨
    ∃ b v, place b = .active ∧ s.desc.lookup b = some v ∧ v.userPtr = ptr := by
  by_cases out : ∃ n, InUse s.span place ptr n
  · obtain ⟨n, b, u, hb, hu, user, _⟩ := out
    obtain ⟨v, hv, rfl⟩ := Option.map_eq_some_iff.mp hu
    exact Or.inr ⟨b, v, hb, hv, user⟩
  · have absent := not_exists.mp out
    exact Or.inl ⟨absent, free_rejected L absent⟩

theorem ledger : Ledger base Inv Bytes Serves := by
  apply Ledger.of_moves
  · intro s place L
    exact L.placed
  · intro s place p n L
    exact bytes_iff L
  · intro s place size env s' ptr L fit supply ret
    obtain ⟨s₁, b, v, ok, off, same, hv, L', serves⟩ := alloc_spec L fit supply
    cases ok.symm.trans ret
    exact ⟨b, v, rfl, off, same.span, hv, L', serves⟩
  · intro s place ptr s' L ret
    obtain ⟨⟨_, msg⟩, call, rfl⟩ := Option.map_eq_some_iff.mp ret
    rcases free_cases L ptr with ⟨absent, ok⟩ | ⟨b, v, hb, hv, rfl⟩
    · cases ok.symm.trans call
      exact Or.inl ⟨rfl, absent⟩
    · obtain ⟨s₁, intact, ok, _, same, L'⟩ := free_accepted L hb hv
      cases ok.symm.trans call
      exact Or.inr ⟨b, v.toSpan, _, rfl, home_ne_active v.size, same.span, span_some hv, L'⟩
  · intro s
    rfl
  · intro s place mem L extent
    exact ⟨L.store extent, rfl⟩

theorem init_inv : Inv Pool.init := ⟨_, init_layout⟩

/-- In any run, a request is answered with the room it asks for exactly if it is
served; and the runs that leave every owner with its room are those that are served
throughout. -/
theorem alloc_room_iff_served (ops : List Op) (w : World Pool)
    (run : Run (Step base) (World.start Pool.init) ops w) :
    (∀ size env, size + guardSize * 2 < 2 ^ 64 → Supplies base w.state env →
      ∃ s ptr, w.state.memPoolAlloc size env = some (s, ptr) ∧
        (Room Bytes s ptr size ↔ Serves w.state size)) ∧
    (Run (Into (Roomy Bytes) (Step base)) (World.start Pool.init) ops w ↔
      Run (When (Served Serves) (Step base)) (World.start Pool.init) ops w) := by
  constructor
  · intro size env fit supply
    have inv := ledger.run_inv init_inv run
    obtain ⟨s, ptr, ret⟩ := alloc_returns inv fit supply
    exact ⟨s, ptr, ret, ledger.room_iff inv fit supply ret⟩
  · exact ledger.roomy_runs_iff init_inv

end

/-- A block made for 40 bytes is freed. -/
def freed : List Op := [.alloc 40 (fresh 1 1000), .free (some 1016)]

/-- A request for 33 bytes is served by the freed block. -/
theorem smaller_request_served : ∃ s ptr,
    (World.after base Pool.init freed).state.memPoolAlloc 33 (fresh 2 2000) = some (s, ptr) ∧
    Room Bytes s ptr 33 := by
  obtain ⟨s, ptr, ret, iff⟩ := (alloc_room_iff_served freed (World.after base Pool.init freed)
    (after_run (by decide))).1 33 (fresh 2 2000) (by decide) (by decide)
  refine ⟨s, ptr, ret, iff.mpr ?_⟩
  intro b v hb hv
  have head : (World.after base Pool.init freed).state.serving 33 = some 1 := by decide
  cases head.symm.trans hb
  have size : ((World.after base Pool.init freed).state.desc.lookup 1).map (·.size) = some 40 := by
    decide
  rw [hv, Option.map_some, Option.some.injEq] at size
  omega

def recycled : List Op := freed ++ [.alloc 64 (fresh 2 2000)]

/-- The same block is handed out for 64 bytes. -/
theorem recycled_block_too_small : ∃ w, Run (Step base) (World.start Pool.init) recycled w ∧
    w.owner 1016 = some 64 ∧ ¬ Room Bytes w.state 1016 64 := by
  have run : Run (Step base) (World.start Pool.init) recycled
      (World.after base Pool.init recycled) := after_run (by decide)
  have asked : (World.after base Pool.init recycled).owner 1016 = some 64 := by decide
  have small : (World.after base Pool.init recycled).state.mem.extent 1000 = some 72 := by
    decide
  refine ⟨World.after base Pool.init recycled, run, asked, ?_⟩
  rintro ⟨n, ⟨b, _, v, _, _, real, _, e, extent, fit⟩, le⟩
  have start : v.realPtr = 1000 := Nat.add_right_cancel real
  rw [start, small] at extent
  cases extent
  simp only [guardSize] at fit
  omega

end LearnC.SlabPool.Base
