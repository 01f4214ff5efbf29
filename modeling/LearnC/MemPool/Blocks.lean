import LearnC.MemPool.Guards

/-! What the pool can rely on in a block: the room its class needs, whatever the
mode and the history, and the mark of a free, as long as the block is in memory. -/

namespace LearnC.MemPool

section
variable {s s' : Pool} {owner : Addr → Option Request} {loc : Addr → Loc Unit} {a p : Addr}
  {q : Request} {i : Nat} {garbage : Addr → MemBlk} {ops : List Op} {w w' : World Pool}

theorem Layout.recycled (L : Layout s loc) (ha : loc a = .slab i) :
    (s.hdr a).size = (s.slabs i).blockSize ∧
    s.mem.Inside a 0 (sizeofMemBlk + (s.slabs i).blockSize) := by
  obtain ⟨made, _, cls⟩ := L.idle a i ha
  have size : (s.slabs i).blockSize = (s.hdr a).size := by
    rw [blockSize_eq L.sizes cls, made.rounded]
  rw [size]
  exact ⟨rfl, made.room⟩

theorem Agrees.room (A : Agrees s owner loc) (out : owner p = some q) :
    ∃ a, p = a + sizeofMemBlk ∧ s.mem.Inside a 0 (sizeofMemBlk + q.size) := by
  obtain ⟨a, rfl, ha, kept⟩ := A.active out
  exact ⟨a, rfl, (A.layout.inUse a ha).1.asked kept⟩

/-- Every reachable pool: a recycled block has the size of its class and the room
for it, a returned pointer has the bytes asked for, and no call of an allocation or
of a valid free reads or writes outside a block. -/
theorem blocks_have_room (garbage : Addr → MemBlk) (ops : List Op) (w : World Pool)
    (run : Run (Step server) (World.start (Pool.memPoolInit garbage)) ops w) :
    (∀ i, ∃ xs, Chain w.state.next (w.state.slabs i).freeList xs ∧ ∀ a ∈ xs,
      (w.state.hdr a).size = (w.state.slabs i).blockSize ∧
      w.state.mem.Inside a 0 (sizeofMemBlk + (w.state.slabs i).blockSize)) ∧
    (∀ p q, w.owner p = some q →
      ∃ a, p = a + sizeofMemBlk ∧ w.state.mem.Inside a 0 (sizeofMemBlk + q.size)) ∧
    (∀ size label env, sizeofMemBlk + size + sizeofGuard < 2 ^ 64 →
      (∀ a, env.raw = some a → a ∉ w.state.mem) →
      ∃ s r, w.state.memPoolAllocLabel size label env = .ok (s, r) ∧ ∀ p, r = some p →
        ∃ a, p = a + sizeofMemBlk ∧ s.mem.Inside a 0 (sizeofMemBlk + size)) ∧
    ∀ p q, w.owner p = some q → w.state.memPoolFree (some p) ≠ .error .outside ∧
      w.state.memPoolFree (some p) ≠ .error .diverges := by
  obtain ⟨loc, A⟩ := run_agrees run
  refine ⟨?_, fun p q out => A.room out, ?_, ?_⟩
  · intro i
    obtain ⟨xs, chain, mem⟩ := A.layout.slab i
    exact ⟨xs, chain, fun a ha => A.layout.recycled ((mem a).mp ha)⟩
  · intro size label env fits new
    have fit : size < 2 ^ 64 := by omega
    have fits' : w.state.Fits size := by
      unfold Pool.Fits
      split <;> omega
    rcases A.alloc fit new label with null | ⟨wraps, _⟩ | ⟨a, s', ret, _, room, _⟩
    · exact ⟨_, none, null, nofun⟩
    · exact absurd fits' wraps
    · refine ⟨s', _, ret, fun p hp => ⟨a, (Option.some.inj hp).symm, room⟩⟩
  · intro p q out
    obtain ⟨a, rfl, ha, _⟩ := A.active out
    by_cases guards : w.state.protectMode = true → Guarded w.state a
    · obtain ⟨s', ret, _⟩ := A.free ha guards
      simp [ret]
    · obtain ⟨on, broken⟩ := Classical.not_imp.mp guards
      rcases A.abort ha on broken with ret | ret <;> simp [ret]

theorem recycled_block_has_room : ∃ s r,
    (World.after [.setProtection 0, .alloc 8 none (fresh 4096), .free 4312,
      .setProtection 1]).state.memPoolAllocLabel 5 none (fresh 8192) = .ok (s, r) ∧
    ∀ p, r = some p → ∃ a, p = a + sizeofMemBlk ∧ s.mem.Inside a 0 (sizeofMemBlk + 5) :=
  (blocks_have_room (fun _ => blank)
    [.setProtection 0, .alloc 8 none (fresh 4096), .free 4312, .setProtection 1] _
    (after_run (by decide))).2.2.1 5 none (fresh 8192) (by decide) (by decide)

/-! ## Freed blocks -/

/-- The steps that hand out no block. -/
def Idle : World Pool → Op → World Pool → Prop :=
  When (fun _ op => op.allocates = false) (Step server)

theorem idle_run (a : Addr) (A : ∃ loc, Agrees w.state w.owner loc)
    (free : w.owner (a + sizeofMemBlk) = none) (run : Run Idle w ops w') :
    (∃ loc, Agrees w'.state w'.owner loc) ∧ w'.owner (a + sizeofMemBlk) = none ∧
      w'.state.view a = w.state.view a := by
  refine run.invariant (I := fun v => (∃ loc, Agrees v.state v.owner loc) ∧
    v.owner (a + sizeofMemBlk) = none ∧ v.state.view a = w.state.view a) ⟨A, free, rfl⟩ ?_
  intro v op v' ⟨⟨_, A⟩, free, same⟩ ⟨quiet, step⟩
  have follows := step_follows A step
  obtain ⟨view, free'⟩ := follows.idle quiet a free
  exact ⟨follows.agrees, free', view.trans same⟩

/-- A block that a free sent to a slab still has its mark; one that it gave back to
the system is no longer there to be read. -/
theorem free_again {size : Nat} (L : Layout s (Function.update loc a (home size)))
    (same : s'.view a = s.view a) :
    s'.memPoolFree (some (a + sizeofMemBlk)) = .error
      (if (classOf classSizes size).isSome then .doubleFree (a + sizeofMemBlk) else .outside) := by
  obtain ⟨_, freed, _, _, mem⟩ := view_fields same
  cases cls : classOf classSizes size with
  | some j =>
    obtain ⟨made, marked, _⟩ := L.idle a j (by simp [home, cls])
    have check := checkAndUnlink_freed ((inside_of_lookup mem).mpr made.header)
      (freed.trans marked) (a + sizeofMemBlk)
    simp [Pool.memPoolFree, Pool.freeWith, check, bind, Except.bind]
  | none =>
    have gone : a ∉ s'.mem := by
      have live := L.live a
      rw [Finmap.mem_iff] at live ⊢
      rw [mem, live]
      simp [home, cls]
    have outside : ¬ s'.mem.Inside a 0 sizeofMemBlk := fun inside => gone inside.mem
    simp [Pool.memPoolFree, Pool.freeWith, Pool.checkAndUnlink, Pool.blk, outside, bind,
      Except.bind]

theorem classOf_isSome {size : Nat} : (classOf classSizes size).isSome ↔ size ≤ slabMaxSize := by
  rw [← Option.ne_none_iff_isSome, ne_eq, classOf_eq_none, slabMaxSize]
  constructor
  · intro h
    by_contra big
    have all : ∀ limit ∈ classSizes, limit ≤ 8192 := by decide
    exact h fun limit hl => Nat.lt_of_le_of_lt (all limit hl) (Nat.lt_of_not_le big)
  · intro le h
    have := h 8192 (by decide)
    omega

/-- A second free of a pointer, with nothing handed out since the first, is caught
exactly for the requests that a slab serves. -/
theorem double_free_caught_iff (garbage : Addr → MemBlk) (ops : List Op) (w : World Pool)
    (run : Run (Step server) (World.start (Pool.memPoolInit garbage)) ops w) (p : Addr)
    (q : Request) (out : w.owner p = some q) (s : Pool)
    (ret : w.state.memPoolFree (some p) = .ok s) (ops' : List Op) (w' : World Pool)
    (idle : Run Idle ⟨s, Function.update w.owner p none⟩ ops' w') :
    w'.state.memPoolFree (some p) = .error (.doubleFree p) ↔ q.size ≤ slabMaxSize := by
  obtain ⟨_, A⟩ := run_agrees run
  obtain ⟨a, rfl, ha, kept⟩ := A.active out
  obtain ⟨_, A'⟩ := A.freed ha ret
  obtain ⟨_, _, same⟩ := idle_run a ⟨_, A'⟩ (by simp) idle
  rw [free_again A'.layout same, kept.size, classOf_roundUp classSizes_sorted, ← classOf_isSome]
  cases (classOf classSizes q.size).isSome <;> simp

theorem slab_block_caught : ∃ s,
    (World.after [.alloc 8192 none (fresh 4096)]).state.memPoolFree (some 4312) = .ok s ∧
    s.memPoolFree (some 4312) = .error (.doubleFree 4312) := by
  obtain ⟨s, ret⟩ := returns (r :=
    (World.after [.alloc 8192 none (fresh 4096)]).state.memPoolFree (some 4312)) (by decide)
  exact ⟨s, ret, (double_free_caught_iff (fun _ => blank) [.alloc 8192 none (fresh 4096)] _
    (after_run (by decide)) 4312 ⟨8192, true, fun _ => none⟩ rfl s ret [] _ .nil).mpr
    (by decide)⟩

/-- The second free of a block of 8193 bytes reads a header that `free` took back. -/
theorem system_block_read_after_free : ∃ w s,
    Run (Step server) (World.start (Pool.memPoolInit fun _ => blank))
      [.alloc 8193 none (fresh 4096)] w ∧
    (w.owner 4312).isSome ∧ w.state.memPoolFree (some 4312) = .ok s ∧
    s.memPoolFree (some 4312) = .error .outside := by
  obtain ⟨s, ret⟩ := returns (r :=
    (World.after [.alloc 8193 none (fresh 4096)]).state.memPoolFree (some 4312)) (by decide)
  have twice : ((World.after [.alloc 8193 none (fresh 4096)]).state.memPoolFree (some 4312) >>=
      fun s => s.memPoolFree (some 4312)) = .error .outside := stops_with (by decide)
  rw [ret] at twice
  exact ⟨_, s, after_run (by decide), by decide, ret, twice⟩

end

end LearnC.MemPool
