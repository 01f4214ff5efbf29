import LearnC.MemPool.Calls

/-! The server of `3.m_mem_pool` and the owners of its pointers: what they agree on
in every reachable state. -/

namespace LearnC.MemPool

/-- The owners hold the pointers of the active blocks, and no thread is inside a call. -/
structure Agrees (s : Pool) (owner : Addr → Option Request) (loc : Addr → Loc Unit) : Prop where
  layout : Layout s loc
  settled : ∀ a t, loc a ≠ .held t
  outstanding : ∀ p, (∃ q, owner p = some q) ↔ ∃ a, p = a + sizeofMemBlk ∧ loc a = .active
  kept : ∀ a q, owner (a + sizeofMemBlk) = some q → Kept s a q

def Op.switches : Op → Bool
  | .setProtection _ => true
  | _ => false

def Op.allocates : Op → Bool
  | .alloc .. => true
  | _ => false

/-- What one step keeps: the agreement; the mode, unless it is switched; and every
block that has no owner, unless blocks are handed out. -/
structure Follows (w : World Pool) (op : Op) (w' : World Pool) : Prop where
  agrees : ∃ loc, Agrees w'.state w'.owner loc
  mode : op.switches = false → w'.state.protectMode = w.state.protectMode
  idle : op.allocates = false → ∀ a, w.owner (a + sizeofMemBlk) = none →
    w'.state.view a = w.state.view a ∧ w'.owner (a + sizeofMemBlk) = none

section
variable {T : Type} {s s' : Pool} {loc : Addr → Loc T} {a b : Addr} {i size : Nat}
  {label : Option (List UInt8)} {env : Env} {q : Request}

theorem findSlabIndex_eq (sizes : s.blockSizes = classSizes) (n : Nat) :
    s.findSlabIndex n = classOf classSizes n := by rw [Pool.findSlabIndex, sizes]

theorem initSlabs_freeList (left i size : Nat) (out : (Nat → SlabClass) × Nat) (j : Nat) :
    ((Pool.initSlabs left i size out).1 j).freeList = (out.1 j).freeList := by
  induction left generalizing i size out with
  | zero => rfl
  | succ left ih =>
    simp only [Pool.initSlabs]
    split
    · rw [ih]
      by_cases hj : j = i
      · subst hj
        simp
      · simp [hj]
    · rfl

theorem init_blockSizes (garbage : Addr → MemBlk) :
    (Pool.memPoolInit garbage).blockSizes = classSizes := by rfl

theorem init_layout (garbage : Addr → MemBlk) :
    Layout (Pool.memPoolInit garbage) fun _ => (.gone : Loc T) := by
  refine ⟨init_blockSizes garbage, holds_none (by simp), ?_, ?_, by simp, by simp, by simp⟩
  · intro i
    have empty : ((Pool.memPoolInit garbage).slabs i).freeList = none :=
      initSlabs_freeList maxSlabClasses 0 slabMinSize (fun _ => ⟨0, none⟩, 0) i
    rw [empty]
    exact holds_none (by simp)
  · intro a
    simp [Pool.memPoolInit, Finmap.notMem_empty]

/-- A store into a live buffer moves nothing. -/
theorem Layout.stored (L : Layout s loc) {mem : Memory} {off : Nat} {bs : List UInt8}
    (store : s.mem.store a off bs = some mem) : Layout { s with mem := mem } loc := by
  have inside {b : Addr} {off len : Nat} : mem.Inside b off len ↔ s.mem.Inside b off len := by
    rw [Memory.Inside, Memory.store_extent store, Memory.Inside]
  have made {b : Addr} (m : Made s b) : Made { s with mem := mem } b :=
    ⟨m.self, m.rounded, inside.mpr m.room⟩
  refine ⟨L.sizes, L.active, L.slab, ?_, fun b hb => inside.mpr (L.header b hb), ?_, ?_⟩
  · intro b
    rw [← L.live b]
    exact Memory.store_mem store b
  · exact fun b hb => ⟨made (L.inUse b hb).1, (L.inUse b hb).2⟩
  · exact fun b i hb => ⟨made (L.idle b i hb).1, (L.idle b i hb).2⟩

/-- The switches do not matter to the layout. -/
theorem Layout.switched (L : Layout s loc) (debug protect : Bool) :
    Layout { s with debugMode := debug, protectMode := protect } loc :=
  ⟨L.sizes, L.active, L.slab, L.live, L.header,
    fun a ha => ⟨⟨(L.inUse a ha).1.self, (L.inUse a ha).1.rounded, (L.inUse a ha).1.room⟩,
      (L.inUse a ha).2⟩,
    fun a i ha => ⟨⟨(L.idle a i ha).1.self, (L.idle a i ha).1.rounded, (L.idle a i ha).1.room⟩,
      (L.idle a i ha).2⟩⟩

/-- An owner's store shows in its own tail guard and nowhere else. -/
theorem Kept.written (k : Kept s a q) {mem : Memory} {off : Nat} {byte : UInt8}
    (store : s.mem.store a (sizeofMemBlk + off) [byte] = some mem) :
    Kept { s with mem := mem } a
      { q with written := Function.update q.written off (some byte) } := by
  refine ⟨k.size, k.head, ?_⟩
  intro on j hj
  have old := k.tail on j hj
  have size := k.size
  have eight := eight_le_roundUp q.size
  have place : Pool.tailOffset (s.hdr a).size + j =
      sizeofMemBlk + (roundUp classSizes q.size - sizeofGuard + j) := by
    simp only [Pool.tailOffset, size, sizeofMemBlk, sizeofGuard]
    omega
  simp only [place, Request.tailByte] at old ⊢
  by_cases h : roundUp classSizes q.size - sizeofGuard + j = off
  · rw [h]
    simpa using Memory.store_byte store (k := 0) (by simp)
  · rw [Memory.store_byte_outside store (by simp; omega), old]
    simp [h]

end

section
variable {s s' : Pool} {owner : Addr → Option Request} {loc : Addr → Loc Unit} {a : Addr}
  {garbage : Addr → MemBlk} {w w' : World Pool} {op : Op} {ops : List Op} {size : Nat} {env : Env}

/-- What a call does to one block, its owner does to the pointer. -/
theorem Agrees.move (A : Agrees s owner loc) (f : Frame s s' a) {v : Loc Unit}
    (L : Layout s' (Function.update loc a v)) (settled : ∀ t, v ≠ .held t)
    {o : Option Request} (active : (∃ q, o = some q) ↔ v = .active)
    (kept : ∀ q, o = some q → Kept s' a q) :
    Agrees s' (Function.update owner (a + sizeofMemBlk) o) (Function.update loc a v) := by
  refine ⟨L, ?_, ?_, ?_⟩
  · intro b t
    by_cases hb : b = a
    · subst hb
      simpa using settled t
    · simpa [hb] using A.settled b t
  · intro p
    by_cases hp : p = a + sizeofMemBlk
    · subst hp
      simp [active, update_place]
    · rw [Function.update_of_ne hp, A.outstanding]
      apply exists_congr
      intro b
      apply and_congr_right
      intro e
      have hb : b ≠ a := by
        rintro rfl
        exact hp e
      rw [Function.update_of_ne hb]
  · intro b q hb
    by_cases h : b = a
    · subst h
      exact kept q (by simpa using hb)
    · exact (A.kept b q (by simpa [h] using hb)).of_view (f.view b h)

theorem start_agrees : Agrees (Pool.memPoolInit garbage) (fun _ => none) fun _ => .gone :=
  ⟨init_layout garbage, by simp, by simp, by simp⟩

theorem Agrees.active (A : Agrees s owner loc) {p : Addr} {q : Request} (out : owner p = some q) :
    ∃ a, p = a + sizeofMemBlk ∧ loc a = .active ∧ Kept s a q := by
  obtain ⟨a, rfl, ha⟩ := (A.outstanding p).mp ⟨q, out⟩
  exact ⟨a, rfl, ha, A.kept a q out⟩

/-- What `mem_pool_alloc_label` does in a state that agrees with the owners. -/
theorem Agrees.alloc (A : Agrees s owner loc) (fit : size < 2 ^ 64)
    (new : ∀ a, env.raw = some a → a ∉ s.mem) (label : Option (List UInt8)) :
    (s.memPoolAllocLabel size label env = .ok (s, none)) ∨
    (¬ s.Fits size ∧ s.memPoolAllocLabel size label env = .error .outside) ∨
    ∃ a s', s.memPoolAllocLabel size label env = .ok (s', some (a + sizeofMemBlk)) ∧
      Frame s s' a ∧ s'.mem.Inside a 0 (sizeofMemBlk + size) ∧
      owner (a + sizeofMemBlk) = none ∧
      Agrees s' (Function.update owner (a + sizeofMemBlk)
        (some ⟨size, s.protectMode, fun _ => none⟩)) (Function.update loc a .active) := by
  have idx := findSlabIndex_eq A.layout.sizes size
  rw [Pool.memPoolAllocLabel, idx]
  by_cases fits : s.Fits size
  · rcases allocAt_spec A.layout new fits label () with
      null | ⟨a, s', ret, off, frame, L, room, kept⟩
    · exact Or.inl null
    · refine Or.inr (Or.inr ⟨a, s', ret, frame, room, ?_, A.move frame L (by simp) (by simp) ?_⟩)
      · by_contra held
        obtain ⟨q, hq⟩ := Option.ne_none_iff_exists'.mp held
        obtain ⟨b, e, hb⟩ := (A.outstanding _).mp ⟨q, hq⟩
        rw [← Nat.add_right_cancel e] at hb
        simp [hb] at off
      · rintro q ⟨⟩
        exact kept
  · rcases allocAt_wraps fit fits label with null | outside
    · exact Or.inl null
    · exact Or.inr (Or.inl ⟨fits, outside⟩)

/-- What `mem_pool_free` of an outstanding pointer does. -/
theorem Agrees.free (A : Agrees s owner loc) (ha : loc a = .active)
    (guards : s.protectMode = true → Guarded s a) :
    ∃ s', s.memPoolFree (some (a + sizeofMemBlk)) = .ok s' ∧ Frame s s' a ∧
      Agrees s' (Function.update owner (a + sizeofMemBlk) none)
        (Function.update loc a (home (s.hdr a).size)) := by
  obtain ⟨s', ret, frame, L⟩ :=
    freeWith_spec A.layout ha (fun _ sizes n => findSlabIndex_eq sizes n) guards ()
  exact ⟨s', ret, frame, A.move frame L home_away.2 (by simp [home_away.1]) (by simp)⟩

theorem Agrees.abort (A : Agrees s owner loc) (ha : loc a = .active) (on : s.protectMode = true)
    (broken : ¬ Guarded s a) :
    s.memPoolFree (some (a + sizeofMemBlk)) =
      .error (.underrun (a + sizeofMemBlk) (s.hdr a).label) ∨
    s.memPoolFree (some (a + sizeofMemBlk)) =
      .error (.overflow (a + sizeofMemBlk) (s.hdr a).label) :=
  freeWith_abort A.layout ha on broken

/-- A free that returns passed its checks. -/
theorem Agrees.freed (A : Agrees s owner loc) (ha : loc a = .active)
    (ret : s.memPoolFree (some (a + sizeofMemBlk)) = .ok s') :
    Frame s s' a ∧ Agrees s' (Function.update owner (a + sizeofMemBlk) none)
      (Function.update loc a (home (s.hdr a).size)) := by
  by_cases guards : s.protectMode = true → Guarded s a
  · obtain ⟨s₁, ok, result⟩ := A.free ha guards
    cases ok.symm.trans ret
    exact result
  · obtain ⟨on, broken⟩ := Classical.not_imp.mp guards
    rcases A.abort ha on broken with h | h <;> simp [h] at ret

/-- An owner's store inside its bytes. -/
theorem Agrees.write (A : Agrees s owner loc) {p off : Nat} {q : Request} {byte : UInt8}
    (out : owner p = some q) (ret : s.userWrite p off byte = .ok s') :
    ∃ a, p = a + sizeofMemBlk ∧ Frame s s' a ∧ Agrees s' (Function.update owner p
      (some { q with written := Function.update q.written off (some byte) })) loc := by
  obtain ⟨a, rfl, ha, kept⟩ := A.active out
  rw [Pool.userWrite, Nat.add_sub_cancel] at ret
  cases store : s.mem.store a (sizeofMemBlk + off) [byte] with
  | none => simp [store] at ret
  | some mem =>
    simp only [store, Except.ok.injEq] at ret
    subst ret
    have frame : Frame s { s with mem := mem } a :=
      ⟨fun b hb => by simp [Pool.view, Memory.store_lookup_of_ne store hb], rfl, rfl⟩
    have same : Function.update loc a .active = loc := by
      rw [← ha]
      exact Function.update_eq_self a loc
    refine ⟨a, rfl, frame, ?_⟩
    rw [← same]
    refine A.move frame ?_ (by simp) (by simp) ?_
    · rw [same]
      exact A.layout.stored store
    · rintro q' ⟨⟩
      exact kept.written store

theorem Agrees.switched (A : Agrees s owner loc) (debug protect : Bool) :
    Agrees { s with debugMode := debug, protectMode := protect } owner loc :=
  ⟨A.layout.switched debug protect, A.settled, A.outstanding,
    fun a q h => ⟨(A.kept a q h).size, (A.kept a q h).head, (A.kept a q h).tail⟩⟩

/-- Every call that returns, and every store of an owner, follows the agreement. -/
theorem step_follows (A : Agrees w.state w.owner loc) (step : Step server w op w') :
    Follows w op w' := by
  cases step with
  | @alloc size label env s ptr fit new ret =>
    rcases A.alloc fit new label with null | ⟨_, outside⟩ | ⟨a, s', ok, frame, _, _, A'⟩
    · simp [server, null] at ret
    · simp [server, outside] at ret
    · simp only [server, ok, Except.ok.injEq, Prod.mk.injEq, Option.some.injEq] at ret
      obtain ⟨rfl, rfl⟩ := ret
      refine ⟨⟨_, A'⟩, fun _ => frame.protect, ?_⟩
      intro quiet
      cases quiet
  | @allocNull size label env s fit new ret =>
    rcases A.alloc fit new label with null | ⟨_, outside⟩ | ⟨a, s', ok, _⟩
    · simp only [server, null, Except.ok.injEq, Prod.mk.injEq] at ret
      obtain ⟨rfl, _⟩ := ret
      refine ⟨⟨_, A⟩, fun _ => rfl, ?_⟩
      intro quiet
      cases quiet
    · simp [server, outside] at ret
    · simp [server, ok] at ret
  | free out ret =>
    obtain ⟨a, rfl, ha, _⟩ := A.active out
    obtain ⟨frame, A'⟩ := A.freed ha ret
    refine ⟨⟨_, A'⟩, fun _ => frame.protect, ?_⟩
    intro _ b hb
    have ne : b ≠ a := by
      rintro rfl
      simp [out] at hb
    exact ⟨frame.view b ne, by simp [hb, ne]⟩
  | freeNull ret =>
    simp only [server, Pool.memPoolFree, Pool.freeWith, Except.ok.injEq] at ret
    subst ret
    exact ⟨⟨_, A⟩, fun _ => rfl, fun _ b hb => ⟨rfl, hb⟩⟩
  | setProtection =>
    refine ⟨⟨_, A.switched _ _⟩, ?_, fun _ b hb => ⟨rfl, hb⟩⟩
    intro fixed
    cases fixed
  | setDebug => exact ⟨⟨_, A.switched _ _⟩, fun _ => rfl, fun _ b hb => ⟨rfl, hb⟩⟩
  | write out inside ret =>
    obtain ⟨a, rfl, frame, A'⟩ := A.write out ret
    refine ⟨⟨_, A'⟩, fun _ => frame.protect, ?_⟩
    intro _ b hb
    have ne : b ≠ a := by
      rintro rfl
      simp [out] at hb
    exact ⟨frame.view b ne, by simp [hb, ne]⟩

/-- In every run the pool and its owners agree. -/
theorem run_agrees (run : Run (Step server) (World.start (Pool.memPoolInit garbage)) ops w) :
    ∃ loc, Agrees w.state w.owner loc := by
  apply run.invariant (I := fun w => ∃ loc, Agrees w.state w.owner loc)
  · exact ⟨_, start_agrees⟩
  · rintro w op w' ⟨loc, A⟩ step
    exact (step_follows A step).agrees

end

end LearnC.MemPool
