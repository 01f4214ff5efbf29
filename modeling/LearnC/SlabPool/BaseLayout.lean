import LearnC.Machine.Chain
import LearnC.SlabPool.Base

/-! Where the blocks of `1.base` are, and what each call moves. -/

namespace LearnC.SlabPool.Base

/-- The array of active blocks has each block in use once, and each slab's list
the blocks that are its own. -/
structure Layout (s : Pool) (place : Addr → Place) : Prop where
  placed : Placed s.mem s.span place
  once : s.activeBlocks.Nodup
  active : ∀ b, b ∈ s.activeBlocks ↔ place b = .active
  slab : ∀ i, Holds s.next (s.slabs i).freeList fun b => place b = .slab i

section
variable {s s' : Pool} {place : Addr → Place} {dest : Place} {b c : Addr} {v : Block} {i : Nat}
  {size : Nat} {env : Env}

theorem span_some (h : s.desc.lookup b = some v) : s.span b = some v.toSpan := by
  simp [Pool.span, h]

theorem next_some (h : s.desc.lookup b = some v) : s.next b = v.next := by
  simp [Pool.next, h]

theorem Layout.block (L : Layout s place) (h : place b ≠ .gone) :
    ∃ v, s.desc.lookup b = some v := by
  obtain ⟨_, hv⟩ := L.placed.block h
  obtain ⟨v, hv, _⟩ := Option.map_eq_some_iff.mp hv
  exact ⟨v, hv⟩

/-- Only the block at `b` changes. -/
def Same (s s' : Pool) (b : Addr) : Prop := ∀ c, c ≠ b → s'.desc.lookup c = s.desc.lookup c

theorem Same.span (same : Same s s' b) (c : Addr) (hc : c ≠ b) : s'.span c = s.span c := by
  simp [Pool.span, same c hc]

theorem Same.next (same : Same s s' b) (c : Addr) (hc : c ≠ b) : s'.next c = s.next c := by
  simp [Pool.next, same c hc]

theorem push_active (L : Layout s place) (off : place b ≠ .active) :
    (s.activeBlocks ++ [b]).Nodup ∧
      ∀ c, c ∈ s.activeBlocks ++ [b] ↔ Function.update place b .active c = .active := by
  constructor
  · apply List.Nodup.append L.once (List.nodup_singleton b)
    intro c hc hb
    cases List.mem_singleton.mp hb
    exact off ((L.active b).mp hc)
  · intro c
    by_cases hc : c = b
    · subst hc
      simp
    · simp [hc, L.active]

theorem remove_active (L : Layout s place) (off : dest ≠ .active) :
    (removeFirst s.activeBlocks b).Nodup ∧
      ∀ c, c ∈ removeFirst s.activeBlocks b ↔ Function.update place b dest c = .active := by
  have perm := removeFirst_perm s.activeBlocks b
  constructor
  · exact perm.nodup_iff.mpr (L.once.erase b)
  · intro c
    rw [perm.mem_iff, L.once.mem_erase_iff, L.active]
    by_cases hc : c = b
    · subst hc
      simpa using off
    · simp [hc]

theorem Layout.slab_off (L : Layout s place) (same : Same s s' b) (i : Nat)
    (off : place b ≠ .slab i) (on : dest ≠ .slab i) :
    Holds s'.next (s.slabs i).freeList fun c => Function.update place b dest c = .slab i := by
  apply (L.slab i).congr
  · intro c hc
    apply same.next
    rintro rfl
    exact off hc
  · intro c
    by_cases hc : c = b
    · subst hc
      simp [off, on]
    · simp [hc]

theorem Layout.head_place (L : Layout s place) (head : (s.slabs i).freeList = some b) :
    place b = .slab i := by
  have list := L.slab i
  rw [head] at list
  exact Holds.head_mem (P := fun b => place b = .slab i) list

theorem Layout.slab_pop (L : Layout s place) (same : Same s s' b)
    (head : (s.slabs i).freeList = some b)
    (heads : ∀ j, (s'.slabs j).freeList = if j = i then s.next b else (s.slabs j).freeList)
    (j : Nat) :
    Holds s'.next (s'.slabs j).freeList fun c =>
      Function.update place b .active c = .slab j := by
  have hb := L.head_place head
  rw [heads]
  by_cases hj : j = i
  · subst hj
    have list := L.slab j
    rw [head] at list
    rw [if_pos rfl]
    apply list.pop
    · intro c _ hc
      exact same.next c hc
    · intro c
      by_cases hc : c = b
      · subst hc
        simp
      · simp [hc]
  · rw [if_neg hj]
    apply L.slab_off same j
    · simpa [hb] using Ne.symm hj
    · exact Place.noConfusion

theorem Layout.slab_push (L : Layout s place) (same : Same s s' b) (hb : place b = .active)
    (link : s'.next b = (s.slabs i).freeList)
    (heads : ∀ j, (s'.slabs j).freeList = if j = i then some b else (s.slabs j).freeList)
    (j : Nat) :
    Holds s'.next (s'.slabs j).freeList fun c =>
      Function.update place b (.slab i) c = .slab j := by
  rw [heads]
  by_cases hj : j = i
  · subst hj
    rw [if_pos rfl]
    apply (L.slab j).push link
    · intro c hc
      apply same.next
      rintro rfl
      cases hb.symm.trans hc
    · intro c
      by_cases hc : c = b
      · subst hc
        simp
      · simp [hc]
  · rw [if_neg hj]
    apply L.slab_off same j
    · simp [hb]
    · simpa using Ne.symm hj

theorem Layout.store (L : Layout s place) {mem : Memory}
    (extent : ∀ a, mem.extent a = s.mem.extent a) : Layout { s with mem := mem } place where
  placed := L.placed.store extent
  once := L.once
  active := L.active
  slab := L.slab

/-! ## Allocation -/

/-- The free list that serves a request. -/
def Pool.serving (s : Pool) (size : Nat) : Option Addr :=
  (slabIndex size).bind fun i => (s.slabs i).freeList

theorem take_create (idle : s.serving size = none)
    (take : s.take size env = some (s', b)) : ∃ idx, s.create idx size env = some (s', b) := by
  unfold Pool.take at take
  split at take
  · next i cls =>
    split at take
    · next list => simp [Pool.serving, cls, list] at idle
    · exact ⟨_, take⟩
  · exact ⟨_, take⟩

/-- A new block's buffer has the bytes that were asked for, and its guards. -/
theorem create_made {idx : Option Nat} (create : s.create idx size env = some (s', b)) :
    env.blk = some b ∧ ∃ a, env.raw = some a ∧
      fillGuards (s.mem.insert a ⟨totalSize size, env.junk⟩) a size = some s'.mem := by
  obtain ⟨blk, made, create⟩ := Option.bind_eq_some_iff.mp create
  obtain ⟨a, raw, create⟩ := Option.bind_eq_some_iff.mp create
  obtain ⟨mem, fill, create⟩ := Option.bind_eq_some_iff.mp create
  cases idx with
  | none =>
    cases create
    exact ⟨made, a, raw, fill⟩
  | some i =>
    cases create
    exact ⟨made, a, raw, fill⟩

theorem serving_fits (front : s.serving size = some b) : size + guardSize * 2 < 2 ^ 64 := by
  obtain ⟨i, cls, _⟩ := Option.bind_eq_some_iff.mp front
  exact fits_of_class cls

theorem alloc_fits {ptr : Addr} (ret : s.memPoolAlloc size env = some (s', ptr)) :
    size + guardSize * 2 < 2 ^ 64 := by
  cases front : s.serving size with
  | some b => exact serving_fits front
  | none =>
    obtain ⟨⟨s₁, b⟩, take, _⟩ := Option.bind_eq_some_iff.mp ret
    obtain ⟨idx, create⟩ := take_create front take
    obtain ⟨_, a, _, fill⟩ := create_made create
    exact fits_of_fill fill

/-- A request served from a slab's list takes the first block as it is. -/
theorem alloc_reuse (L : Layout s place) (cls : slabIndex size = some i)
    (head : (s.slabs i).freeList = some b) (env : Env) :
    ∃ s' v, place b = .slab i ∧ s.desc.lookup b = some v ∧
      s.memPoolAlloc size env = some (s', v.userPtr) ∧ Same s s' b ∧
      s'.span b = some v.toSpan ∧ Layout s' (Function.update place b .active) := by
  have hb := L.head_place head
  obtain ⟨v, hv⟩ := L.block (b := b) (by simp [hb])
  let v' : Block := { v with backtrace := env.trace.take maxBacktrace }
  let s' : Pool := ({ s with
    desc := s.desc.insert b v'
    slabs := Function.update s.slabs i
      { s.slabs i with freeList := v.next, inUse := (s.slabs i).inUse + 1 } } : Pool).pushActive b
  have ret : s.memPoolAlloc size env = some (s', v.userPtr) := by
    simp [Pool.memPoolAlloc, Pool.take, cls, head, Pool.reuse, hv, Pool.setSlab, s', v']
  have same : Same s s' b := fun c hc => Finmap.lookup_insert_of_ne _ hc
  have kept : s'.span b = some v.toSpan := span_some (v := v') (Finmap.lookup_insert _)
  obtain ⟨once, active⟩ := push_active L (b := b) (by simp [hb])
  refine ⟨s', v, hb, hv, ret, same, kept, ?_, once, active, ?_⟩
  · apply L.placed.keep same.span (fun _ => rfl) (span_some hv) kept rfl
    · exact L.placed.made b _ (span_some hv)
    · exact Place.noConfusion
    · exact fun _ => Place.noConfusion
  · apply L.slab_pop same head
    intro j
    by_cases hj : j = i
    · subst hj
      simp [s', Pool.pushActive, next_some hv]
    · simp [s', Pool.pushActive, hj]

/-- Any other request makes a block, with a buffer of the bytes it needs. -/
theorem alloc_create (L : Layout s place) (fit : size + guardSize * 2 < 2 ^ 64)
    (idle : s.serving size = none) (supply : Supplies base s env) :
    ∃ s' b v, place b = .gone ∧ s.memPoolAlloc size env = some (s', v.userPtr) ∧
      v.size = size ∧ Same s s' b ∧ s'.span b = some v ∧
      Layout s' (Function.update place b .active) := by
  obtain ⟨⟨b, blk, newBlk⟩, a, raw, newRaw⟩ := supply
  replace newBlk : b ∉ s.desc := newBlk
  have hb : place b = .gone := by
    by_contra h
    exact newBlk (Finmap.mem_iff.mpr (L.block h))
  obtain ⟨mem, fill, made, extent⟩ := fillGuards_new (m := s.mem) fit a env.junk
  let v₀ : Block := ⟨⟨a, a + guardSize, size⟩, none, []⟩
  let v : Block := { v₀ with backtrace := env.trace.take maxBacktrace }
  -- The counters of the slab change, its list does not.
  obtain ⟨slabs, take, heads⟩ : ∃ slabs,
      s.take size env =
        some ({ s with mem := mem, desc := s.desc.insert b v₀, slabs := slabs }, b) ∧
      ∀ j, (slabs j).freeList = (s.slabs j).freeList := by
    cases cls : slabIndex size with
    | none =>
      refine ⟨s.slabs, ?_, fun _ => rfl⟩
      simp [Pool.take, cls, Pool.create, blk, raw, v₀, fill]
    | some i =>
      have empty : (s.slabs i).freeList = none := by simpa [Pool.serving, cls] using idle
      refine ⟨Function.update s.slabs i { s.slabs i with total := (s.slabs i).total + 1 }, ?_, ?_⟩
      · simp [Pool.take, cls, empty, Pool.create, blk, raw, v₀, fill, Pool.setSlab]
      · intro j
        by_cases hj : j = i
        · subst hj
          simp
        · simp [hj]
  let s' : Pool := ({ s with
    mem := mem, desc := s.desc.insert b v, slabs := slabs } : Pool).pushActive b
  have ret : s.memPoolAlloc size env = some (s', v.userPtr) := by
    simp [Pool.memPoolAlloc, take, s', v, v₀]
  have same : Same s s' b := fun c hc => Finmap.lookup_insert_of_ne _ hc
  have here : s'.span b = some v.toSpan := span_some (v := v) (Finmap.lookup_insert _)
  obtain ⟨once, active⟩ := push_active L (b := b) (by simp [hb])
  refine ⟨s', b, v.toSpan, hb, ret, rfl, same, here, ?_, once, active, ?_⟩
  · exact L.placed.malloc same.span extent newRaw hb here rfl made
  · intro j
    rw [show (s'.slabs j).freeList = (s.slabs j).freeList from heads j]
    apply L.slab_off same j
    · simp [hb]
    · exact Place.noConfusion

/-! ## Freeing -/

/-- The search finds an active block with the pointer, if there is one. -/
theorem findActive_spec (ptr : Addr) {l : List Addr}
    (live : ∀ b ∈ l, ∃ v, s.desc.lookup b = some v) :
    (∃ b ∈ l, ∃ v, s.desc.lookup b = some v ∧ v.userPtr = ptr ∧
      s.findActive ptr l = some (some b)) ∨
    ((∀ b ∈ l, ∀ v, s.desc.lookup b = some v → v.userPtr ≠ ptr) ∧
      s.findActive ptr l = some none) := by
  induction l with
  | nil => exact Or.inr ⟨fun b hb => absurd hb List.not_mem_nil, rfl⟩
  | cons c rest ih =>
    rw [List.forall_mem_cons] at live
    obtain ⟨⟨u, hu⟩, live⟩ := live
    by_cases eq : u.userPtr = ptr
    · exact Or.inl ⟨c, List.mem_cons_self, u, hu, eq, by simp [Pool.findActive, hu, eq]⟩
    · rcases ih live with ⟨b, hb, v, hv, user, found⟩ | ⟨absent, found⟩
      · refine Or.inl ⟨b, List.mem_cons_of_mem c hb, v, hv, user, ?_⟩
        simpa [Pool.findActive, hu, eq] using found
      · refine Or.inr ⟨?_, by simpa [Pool.findActive, hu, eq] using found⟩
        rw [List.forall_mem_cons]
        refine ⟨?_, absent⟩
        intro v hv
        cases hu.symm.trans hv
        exact eq

theorem Layout.active_block (L : Layout s place) (hb : b ∈ s.activeBlocks) :
    ∃ v, s.desc.lookup b = some v :=
  L.block (by simp [(L.active b).mp hb])

theorem free_rejected (L : Layout s place) {ptr : Addr}
    (absent : ∀ n, ¬ InUse s.span place ptr n) :
    s.memPoolFree (some ptr) = some (s, some .invalid) := by
  rcases findActive_spec ptr (fun _ hb => L.active_block hb) with
    ⟨b, hb, v, hv, user, _⟩ | ⟨_, found⟩
  · exact absurd ⟨b, v.toSpan, (L.active b).mp hb, span_some hv, user, rfl⟩ (absent v.size)
  · simp [Pool.memPoolFree, found]

/-- What a free did: it refused the pointer, or released the active block that has it. -/
theorem free_inv (L : Layout s place) {ptr : Addr} {msg : Option Message}
    (ret : s.memPoolFree (some ptr) = some (s', msg)) :
    s' = s ∨ ∃ b v, place b = .active ∧ s.desc.lookup b = some v ∧ v.userPtr = ptr ∧
      (s.removeActive b).release b v = some s' := by
  rcases findActive_spec ptr (fun _ hb => L.active_block hb) with
    ⟨b, hb, v, hv, user, found⟩ | ⟨_, found⟩
  · simp only [Pool.memPoolFree, found, Option.bind_eq_bind, Option.bind_some] at ret
    obtain ⟨u, hu, ret⟩ := Option.bind_eq_some_iff.mp ret
    cases hv.symm.trans hu
    obtain ⟨intact, _, ret⟩ := Option.bind_eq_some_iff.mp ret
    obtain ⟨s₁, release, ret⟩ := Option.bind_eq_some_iff.mp ret
    cases ret
    exact Or.inr ⟨b, v, (L.active b).mp hb, hv, user, release⟩
  · simp only [Pool.memPoolFree, found, Option.bind_eq_bind, Option.bind_some,
      Option.some.injEq, Prod.mk.injEq] at ret
    exact Or.inl ret.1.symm

theorem release_slab (L : Layout s place) (hb : place b = .active)
    (hv : s.desc.lookup b = some v) (cls : slabIndex v.size = some i) :
    ∃ s', (s.removeActive b).release b v = some s' ∧ Same s s' b ∧
      Layout s' (Function.update place b (.slab i)) := by
  let v' : Block := { v with next := (s.slabs i).freeList }
  let s' : Pool := { s.removeActive b with
    desc := s.desc.insert b v'
    slabs := Function.update s.slabs i
      { s.slabs i with freeList := some b, inUse := (s.slabs i).inUse - 1 } }
  have same : Same s s' b := fun c hc => Finmap.lookup_insert_of_ne _ hc
  have here : s'.desc.lookup b = some v' := Finmap.lookup_insert _
  have kept : s'.span b = some v.toSpan := span_some (v := v') here
  obtain ⟨once, active⟩ := remove_active L (b := b) (show Place.slab i ≠ .active by simp)
  refine ⟨s', ?_, same, ?_, once, active, ?_⟩
  · simp [Pool.release, cls, Pool.setSlab, Pool.removeActive, s', v']
  · apply L.placed.keep same.span (fun _ => rfl) (span_some hv) kept rfl
    · exact L.placed.made b _ (span_some hv)
    · exact Place.noConfusion
    · rintro j ⟨⟩
      exact cls
  · apply L.slab_push same hb (next_some here)
    intro j
    by_cases hj : j = i
    · subst hj
      simp [s']
    · simp [s', hj]

theorem release_system (L : Layout s place) (hb : place b = .active)
    (hv : s.desc.lookup b = some v) (cls : slabIndex v.size = none) :
    ∃ s', (s.removeActive b).release b v = some s' ∧ Same s s' b ∧
      Layout s' (Function.update place b .gone) := by
  let s' : Pool := { s.removeActive b with
    mem := s.mem.erase v.realPtr
    desc := s.desc.erase b }
  have same : Same s s' b := fun c hc => Finmap.lookup_erase_ne hc
  have here : s'.span b = none := by simp [Pool.span, s', Finmap.lookup_erase]
  have owned : v.realPtr ∈ s.mem := L.placed.base_live (span_some hv)
  obtain ⟨once, active⟩ := remove_active L (b := b) (show Place.gone ≠ .active by simp)
  refine ⟨s', ?_, same, ?_, once, active, ?_⟩
  · simp [Pool.release, cls, Pool.removeActive, owned, s']
  · exact L.placed.free same.span (span_some hv) here
  · intro j
    apply L.slab_off same j
    · simp [hb]
    · exact Place.noConfusion

theorem release_spec (L : Layout s place) (hb : place b = .active)
    (hv : s.desc.lookup b = some v) :
    ∃ s', (s.removeActive b).release b v = some s' ∧ Same s s' b ∧
      Layout s' (Function.update place b (home v.size)) := by
  cases cls : slabIndex v.size with
  | some i => simpa [home, show classOf _ _ = _ from cls] using release_slab L hb hv cls
  | none => simpa [home, show classOf _ _ = _ from cls] using release_system L hb hv cls

/-- The pointer of an active block is taken back, whatever its guards say. -/
theorem free_accepted (L : Layout s place) (hb : place b = .active)
    (hv : s.desc.lookup b = some v) :
    ∃ s' intact, s.memPoolFree (some v.userPtr) =
        some (s', if intact then none else some (.overflow v.size)) ∧
      checkGuards s.mem v.realPtr (guardSize + v.size) = some intact ∧ Same s s' b ∧
      Layout s' (Function.update place b (home v.size)) := by
  have found : s.findActive v.userPtr s.activeBlocks = some (some b) := by
    rcases findActive_spec v.userPtr (fun _ hc => L.active_block hc) with
      ⟨c, _, u, hu, user, found⟩ | ⟨absent, _⟩
    · rw [L.placed.same_block (span_some hv) (span_some hu) user] at found
      exact found
    · exact absurd rfl (absent b ((L.active b).mpr hb) v hv)
  have made := L.placed.made b _ (span_some hv)
  obtain ⟨intact, check⟩ := Option.isSome_iff_exists.mp (checkGuards_isSome made.room)
  obtain ⟨s', release, same, L'⟩ := release_spec L hb hv
  refine ⟨s', intact, ?_, check, same, L'⟩
  have removed : (s.removeActive b).desc = s.desc ∧ (s.removeActive b).mem = s.mem := ⟨rfl, rfl⟩
  simp [Pool.memPoolFree, found, removed, hv, made.tail, check, release]

/-! ## The first state -/

theorem init_layout : Layout Pool.init fun _ => .gone := by
  refine ⟨placed_nothing fun _ => rfl, List.nodup_nil, ?_, ?_⟩
  · intro b
    simp [Pool.init, Pool.start, Pool.memPoolInit]
  · intro i
    have empty : (Pool.init.slabs i).freeList = none := by
      simp only [Pool.init, Pool.memPoolInit, Pool.start]
      split <;> rfl
    rw [empty]
    exact holds_none fun _ => Place.noConfusion

end

end LearnC.SlabPool.Base
