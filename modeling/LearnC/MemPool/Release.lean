import LearnC.MemPool.Layout

/-! Giving a block back: the checks and the unlinking under the global lock, then
the slab's free list or the system. -/

namespace LearnC.MemPool

section
variable {T : Type} {s s' : Pool} {loc : Addr → Loc T} {a b : Addr} {i : Nat} {t : T}

/-- The loop stops at the cell that points at `a`. -/
theorem unlink_loop {ys zs : List Addr} {head : Option Addr} {prev : Pool.Cell} {fuel : Nat}
    (load : s.load prev = .ok head) (chain : Chain s.next head (ys ++ a :: zs))
    (nodup : (ys ++ a :: zs).Nodup)
    (header : ∀ b ∈ ys ++ a :: zs, s.mem.Inside b 0 sizeofMemBlk) (hf : ys.length < fuel) :
    s.unlink a fuel prev =
      s.save (s.next a) (match ys.getLast? with | none => prev | some p => .next p) := by
  induction ys generalizing head prev fuel with
  | nil =>
    obtain ⟨fuel, rfl⟩ := Nat.exists_eq_succ_of_ne_zero (Nat.ne_of_gt hf)
    have ha := blk_ok (header a (by simp))
    rw [chain.1] at load
    simp [Pool.unlink, load, ha, bind, Except.bind, Pool.next]
  | cons y ys ih =>
    obtain ⟨fuel, rfl⟩ := Nat.exists_eq_succ_of_ne_zero (show fuel ≠ 0 by simp at hf; omega)
    have ne : y ≠ a := by
      rintro rfl
      simp at nodup
    have hy := blk_ok (header y (by simp))
    rw [chain.1] at load
    have link : s.load (.next y) = .ok (s.next y) := by
      simp [Pool.load, hy, bind, Except.bind, Pool.next]
    have rest := ih link chain.2
      (List.nodup_cons.mp nodup).2 (fun b hb => header b (List.mem_cons_of_mem y hb))
      (show ys.length < fuel by simpa using hf)
    simp only [Pool.unlink, load, bind, Except.bind, ne, ↓reduceIte, rest]
    cases ys with
    | nil => rfl
    | cons x xs => simp [List.getLast?_eq_some_getLast]

theorem unlink_spec {P : Addr → Prop} (list : Holds s.next s.activeList P) (ha : P a)
    (header : ∀ b, P b → s.mem.Inside b 0 sizeofMemBlk) :
    ∃ s', s.unlink a s.fuel .head = .ok s' ∧ (∀ b, s'.view b = s.view b) ∧
      s'.mem = s.mem ∧ s'.slabs = s.slabs ∧ s'.slabClsCnt = s.slabClsCnt ∧
      s'.debugMode = s.debugMode ∧ s'.protectMode = s.protectMode ∧
      (∀ b, ¬ P b → s'.next b = s.next b) ∧
      Holds s'.next s'.activeList fun b => b ≠ a ∧ P b := by
  obtain ⟨xs, chain, mem⟩ := list
  obtain ⟨ys, zs, rfl⟩ := List.append_of_mem ((mem a).mpr ha)
  have nodup := chain.nodup
  have header' : ∀ b ∈ ys ++ a :: zs, s.mem.Inside b 0 sizeofMemBlk :=
    fun b hb => header b ((mem b).mp hb)
  have bound : ys.length < s.fuel := by
    have all := length_lt_fuel nodup fun b hb => (header' b hb).mem
    rw [List.length_append] at all
    omega
  have root : s.load .head = .ok s.activeList := rfl
  have loop := unlink_loop root chain nodup header' bound
  have rest (b : Addr) : b ∈ ys ++ zs ↔ b ≠ a ∧ P b := by
    rw [← mem]
    have out := (List.nodup_cons.mp (List.nodup_middle.mp nodup)).1
    simp only [List.mem_append, List.mem_cons] at out ⊢
    constructor
    · intro hb
      exact ⟨fun e => out (e ▸ hb), by tauto⟩
    · tauto
  rcases List.eq_nil_or_concat ys with rfl | ⟨pre, p, rfl⟩
  · -- The cell is the head itself.
    refine ⟨{ s with activeList := s.next a }, by simpa [Pool.save] using loop, fun _ => rfl,
      rfl, rfl, rfl, rfl, rfl, fun _ _ => rfl, zs, chain.2, rest⟩
  · -- The cell is the link of the block before.
    rw [List.concat_eq_append] at *
    have hp := header' p (by simp)
    let s' : Pool := { s with hdr := Function.update s.hdr p { s.hdr p with next := s.next a } }
    have views (b : Addr) : s'.view b = s.view b := by
      by_cases hb : b = p
      · subst hb
        simp [s', Pool.view]
      · simp [s', Pool.view, hb]
    have same (b : Addr) (hb : b ≠ p) : s'.next b = s.next b := by simp [s', Pool.next, hb]
    have ok : s.unlink a s.fuel .head = .ok s' := by
      simpa [Pool.save, blk_ok hp, setBlk_ok hp, bind, Except.bind, s'] using loop
    refine ⟨s', ok, views, rfl, rfl, rfl, rfl, rfl, fun b hb => same b ?_, pre ++ p :: zs, ?_, ?_⟩
    · rintro rfl
      exact hb ((mem b).mp (by simp))
    · have chain' : Chain s.next s.activeList (pre ++ p :: a :: zs) := by simpa using chain
      have nodup' : (pre ++ p :: a :: zs).Nodup := by simpa using nodup
      apply chain'.skip (by simp [s', Pool.next])
      intro b hb
      apply same
      rintro rfl
      have out := (List.nodup_cons.mp (List.nodup_middle.mp nodup')).1
      rcases List.mem_append.mp hb with h | h <;> simp [h] at out
    · simpa using rest

/-- Both guards of a block read as an allocation under protection left them. -/
def Guarded (s : Pool) (a : Addr) : Prop :=
  (s.hdr a).guardHead = protectMagic ∧
    s.mem.load a (Pool.tailOffset (s.hdr a).size) sizeofGuard = some tailMagic

theorem Made.tail_inside (m : Made s a) :
    s.mem.Inside a (Pool.tailOffset (s.hdr a).size) sizeofGuard := by
  obtain ⟨size, he, hle⟩ := m.room
  exact ⟨size, he, by rw [tailOffset_add]; omega⟩

theorem tailIntact_ok (m : Made s a) : s.tailIntact a (s.hdr a).size =
    .ok (decide (s.mem.load a (Pool.tailOffset (s.hdr a).size) sizeofGuard = some tailMagic)) := by
  obtain ⟨bytes, load⟩ := Option.isSome_iff_exists.mp (Memory.load_isSome.mpr m.tail_inside)
  simp [Pool.tailIntact, load]

/-- Under protection a free of an outstanding block with a broken guard aborts. -/
theorem checkAndUnlink_abort (L : Layout s loc) (ha : loc a = .active) (ptr : Addr)
    (on : s.protectMode = true) (broken : ¬ Guarded s a) :
    s.checkAndUnlink ptr a = .error (.underrun ptr (s.hdr a).label) ∨
    s.checkAndUnlink ptr a = .error (.overflow ptr (s.hdr a).label) := by
  obtain ⟨made, fresh⟩ := L.inUse a ha
  have hblk := blk_ok made.header
  by_cases head : (s.hdr a).guardHead = protectMagic
  · have tail := tailIntact_ok made
    rw [decide_eq_false fun e => broken ⟨head, e⟩] at tail
    exact Or.inr (by
      simp [Pool.checkAndUnlink, hblk, fresh, on, head, tail, bind, Except.bind])
  · exact Or.inl (by
      simp [Pool.checkAndUnlink, hblk, fresh, on, head, bind, Except.bind])

/-- Otherwise the block is marked and taken off the active list. -/
theorem checkAndUnlink_spec (L : Layout s loc) (ha : loc a = .active) (ptr : Addr)
    (guards : s.protectMode = true → Guarded s a) (t : T) :
    ∃ s', s.checkAndUnlink ptr a = .ok s' ∧ Frame s s' a ∧ s'.mem = s.mem ∧
      (s'.hdr a).size = (s.hdr a).size ∧ (s'.hdr a).freed = true ∧ Made s' a ∧
      Layout s' (Function.update loc a (.held t)) := by
  obtain ⟨made, fresh⟩ := L.inUse a ha
  have hblk := blk_ok made.header
  let s₁ : Pool := { s with hdr := Function.update s.hdr a { s.hdr a with freed := true } }
  have next (b : Addr) : s₁.next b = s.next b := by
    by_cases hb : b = a
    · subst hb
      simp [s₁, Pool.next]
    · simp [s₁, Pool.next, hb]
  have frame₁ : Frame s s₁ a := ⟨fun b hb => by simp [s₁, Pool.view, hb], rfl, rfl⟩
  obtain ⟨s', loop, views, mem, slabs, cnt, debug, protect, links, list⟩ :=
    unlink_spec (s := s₁) (a := a) (P := fun b => loc b = .active)
      (L.active.congr (fun b _ => next b) fun _ => Iff.rfl) ha
      (fun b hb => L.header b (by simp [hb]))
  have mark : s.setBlk a { s.hdr a with freed := true } = .ok s₁ := setBlk_ok made.header _
  have ok : s.checkAndUnlink ptr a = .ok s' := by
    rw [← loop]
    cases hp : s.protectMode with
    | false => simp [Pool.checkAndUnlink, hblk, fresh, hp, mark, bind, Except.bind]
    | true =>
      obtain ⟨head, tail⟩ := guards hp
      have intact := tailIntact_ok made
      rw [decide_eq_true tail] at intact
      have guard : ((s.hdr a).guardHead != protectMagic) = false := by simp [head]
      simp [Pool.checkAndUnlink, hblk, fresh, hp, guard, intact, mark, bind, Except.bind]
  have frame : Frame s s' a := frame₁.trans ⟨fun b _ => views b, debug, protect⟩
  obtain ⟨size, freed, self, _, look⟩ := view_fields (views a)
  have made' : Made s' a := by
    have m₁ : Made s₁ a :=
      ⟨by simpa [s₁] using made.self, by simpa [s₁] using made.rounded,
        by simpa [s₁] using made.room⟩
    exact m₁.of_view (views a)
  refine ⟨s', ok, frame, mem, by simpa [s₁] using size, by simpa [s₁] using freed, made', ?_⟩
  apply L.move frame (by rw [Pool.blockSizes, slabs, cnt]; rfl)
  · exact list.congr (fun _ _ => rfl) fun b => by simp [update_place]
  · intro j
    rw [slabs]
    exact holds_off (L.slab j) (fun b hb _ => (links b (by simp [hb])).trans (next b))
      (by simp [ha]) (by simp)
  · rw [mem]
    exact ⟨fun _ => by simp, fun _ => (L.live a).mpr (by simp [ha])⟩
  · exact fun _ => made'.header
  · simp
  · simp

theorem checkAndUnlink_freed (header : s.mem.Inside a 0 sizeofMemBlk)
    (freed : (s.hdr a).freed = true) (ptr : Addr) :
    s.checkAndUnlink ptr a = .error (.doubleFree ptr) := by
  simp [Pool.checkAndUnlink, blk_ok header, freed, bind, Except.bind]

theorem slabPush_spec (L : Layout s loc) (ha : loc a = .held t) (made : Made s a)
    (freed : (s.hdr a).freed = true) (cls : classOf classSizes (s.hdr a).size = some i) :
    ∃ s', s.release (some i) a = .ok s' ∧ (∀ b, s'.view b = s.view b) ∧ Frame s s' a ∧
      Layout s' (Function.update loc a (.slab i)) := by
  let s₁ : Pool :=
    { s with hdr := Function.update s.hdr a { s.hdr a with next := (s.slabs i).freeList } }
  let s' := s₁.setFreeList i (some a)
  have views (b : Addr) : s'.view b = s.view b := by
    by_cases hb : b = a
    · subst hb
      simp [s', s₁, Pool.view, Pool.setFreeList]
    · simp [s', s₁, Pool.view, Pool.setFreeList, hb]
  have frame : Frame s s' a := ⟨fun b _ => views b, rfl, rfl⟩
  have same (b : Addr) (hb : b ≠ a) : s'.next b = s.next b := by
    simp [s', s₁, Pool.next, Pool.setFreeList, hb]
  have ok : s.release (some i) a = .ok s' := by
    simp [Pool.release, Pool.slabPush, blk_ok made.header, setBlk_ok made.header, bind,
      Except.bind, s', s₁]
  have off {b : Addr} (hb : loc b = .slab i) : b ≠ a := by
    rintro rfl
    simp [ha] at hb
  obtain ⟨size, fr, _, _, _⟩ := view_fields (views a)
  refine ⟨s', ok, views, frame, L.move frame (setFreeList_blockSizes _) ?_ ?_ ?_ ?_ ?_ ?_⟩
  · exact holds_off L.active (fun b _ => same b) (by simp [ha]) (by simp)
  · intro j
    by_cases hj : j = i
    · subst hj
      simp only [s', setFreeList_freeList, ↓reduceIte]
      refine (L.slab j).push (by simp [s₁, Pool.next, Pool.setFreeList])
        (fun b hb => same b (off hb)) fun b => ?_
      rw [update_place]
      constructor
      · rintro (⟨hb, _⟩ | ⟨_, hb⟩)
        · exact Or.inl hb
        · exact Or.inr hb
      · rintro (hb | hb)
        · exact Or.inl ⟨hb, rfl⟩
        · exact Or.inr ⟨off hb, hb⟩
    · simp only [s', setFreeList_freeList, hj, ↓reduceIte]
      exact holds_off (L.slab j) (fun b _ => same b) (by simp [ha]) (by simpa using Ne.symm hj)
  · exact ⟨fun _ => by simp, fun _ => (L.live a).mpr (by simp [ha])⟩
  · exact fun _ => made.header
  · simp
  · intro j hj
    cases hj
    exact ⟨made.of_view (views a), fr.trans freed, by rw [size]; exact cls⟩

theorem sysFree_spec (L : Layout s loc) (ha : loc a = .held t) (made : Made s a) :
    ∃ s', s.release none a = .ok s' ∧ Frame s s' a ∧ s'.mem = s.mem.erase a ∧
      Layout s' (Function.update loc a .gone) := by
  have live : a ∈ s.mem := (L.live a).mpr (by simp [ha])
  let s' : Pool := { s with mem := s.mem.erase a }
  have frame : Frame s s' a :=
    ⟨fun b hb => by simp [s', Pool.view, Finmap.lookup_erase_ne hb], rfl, rfl⟩
  have ok : s.release none a = .ok s' := by
    simp [Pool.release, Pool.sysFree, blk_ok made.header, made.self, live, bind, Except.bind, s']
  refine ⟨s', ok, frame, rfl, L.move frame rfl ?_ ?_ ?_ ?_ ?_ ?_⟩
  · exact holds_off L.active (fun _ _ _ => rfl) (by simp [ha]) (by simp)
  · intro i
    exact holds_off (L.slab i) (fun _ _ _ => rfl) (by simp [ha]) (by simp)
  · simp [s', Finmap.mem_erase]
  · simp
  · simp
  · simp

end

end LearnC.MemPool
