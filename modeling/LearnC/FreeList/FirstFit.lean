import LearnC.FreeList.Implicit

/-! The block that `my_malloc` of `1.implicit_free_list.c` takes, and what is left
of the pool around it. -/

namespace LearnC.FreeList

section
variable {H B : Type} {prog : Program H B} {h h' : H} {c n : Nat} {ys zs : List Nat}

theorem Cut.blocks_split (cut : Cut prog h h' c n) (pos : 0 < prog.hdr) (T : Tidy prog h)
    (eq : prog.blocks h = ys ++ c :: zs) (room : Splits prog h c n) :
    prog.blocks h' = ys ++ c :: (c + prog.hdr + n) :: zs := by
  have wide : prog.hdr + 4 < prog.sizeAt h c - n := room
  have new := T.fresh pos (c := c) (by simp [eq]) room
  have t := T.tiles
  have nodup := t.nodup pos
  rw [eq] at t nodup new
  have first : prog.sizeAt h' c = n := by rw [cut.sizes room, if_pos rfl]
  have rest : prog.sizeAt h' (c + prog.hdr + n) = prog.sizeAt h c - n - prog.hdr := by
    rw [cut.sizes room, if_neg (by omega), if_pos rfl]
  have others : ∀ b ∈ ys ++ zs, prog.sizeAt h' b = prog.sizeAt h b := by
    intro b hb
    rw [cut.sizes room, if_neg, if_neg]
    · rintro rfl
      exact new (by simp at hb ⊢; tauto)
    · rintro rfl
      exact (List.nodup_cons.mp (List.nodup_middle.mp nodup)).1 hb
  have t' := t.split (by rw [first]; omega) (by rw [first]; exact rest) others
  rw [first] at t'
  exact blocks_of_tiles pos t'

theorem Cut.blocks_whole (cut : Cut prog h h' c n) (pos : 0 < prog.hdr) (T : Tidy prog h)
    (room : ¬ Splits prog h c n) : prog.blocks h' = prog.blocks h :=
  blocks_of_tiles pos (T.tiles.congr fun b _ => cut.whole room b)

end

namespace Implicit

/-- `c` is the free block at the lowest address with room for `n` bytes. -/
structure FirstFit (h : Heap) (n c : Nat) : Prop where
  mem : c ∈ implicit.blocks h
  free : h.free c = true
  fits : n ≤ h.size c
  lowest : ∀ b ∈ implicit.blocks h, h.free b = true → n ≤ h.size b → c ≤ b

/-- `h'` is `h` with the block `c` handed out for `n` bytes, whole or with its rest
cut off as a free block of its own. -/
structure HandedOut (h h' : Heap) (c n : Nat) : Prop where
  used : h'.free c = false
  least : n ≤ h'.size c
  most : h'.size c ≤ n + sizeofHeader + 4
  rest : (implicit.blocks h' = implicit.blocks h ∧ h'.size c = h.size c) ∨
    ∃ ys zs rest, implicit.blocks h = ys ++ c :: zs ∧ implicit.blocks h' = ys ++ c :: rest :: zs ∧
      rest = c + sizeofHeader + h'.size c ∧ h'.free rest = true ∧
      h'.size c + sizeofHeader + h'.size rest = h.size c
  others : ∀ b ∈ implicit.blocks h, b ≠ c → h'.mem b = h.mem b

section
variable {h : Heap} {a b c n : Nat}

theorem take_mem (hbc : b ≠ c) (hbn : Splits implicit h c n → b ≠ c + sizeofHeader + n) :
    (take h c n).mem b = h.mem b := by
  rw [splits_iff] at hbn
  by_cases room : h.size c - n > sizeofHeader + 4
  · simp [take, room, Heap.setSize, Heap.setFree, Heap.set, hbc, hbn room]
  · simp [take, room, Heap.setFree, Heap.set, hbc]

theorem take_handed_out (T : Tidy implicit h) (hc : c ∈ implicit.blocks h) (fits : n ≤ h.size c) :
    HandedOut h (take h c n) c n := by
  have cut := take_cut h c n
  have used : (take h c n).free c = false := by
    have marks : (take h c n).free c = _ := cut.marks c
    rw [marks, if_pos rfl]
  have others : ∀ b ∈ implicit.blocks h, b ≠ c → (take h c n).mem b = h.mem b := by
    intro b hb hbc
    apply take_mem hbc
    rintro room rfl
    exact T.fresh (by decide) hc room hb
  by_cases room : Splits implicit h c n
  · have size : (take h c n).size c = n := by
      have sizes : (take h c n).size c = _ := cut.sizes room c
      rw [sizes, if_pos rfl]
    have ne : c + sizeofHeader + n ≠ c := by simp [sizeofHeader]; omega
    have rest : (take h c n).size (c + sizeofHeader + n) = h.size c - n - sizeofHeader := by
      have sizes : (take h c n).size (c + sizeofHeader + n) = _ := cut.sizes room _
      rw [sizes, if_neg ne, hdr_eq, if_pos rfl, sizeAt_eq]
    have free : (take h c n).free (c + sizeofHeader + n) = true := by
      have marks : (take h c n).free (c + sizeofHeader + n) = _ := cut.marks _
      rw [marks, if_neg ne, if_pos ⟨room, rfl⟩]
    obtain ⟨ys, zs, eq⟩ := List.append_of_mem hc
    have blocks := cut.blocks_split (by decide) T eq room
    rw [splits_iff] at room
    refine ⟨used, by omega, by omega, Or.inr ⟨ys, zs, _, eq, blocks, ?_, free, ?_⟩, others⟩
    · rw [size, hdr_eq]
    · rw [hdr_eq, size, rest]
      omega
  · have size : (take h c n).size c = h.size c := cut.whole room c
    have blocks := cut.blocks_whole (by decide) T room
    rw [splits_iff] at room
    exact ⟨used, by omega, by omega, Or.inl ⟨blocks, size⟩, others⟩

theorem find_lowest (T : Tidy implicit h)
    (found : (implicit.blocks h).find? (fits h n) = some c) : FirstFit h n c := by
  have hc := List.mem_of_find?_eq_some found
  have fit := List.find?_some found
  simp only [fits, Bool.and_eq_true, decide_eq_true_eq] at fit
  refine ⟨hc, fit.1, fit.2, ?_⟩
  intro b hb free wide
  obtain ⟨_, ys, zs, eq, before⟩ := List.find?_eq_some_iff_append.mp found
  have t := T.tiles
  rw [eq] at t hb
  rcases List.mem_append.mp hb with early | late
  · have nofit := before b early
    simp [fits, free, wide] at nofit
  · rcases List.mem_cons.mp late with rfl | late
    · exact Nat.le_refl b
    · have := (t.at_mid.bounds late).1
      omega

end

/-- `my_malloc` is exact first fit: it fails on a heap without a fitting block, and
leaves that heap as it was; otherwise the fitting block at the lowest address is cut
to the request, and no other block is touched. -/
theorem malloc_first_fit (garbage : Nat → BlockHeader) (ops : List Op) (w : World Heap)
    (run : Run (Step implicit) (World.start (initMemory garbage)) ops w) (size : Nat) :
    (∃ h' r, myMalloc w.heap size = some (h', r)) ∧
    ((∃ h', myMalloc w.heap size = some (h', none)) ↔
      ∀ a ∈ implicit.blocks w.heap, w.heap.free a = true → w.heap.size a < align4 size) ∧
    (∀ h', myMalloc w.heap size = some (h', none) → h' = w.heap) ∧
    ∀ h' ptr, myMalloc w.heap size = some (h', some ptr) →
      ∃ c, ptr = c + sizeofHeader ∧ FirstFit w.heap (align4 size) c ∧
        HandedOut w.heap h' c (align4 size) := by
  have T := (rules.run_inv (init_inv garbage) run).heap
  have search := search_eq T (align4 size)
  cases found : (implicit.blocks w.heap).find? (fits w.heap (align4 size)) with
  | none =>
    rw [found] at search
    have ret : myMalloc w.heap size = some (w.heap, none) := by simp [myMalloc, search]
    have full : ∀ a ∈ implicit.blocks w.heap, w.heap.free a = true →
        w.heap.size a < align4 size := by
      intro a ha free
      have nofit := List.find?_eq_none.mp found a ha
      simpa [fits, free] using nofit
    refine ⟨⟨_, _, ret⟩, ⟨fun _ => full, fun _ => ⟨_, ret⟩⟩, ?_, ?_⟩
    · intro h' ret'
      cases ret.symm.trans ret'
      rfl
    · intro h' ptr ret'
      cases ret.symm.trans ret'
  | some c =>
    rw [found] at search
    have ret : myMalloc w.heap size =
        some (take w.heap c (align4 size), some (c + sizeofHeader)) := by simp [myMalloc, search]
    have first := find_lowest T found
    refine ⟨⟨_, _, ret⟩, ⟨?_, ?_⟩, ?_, ?_⟩
    · rintro ⟨h', ret'⟩
      cases ret.symm.trans ret'
    · intro full
      have small := full c first.mem first.free
      have := first.fits
      omega
    · intro h' ret'
      cases ret.symm.trans ret'
    · intro h' ptr ret'
      cases ret.symm.trans ret'
      exact ⟨c, rfl, first, take_handed_out T first.mem first.fits⟩

theorem main_first_fit : ∃ h' c,
    myMalloc (World.after implicit (initMemory zeroed)
      (mainAllocs ++ [.free (some 132)])).heap 100 = some (h', some (c + sizeofHeader)) ∧
    HandedOut (World.after implicit (initMemory zeroed)
      (mainAllocs ++ [.free (some 132)])).heap h' c (align4 100) := by
  obtain ⟨⟨h', r, ret⟩, null, _, first⟩ := malloc_first_fit zeroed
    (mainAllocs ++ [.free (some 132)]) _ (after_run (by decide)) 100
  cases r with
  | none =>
    have full := null.mp ⟨h', ret⟩ 116 (by decide) (by decide)
    exact absurd full (by decide)
  | some ptr =>
    obtain ⟨c, rfl, _, out⟩ := first h' ptr ret
    exact ⟨h', c, ret, out⟩

end Implicit

end LearnC.FreeList
