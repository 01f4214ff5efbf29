import LearnC.SegFits.Payloads

/-! Nothing joins blocks of `3.segregated_fits.c` again: the pool is only ever cut
finer, whatever is freed. -/

namespace LearnC.SegFits

/-- The blocks of `h'` are those of `h`, some of them cut up. -/
abbrev CutFrom (h h' : Heap) : Prop :=
  Finer sizeofBlock h.size h'.size h.blocks h'.blocks

section
variable {h : Heap} {w w' : World} {op : Op} {ops : List Op} {c size : Nat}

theorem take_finer (s : Sound h) (hc : c ∈ h.blocks) (fits : size ≤ h.size c) :
    CutFrom h (take h c size) := by
  obtain ⟨_, blocks, _⟩ := s.take size hc
  have smaller : ∀ a ∈ h.blocks, (take h c size).size a ≤ h.size a := by
    intro a ha
    by_cases eq : a = c
    · subst eq
      by_cases room : splits h a size <;> simp [take, room, split_fields, fits]
    · exact Nat.le_of_eq (take_size s hc ha eq)
  constructor
  · intro a ha
    exact ⟨(blocks a).mpr (Or.inr ha), smaller a ha⟩
  · intro b hb
    rcases (blocks b).mp hb with ⟨room, rfl⟩ | old
    · have ne : c + sizeofBlock + size ≠ c := by
        simp only [sizeofBlock]
        omega
      have rest : (take h c size).size (c + sizeofBlock + size) =
          h.size c - size - sizeofBlock := by simp [take, room, split_fields, ne]
      simp only [splits] at room
      exact ⟨c, hc, by omega, by omega⟩
    · exact ⟨b, old, Nat.le_refl b, Nat.add_le_add_left (smaller b old) _⟩

theorem step_finer (inv : Inv w) (step : Step w op w') : CutFrom w.heap w'.heap := by
  cases step with
  | malloc _ ret =>
    rcases myMalloc_cases ret with ⟨_, rfl, _⟩ | ⟨c, _, rfl, found⟩
    · exact Finer.refl ..
    · obtain ⟨hc, _, fits⟩ := inv.sound.found found
      exact take_finer inv.sound hc fits
  | @free ptr _ =>
    have sizes : (myFree w.heap (some ptr)).size = w.heap.size :=
      funext fun _ => myFree_size (some ptr)
    rw [CutFrom, Heap.blocks, Heap.blocks, sizes]
    exact Finer.refl ..
  | freeNull => exact Finer.refl ..

theorem run_finer (inv : Inv w) (run : Run Step w ops w') : CutFrom w.heap w'.heap := by
  refine (run.invariant (I := fun v => Inv v ∧ CutFrom w.heap v.heap)
    ⟨inv, Finer.refl ..⟩ ?_).2
  rintro v op v' ⟨inv, finer⟩ step
  exact ⟨step_inv inv step, finer.trans (step_finer inv step)⟩

theorem Inv.served (inv : Inv w) {ptr : Nat} (ret : Answers w.heap size (some ptr)) :
    ∃ a ∈ w.heap.blocks, align4 size ≤ w.heap.size a := by
  obtain ⟨fuel, ret⟩ := ret
  obtain ⟨⟨h, r⟩, ret, rfl⟩ := Option.map_eq_some_iff.mp ret
  rcases myMalloc_cases ret with ⟨null, _⟩ | ⟨c, _, _, found⟩
  · cases null
  · obtain ⟨hc, _, fits⟩ := inv.sound.found found
    exact ⟨c, hc, fits⟩

end

/-- From any state on, every block header stays where it is and no block grows: the
blocks of any later state lie inside those of this one. So a request whose rounded size is more
than the longest block, free or not, is never served again, even when all is freed. -/
theorem cuts_final (garbage : Nat → Block) (ops later : List Op) (w w' : World)
    (run : Run Step (World.init garbage) ops w) (run' : Run Step w later w') :
    (∀ a ∈ w.heap.blocks, a ∈ w'.heap.blocks ∧ w'.heap.size a ≤ w.heap.size a) ∧
    (∀ b ∈ w'.heap.blocks, ∃ a ∈ w.heap.blocks,
      a ≤ b ∧ b + sizeofBlock + w'.heap.size b ≤ a + sizeofBlock + w.heap.size a) ∧
    ∀ size, (∀ a ∈ w.heap.blocks, w.heap.size a < align4 size) →
      ∀ ptr, ¬ Answers w'.heap size (some ptr) := by
  have inv := run_inv run
  have finer := run_finer inv run'
  have inv' : Inv w' := run'.invariant inv fun _ _ _ inv step => step_inv inv step
  refine ⟨finer.kept, finer.inside, ?_⟩
  intro size short ptr ret
  obtain ⟨b, hb, fits⟩ := inv'.served ret
  exact absurd (finer.shorter short b hb) (Nat.not_lt.mpr fits)

/-- 32500 bytes fit the new pool, but not once a block of 300 came and went. -/
theorem whole_pool_lost :
    ¬ ∃ ptr, Answers (World.after 4 [.malloc 300, .free (some 32)]).heap 32500 (some ptr) := by
  rintro ⟨ptr, ret⟩
  have first : Run Step (World.init zeroed) [.malloc 300] (World.after 4 [.malloc 300]) :=
    after_run (by decide +kernel)
  have freed : Run Step (World.after 4 [.malloc 300]) [.free (some 32)]
      (World.after 4 [.malloc 300, .free (some 32)]) :=
    Run.nil.snoc (after_step 4 [.malloc 300] (.free (some 32)) (by decide +kernel))
  exact (cuts_final zeroed _ _ _ _ first freed).2.2 32500 (by decide +kernel) ptr ret

end LearnC.SegFits
