import LearnC.Machine.Payload
import LearnC.SegFits.Calls

/-! What the callers own, stale bins or not: their payloads lie apart, and stay
where they are and as large as they are until they are freed. -/

namespace LearnC.SegFits

section
variable {h : Heap} {w w' : World} {op : Op} {ops : List Op} {b c p size : Nat}

/-- Taking a block resizes no other. -/
theorem take_size (s : Sound h) (hc : c ∈ h.blocks) (hb : b ∈ h.blocks) (ne : b ≠ c) :
    (take h c size).size b = h.size b := by
  by_cases room : splits h c size
  · have new : b ≠ c + sizeofBlock + size := by
      rintro rfl
      exact s.tiled.fresh hc room hb
    simp [take, room, split_fields, ne, new]
  · simp [take, room]

theorem myFree_size (ptr : Option Nat) : (myFree h ptr).size b = h.size b := by
  cases ptr with
  | none => rfl
  | some ptr => simp [myFree]

/-- A pointer that the call does not free stays, and so does the size of its block. -/
theorem step_keeps (inv : Inv w) (step : Step w op w') (hp : p ∈ w.live)
    (kept : op ≠ .free (some p)) :
    p ∈ w'.live ∧ w'.heap.size (p - sizeofBlock) = w.heap.size (p - sizeofBlock) := by
  obtain ⟨b, hb, used, rfl⟩ := (inv.live p).mp hp
  rw [Nat.add_sub_cancel]
  cases step with
  | malloc _ ret =>
    refine ⟨List.mem_append_right _ hp, ?_⟩
    rcases myMalloc_cases ret with ⟨_, rfl, _⟩ | ⟨c, _, rfl, found⟩
    · rfl
    · obtain ⟨hc, free, _⟩ := inv.sound.found found
      apply take_size inv.sound hc hb
      rintro rfl
      cases used.symm.trans free
  | @free ptr _ =>
    have ne : b + sizeofBlock ≠ ptr := by
      rintro rfl
      exact kept rfl
    exact ⟨(List.mem_erase_of_ne ne).mpr hp, myFree_size (some ptr)⟩
  | freeNull => exact ⟨hp, rfl⟩

theorem run_keeps (inv : Inv w) (run : Run Step w ops w') (hp : p ∈ w.live)
    (kept : ∀ op ∈ ops, op ≠ .free (some p)) :
    p ∈ w'.live ∧ w'.heap.size (p - sizeofBlock) = w.heap.size (p - sizeofBlock) := by
  have all := run.when_labels kept
  refine (run_when_invariant (I := fun v => Inv v ∧ p ∈ v.live ∧
    v.heap.size (p - sizeofBlock) = w.heap.size (p - sizeofBlock)) ⟨inv, hp, rfl⟩ ?_ all).2
  rintro v op v' ⟨inv, hp, same⟩ kept step
  obtain ⟨hp', same'⟩ := step_keeps inv step hp kept
  exact ⟨step_inv inv step, hp', same'.trans same⟩

theorem Inv.separate (inv : Inv w) :
    Separate sizeofBlock poolSize w.heap.size w.heap.blocks w.live := by
  apply Tiles.separate inv.sound.tiled (by decide)
  intro p hp
  obtain ⟨a, ha, _, e⟩ := (inv.live p).mp hp
  exact ⟨a, ha, e⟩

end

/-- In every run the blocks tile the pool, every pointer stored in a bin or a
block names a block, a new pointer is to a block that was free, and the payloads
of the live pointers lie apart, where they were and as large as they were. -/
theorem payloads_apart (garbage : Nat → Block) (ops : List Op) (w : World)
    (run : Run Step (World.init garbage) ops w) :
    Tiles sizeofBlock poolSize w.heap.size 0 w.heap.blocks ∧
    Within w.heap (· ∈ w.heap.blocks) ∧
    (∀ fuel size h ptr, myMalloc fuel w.heap size = some (h, some ptr) → ptr ∉ w.live ∧
      ∃ a ∈ w.heap.blocks, w.heap.free a = true ∧ ptr = a + sizeofBlock) ∧
    Separate sizeofBlock poolSize w.heap.size w.heap.blocks w.live ∧
    ∀ later w' p, Run Step w later w' → p ∈ w.live → (∀ op ∈ later, op ≠ .free (some p)) →
      p ∈ w'.live ∧ w'.heap.size (p - sizeofBlock) = w.heap.size (p - sizeofBlock) := by
  have inv := run_inv run
  refine ⟨inv.sound.tiled, inv.sound.within, ?_, inv.separate, ?_⟩
  · intro fuel size h ptr ret
    rcases myMalloc_cases ret with ⟨r, _⟩ | ⟨c, r, _, found⟩
    · cases r
    · cases r
      obtain ⟨hc, free, _⟩ := inv.sound.found found
      refine ⟨?_, c, hc, free, rfl⟩
      intro hp
      obtain ⟨a, _, used, e⟩ := (inv.live _).mp hp
      cases Nat.add_right_cancel e
      cases used.symm.trans free
  · intro later w' p run' hp kept
    exact run_keeps inv run' hp kept

/-- Two pointers are out after a run that leaves a stale head behind. -/
def staleCalls : List Op := [.malloc 300, .free (some 32), .malloc 32, .malloc 300]

theorem two_payloads_apart :
    Apart (payload sizeofBlock (World.after 4 staleCalls).heap.size 32)
      (payload sizeofBlock (World.after 4 staleCalls).heap.size 364) := by
  have run : Run Step (World.init zeroed) staleCalls (World.after 4 staleCalls) :=
    after_run (by decide +kernel)
  obtain ⟨_, _, _, separate, _⟩ := payloads_apart zeroed staleCalls _ run
  exact separate.apart 32 (by decide +kernel) 364 (by decide +kernel) (by decide)

end LearnC.SegFits
