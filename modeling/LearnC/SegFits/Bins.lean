import LearnC.SegFits.Pool

/-! When the bins list exactly the free blocks of their classes, and the one way
in which `my_malloc` breaks them. -/

namespace LearnC.SegFits

/-- The blocks that belong on bin `i`. -/
def InBin (h : Heap) (i a : Nat) : Prop :=
  a ∈ h.blocks ∧ h.free a = true ∧ getClassId (h.size a) = i

/-- Every bin is a doubly linked list of exactly the free blocks of its class. -/
def Binned (h : Heap) : Prop := ∀ i, Linked h.next h.prev (h.classBins i) (InBin h i)

/-- The lists of the bins hold given sets. -/
def BinsHold (h : Heap) (P : Nat → Nat → Prop) : Prop :=
  ∀ i, Linked h.next h.prev (h.classBins i) (P i)

section
variable {h h' : Heap} {P Q : Nat → Nat → Prop} {a b c i j size : Nat}

theorem BinsHold.congr (w : BinsHold h P) (bins : h'.classBins = h.classBins)
    (next : ∀ i b, P i b → h'.next b = h.next b) (prev : ∀ i b, P i b → h'.prev b = h.prev b)
    (iff : ∀ i b, P i b ↔ Q i b) : BinsHold h' Q := by
  intro i
  rw [bins]
  exact (w i).congr (next i) (prev i) (iff i)

theorem BinsHold.addToClass (w : BinsHold h P) (one : ∀ i j b, P i b → P j b → i = j)
    (new : ∀ i, ¬ P i a)
    (iff : ∀ i b, Q i b ↔ (i = getClassId (h.size a) ∧ b = a) ∨ P i b) :
    BinsHold (SegFits.addToClass h a) Q := by
  intro i
  have away {b : Nat} (hb : P i b) : b ≠ a := fun e => new i (e ▸ hb)
  rw [addToClass_classBins, Function.update_apply]
  split
  · next hi =>
    subst hi
    refine (w (getClassId (h.size a))).push (new _) (by simp) (by simp) ?_ ?_ ?_ (by simp [iff])
    · intro b hb
      have hp : P _ b := Linked.head_mem (hb ▸ w _)
      simp [away hp, hb]
    · intro b hb
      simp [away hb]
    · intro b hb hh
      simp [away hb, hh]
  · next hi =>
    refine (w i).congr (fun b hb => by simp [away hb]) ?_ (fun b => by simp [iff, hi])
    intro b hb
    have hh : h.classBins (getClassId (h.size a)) ≠ some b := by
      intro e
      exact hi (one _ _ b hb (Linked.head_mem (e ▸ w _)))
    simp [away hb, hh]

/-- A block leaves its bin, provided that a head is found through the bin of its
present size. -/
theorem BinsHold.removeFromClass (w : BinsHold h P) (one : ∀ i j b, P i b → P j b → i = j)
    (hc : P i c) (head : h.classBins i = some c → getClassId (h.size c) = i)
    (iff : ∀ i b, Q i b ↔ b ≠ c ∧ P i b) : BinsHold (SegFits.removeFromClass h c) Q := by
  intro j
  have bin : (SegFits.removeFromClass h c).classBins j =
      if h.classBins j = some c then h.next c else h.classBins j := by
    rw [removeFromClass_classBins]
    by_cases hj : h.classBins j = some c
    · have eq : j = i := one j i c (Linked.head_mem (hj ▸ w j)) hc
      subst eq
      simp [head hj, hj]
    · rw [if_neg hj, if_neg]
      rintro ⟨e, e'⟩
      exact hj (e ▸ e')
  rw [bin]
  by_cases hj : j = i
  · subst hj
    exact (w j).unlink hc (fun b _ _ => removeFromClass_fields.2.2.1)
      (fun b _ _ => removeFromClass_fields.2.2.2) (iff j)
  · have out (b : Nat) (hb : P j b) : h.prev c ≠ some b ∧ h.next c ≠ some b :=
      ⟨fun e => hj (one j i b hb ((w i).prev_mem hc e)),
        fun e => hj (one j i b hb ((w i).next_mem hc e))⟩
    have hh : h.classBins j ≠ some c := fun e => hj (one j i c (Linked.head_mem (e ▸ w j)) hc)
    rw [if_neg hh]
    refine (w j).congr (fun b hb => by simp [out b hb]) (fun b hb => by simp [out b hb])
      fun b => ⟨fun hb => (iff j b).mpr ⟨?_, hb⟩, fun hb => ((iff j b).mp hb).2⟩
    rintro rfl
    exact hj (one j i b hb hc)

theorem InBin.unique (hi : InBin h i a) (hj : InBin h j a) : i = j := hi.2.2.symm.trans hj.2.2

/-- Block `b` belongs on bin `i` once the end of `c` is a block of its own. -/
def InBinSplit (h : Heap) (c size i b : Nat) : Prop :=
  (i = getClassId (h.size c - size - sizeofBlock) ∧ b = c + sizeofBlock + size) ∨ InBin h i b

theorem InBinSplit.unique (fresh : c + sizeofBlock + size ∉ h.blocks)
    (hi : InBinSplit h c size i b) (hj : InBinSplit h c size j b) : i = j := by
  rcases hi with ⟨rfl, rfl⟩ | hi <;> rcases hj with ⟨rfl, e⟩ | hj
  · rfl
  · exact absurd hj.1 fresh
  · exact absurd (e ▸ hi.1) fresh
  · exact hi.unique hj

/-- The remainder goes onto its bin while the block is still on its own. -/
theorem Binned.split (w : Binned h) (fresh : c + sizeofBlock + size ∉ h.blocks) :
    BinsHold (SegFits.split h c size) (InBinSplit h c size) := by
  have start : BinsHold (h.set (c + sizeofBlock + size)
      ⟨h.size c - size - sizeofBlock, true, none, none⟩) (InBin h) := by
    have away : ∀ j b, InBin h j b → b ≠ c + sizeofBlock + size := by
      rintro j b hb rfl
      exact fresh hb.1
    refine BinsHold.congr w rfl ?_ ?_ fun _ _ => Iff.rfl
    · intro j b hb
      simp [away j b hb]
    · intro j b hb
      simp [away j b hb]
  have added := start.addToClass (fun _ _ _ => InBin.unique) (fun j hj => fresh hj.1)
    fun _ _ => Iff.rfl
  exact added.congr rfl (fun _ _ _ => by simp [SegFits.split])
    (fun _ _ _ => by simp [SegFits.split]) fun j b => by simp [InBinSplit]

theorem Binned.take_split (w : Binned h) (s : Sound h) (hc : InBin h i c)
    (room : splits h c size)
    (ok : h.classBins i = some c →
      getClassId (h.size c - size - sizeofBlock) ≠ i → getClassId size = i) :
    Binned (SegFits.take h c size) := by
  obtain ⟨_, blocks, marks⟩ := s.take size hc.1
  have fresh := s.tiled.fresh hc.1 room
  have ne : c ≠ c + sizeofBlock + size := fun e => fresh (e ▸ hc.1)
  have marked : BinsHold ((SegFits.split h c size).setFree c false) (InBinSplit h c size) :=
    (w.split fresh).congr rfl (fun _ _ _ => by simp) (fun _ _ _ => by simp) fun _ _ => Iff.rfl
  have removed := marked.removeFromClass (fun _ _ _ => InBinSplit.unique fresh) (Or.inr hc)
    (fun head => by
      simp only [setFree_classBins, split_classBins, Function.update_apply] at head
      split at head
      · exact absurd (Option.some.inj head).symm ne
      · next hi => simpa [split_fields] using ok head fun e => hi e.symm)
    fun _ _ => Iff.rfl
  apply removed.congr (by simp [SegFits.take, room])
    (fun _ _ _ => by simp [SegFits.take, room]) (fun _ _ _ => by simp [SegFits.take, room])
  intro j b
  have sizes : (SegFits.take h c size).size b = (SegFits.split h c size).size b := by
    simp [SegFits.take, room]
  simp only [InBinSplit, InBin, blocks, marks, sizes, split_fields, room, true_and]
  by_cases hb : b = c
  · simp [hb]
  · by_cases hn : b = c + sizeofBlock + size
    · subst hn
      simp only [ne_eq, hb, not_false_eq_true, and_true, fresh, false_and, or_false, true_and,
        ↓reduceIte]
      exact eq_comm
    · simp [hb, hn]

theorem Binned.take_whole (w : Binned h) (s : Sound h) (hc : InBin h i c)
    (room : ¬ splits h c size) : Binned (SegFits.take h c size) := by
  obtain ⟨_, blocks, marks⟩ := s.take size hc.1
  have marked : BinsHold (h.setFree c false) (InBin h) :=
    BinsHold.congr w rfl (fun _ _ _ => by simp) (fun _ _ _ => by simp) fun _ _ => Iff.rfl
  have removed := marked.removeFromClass (fun _ _ _ => InBin.unique) hc
    (fun _ => by simpa using hc.2.2) fun _ _ => Iff.rfl
  apply removed.congr (by simp [SegFits.take, room])
    (fun _ _ _ => by simp [SegFits.take, room]) (fun _ _ _ => by simp [SegFits.take, room])
  intro j b
  have sizes : (SegFits.take h c size).size b = h.size b := by simp [SegFits.take, room]
  simp only [InBin, blocks, marks, sizes, room, false_and, false_or, ↓reduceIte]
  by_cases hb : b = c <;> simp [hb]

/-- Removing the block that is taken works unless the block heads its bin, is cut
down to another class, and leaves a remainder of another class. -/
theorem Binned.take (w : Binned h) (s : Sound h) (hc : InBin h i c)
    (ok : splits h c size → h.classBins i = some c →
      getClassId (h.size c - size - sizeofBlock) ≠ i → getClassId size = i) :
    Binned (SegFits.take h c size) := by
  by_cases room : splits h c size
  · exact w.take_split s hc room (ok room)
  · exact w.take_whole s hc room

/-- Where that fails, the bin keeps the block that was handed out as its head. -/
theorem take_stale (s : Sound h) (hc : c ∈ h.blocks) (room : splits h c size)
    (head : h.classBins i = some c) (rest : getClassId (h.size c - size - sizeofBlock) ≠ i)
    (cut : getClassId size ≠ i) : ¬ Binned (take h c size) := by
  intro w
  have bin : (take h c size).classBins i = some c := by
    simp only [take, room, ↓reduceIte]
    rw [removeFromClass_classBins, if_neg]
    · simp [rest.symm, head]
    · simp [split_fields, cut.symm]
  have := (Linked.head_mem (bin ▸ w i)).2.1
  rw [(s.take size hc).2.2 c] at this
  simp at this

end

end LearnC.SegFits
