import Mathlib.Data.List.Perm.Subperm
import LearnC.SegFits.Bins

/-! Searching well-formed bins, and how long they stay well formed. -/

namespace LearnC.SegFits

section
variable {h : Heap} {a b c i j left size fuel : Nat}

theorem getClassId_lt (size : Nat) : getClassId size < numClasses := by
  unfold getClassId
  cases h : classOf classLimits size with
  | none => decide
  | some i => exact classOf_lt h

theorem getClassId_mono (hle : a ≤ b) : getClassId a ≤ getClassId b := by
  have hlt := getClassId_lt a
  unfold getClassId at *
  cases hb : classOf classLimits b with
  | none => exact Nat.le_of_lt_succ hlt
  | some j =>
    cases ha : classOf classLimits a with
    | none => rw [classOf_none_mono hle ha] at hb; cases hb
    | some i => exact classOf_mono hle ha hb

theorem fits_inBin (hb : InBin h i a) : fits h size a = decide (size ≤ h.size a) := by
  simp [fits, hb.2.1]

/-- A search that ends without a block has seen every bin fail. -/
theorem search_none (w : Binned h) (ret : search h size fuel left i = some none)
    (lo : i ≤ j) (hi : j < i + left) (ha : InBin h j a) : h.size a < size := by
  induction left generalizing i with
  | zero => omega
  | succ left ih =>
    simp only [search] at ret
    split at ret
    · next scan =>
      by_cases e : j = i
      · subst e
        obtain ⟨xs, hc, _, _, hm⟩ := w j
        rw [scanBin_eq] at scan
        have none := hc.found scan
        have := List.find?_eq_none.mp none.symm a ((hm a).mpr ha)
        simpa [fits_inBin ha] using this
      · exact ih ret (by omega) (by omega)
    · next nofind => exact absurd ret (nofind · )

/-- A search that finds a block took it from the first bin with a fitting block,
and took that bin's head if the head fits. -/
theorem search_some (w : Binned h) (ret : search h size fuel left i = some (some c)) :
    ∃ j, i ≤ j ∧ InBin h j c ∧ size ≤ h.size c ∧
      (∀ k a, i ≤ k → k < j → InBin h k a → h.size a < size) ∧
      ∀ a, h.classBins j = some a → size ≤ h.size a → a = c := by
  induction left generalizing i with
  | zero => simp [search] at ret
  | succ left ih =>
    simp only [search] at ret
    obtain ⟨xs, hc, _, _, hm⟩ := w i
    split at ret
    · next scan =>
      rw [scanBin_eq] at scan
      obtain ⟨j, lo, hj, fit, before, first⟩ := ih ret
      refine ⟨j, by omega, hj, fit, ?_, first⟩
      intro k a hk hkj ha
      by_cases e : k = i
      · subst e
        have := List.find?_eq_none.mp (hc.found scan).symm a ((hm a).mpr ha)
        simpa [fits_inBin ha] using this
      · exact before k a (by omega) hkj ha
    · rw [scanBin_eq] at ret
      have find := hc.found ret
      have hmem := (hm c).mp (List.mem_of_find?_eq_some find.symm)
      have fit := List.find?_some find.symm
      rw [fits_inBin hmem] at fit
      refine ⟨i, Nat.le_refl i, hmem, by simpa using fit, fun k a lo hi => by omega, ?_⟩
      intro a head hfit
      have ha : InBin h i a := Linked.head_mem (head ▸ w i)
      cases xs with
      | nil => rw [chain_nil.mp hc] at head; cases head
      | cons x xs =>
        have eq : x = a := Option.some.inj (hc.1.symm.trans head)
        subst eq
        rw [List.find?_cons_of_pos (by simp [fits_inBin ha, hfit])] at find
        exact (Option.some.inj find).symm

/-- A list of a bin is no longer than the pool has blocks. -/
theorem Binned.scan_total (w : Binned h) (size i : Nat) :
    ∃ r, scanBin h size h.blocks.length (h.classBins i) = some r := by
  obtain ⟨xs, hc, _, nodup, hm⟩ := w i
  have sub : List.Subperm xs h.blocks := List.subperm_of_subset nodup fun a ha => ((hm a).mp ha).1
  exact ⟨_, (scanBin_eq h size _ _).trans (hc.find sub.length_le)⟩

theorem Binned.search_total (w : Binned h) (size left i : Nat) :
    ∃ r, search h size h.blocks.length left i = some r := by
  induction left generalizing i with
  | zero => exact ⟨none, rfl⟩
  | succ left ih =>
    obtain ⟨r, scan⟩ := w.scan_total size i
    simp only [search, scan]
    cases r with
    | none => exact ih (i + 1)
    | some c => exact ⟨some c, rfl⟩

end

/-! ## The one step that breaks the bins -/

/-- The request is served by cutting down the head of a bin above its class, and
the remainder belongs elsewhere: `remove_from_class` then looks for the head in
the wrong bin. -/
def StaleHead (h : Heap) (size : Nat) : Prop :=
  ∃ i c, getClassId size < i ∧
    (∀ b ∈ h.blocks, h.free b = true → getClassId (h.size b) < i → h.size b < size) ∧
    h.classBins i = some c ∧ size ≤ h.size c ∧ splits h c size ∧
    getClassId (h.size c - size - sizeofBlock) ≠ i

/-- Calls that do not cut a head out from under its bin. -/
def Clean (w : World) : Op → Prop
  | .malloc size => ¬ StaleHead w.heap (align4 size)
  | .free _ => True

theorem init_binned (garbage : Nat → Block) : Binned (World.init garbage).heap := by
  intro i
  have eq := init_blocks garbage
  have big : getClassId (poolSize - sizeofBlock) = numClasses - 1 := by decide
  have mem (a : Nat) : InBin (initMemory garbage) i a ↔ a = 0 ∧ numClasses - 1 = i := by
    simp only [InBin, eq, List.mem_singleton]
    constructor
    · rintro ⟨rfl, _, e⟩
      exact ⟨rfl, by simpa [initMemory, Heap.size, big] using e⟩
    · rintro ⟨rfl, rfl⟩
      simp [initMemory, Heap.free, Heap.size, big]
  by_cases hi : i = numClasses - 1
  · subst hi
    refine ⟨[0], ?_, ?_, List.nodup_singleton 0, fun a => by simp [World.init, mem]⟩
    · simp [World.init, initMemory, Heap.next]
    · simp [World.init, initMemory, Back, Heap.prev]
  · have none : (World.init garbage).heap.classBins i = none := by
      simp [World.init, initMemory, hi]
    rw [none]
    exact linked_none fun a ha => hi ((mem a).mp ha).2.symm

/-- The search of well-formed bins runs into a stale head exactly when the state
before the call says so. -/
theorem malloc_binned_iff {h : Heap} {c size fuel : Nat} (s : Sound h) (w : Binned h)
    (found : search h size fuel (numClasses - getClassId size) (getClassId size) =
      some (some c)) : ¬ StaleHead h size ↔ Binned (take h c size) := by
  obtain ⟨j, lo, hj, fit, before, first⟩ := search_some w found
  constructor
  · intro clean
    apply w.take s hj
    intro room head rest
    by_contra cut
    refine clean ⟨j, c, by omega, ?_, head, fit, room, rest⟩
    intro b hb hf hlt
    by_contra hge
    have := getClassId_mono (Nat.le_of_not_lt hge)
    exact hge (before _ b this hlt ⟨hb, hf, rfl⟩)
  · rintro binned ⟨i, c', lt, small, head, fit', room, rest⟩
    have hi : InBin h i c' := Linked.head_mem (head ▸ w i)
    have same : j = i := by
      rcases Nat.lt_trichotomy j i with hlt | heq | hgt
      · have := small c hj.1 hj.2.1 (by rw [hj.2.2]; exact hlt)
        omega
      · exact heq
      · have := before i c' (by omega) hgt hi
        omega
    subst same
    have eq := first c' head fit'
    subst eq
    exact take_stale s hj.1 room head rest (by omega) binned

/-- From well-formed bins, a call keeps them well formed exactly when it is clean. -/
theorem step_binned_iff {w w' : World} {op : Op} (inv : Inv w) (binned : Binned w.heap)
    (step : Step w op w') : Clean w op ↔ Binned w'.heap := by
  cases step with
  | malloc _ ret =>
    rcases myMalloc_cases ret with ⟨rfl, rfl, none⟩ | ⟨c, rfl, rfl, found⟩
    · refine ⟨fun _ => binned, ?_⟩
      rintro _ ⟨i, c, lt, _, head, fit, _, _⟩
      have hi : InBin w.heap i c := Linked.head_mem (head ▸ binned i)
      have bound := getClassId_lt (w.heap.size c)
      rw [hi.2.2] at bound
      have := search_none binned none (j := i) (by omega) (by omega) hi
      omega
    · exact malloc_binned_iff inv.sound binned found
  | free hp =>
    refine ⟨?_, fun _ => trivial⟩
    intro _
    obtain ⟨a, ha, hf, rfl⟩ := (inv.live _).mp hp
    have out (i : Nat) : ¬ InBin w.heap i a := fun hi => by rw [hi.2.1] at hf; cases hf
    have start : BinsHold (w.heap.setFree a true) (InBin w.heap) :=
      BinsHold.congr binned rfl (fun _ _ _ => by simp) (fun _ _ _ => by simp)
        fun _ _ => Iff.rfl
    simp only [myFree, Nat.add_sub_cancel]
    apply start.addToClass (fun _ _ _ => InBin.unique) out
    intro i b
    simp only [InBin, addToClass_blocks, setFree_blocks, addToClass_fields, setFree_fields]
    by_cases hb : b = a
    · subst hb
      simp [ha, hf, eq_comm]
    · simp [hb]
  | freeNull => exact ⟨fun _ => binned, fun _ => trivial⟩

theorem clean_run_binned {garbage : Nat → Block} {ops : List Op} {w : World}
    (run : Run (When Clean Step) (World.init garbage) ops w) : Inv w ∧ Binned w.heap :=
  run_when_invariant (C := Clean) (I := fun w => Inv w ∧ Binned w.heap)
    ⟨init_inv garbage, init_binned garbage⟩
    (fun _ _ _ hs clean step =>
      ⟨step_inv hs.1 step, (step_binned_iff hs.1 hs.2 step).mp clean⟩) run

end LearnC.SegFits
