import Mathlib.Data.List.Find
import LearnC.FreeList.Explicit
import LearnC.FreeList.Implicit

/-! The pool has no history: since free neighbours are always joined, the blocks in
use decide where the free blocks are, however they came about. -/

namespace LearnC.FreeList

section
variable {H B : Type} {prog : Program H B} {I : H → Prop} {h h' : H} {w w' : World H}
  {ops : List Op} {n size : Nat}

/-- The two heaps are cut into the same blocks, and the headers say the same of each. -/
structure Agree (prog : Program H B) (h h' : H) : Prop where
  blocks : prog.blocks h' = prog.blocks h
  sizes : ∀ a ∈ prog.blocks h, prog.sizeAt h' a = prog.sizeAt h a
  marks : ∀ a ∈ prog.blocks h, prog.freeAt h' a = prog.freeAt h a

theorem Tidy.determined (T : Tidy prog h) (T' : Tidy prog h') (pos : 0 < prog.hdr)
    (used : ∀ a, prog.Used h a ↔ prog.Used h' a) (keeps : Keeps prog h h') :
    Agree prog h h' := by
  have same : SameUsed (prog.sizeAt h) (prog.sizeAt h') (prog.freeAt h) (prog.freeAt h')
      (prog.blocks h) (prog.blocks h') := ⟨used, fun a ha hu => keeps a ⟨ha, hu⟩⟩
  obtain ⟨blocks, fields⟩ := Coalesced.determined same pos T.tiles T'.tiles T.apart T'.apart
  exact ⟨blocks, fun a ha => (fields a ha).1, fun a ha => (fields a ha).2⟩

/-- The same pointers are live, and their blocks have the same sizes. -/
structure SameLive (prog : Program H B) (w w' : World H) : Prop where
  live : w.live.Perm w'.live
  sizes : ∀ p ∈ w.live,
    prog.sizeAt w'.heap (p - prog.hdr) = prog.sizeAt w.heap (p - prog.hdr)

instance (prog : Program H B) (w w' : World H) : Decidable (SameLive prog w w') :=
  decidable_of_iff (w.live.Perm w'.live ∧ ∀ p ∈ w.live,
      prog.sizeAt w'.heap (p - prog.hdr) = prog.sizeAt w.heap (p - prog.hdr))
    ⟨fun h => ⟨h.1, h.2⟩, fun h => ⟨h.1, h.2⟩⟩

theorem Rules.agree (R : Rules prog I) (inv : Inv prog I w) (inv' : Inv prog I w')
    (same : SameLive prog w w') : Agree prog w.heap w'.heap := by
  have live {v : World H} (inv : Inv prog I v) (a : Nat) :
      prog.Used v.heap a ↔ a + prog.hdr ∈ v.live :=
    ⟨fun ha => (inv.held.mem _).mpr ⟨a, ha, rfl⟩, inv.held.block⟩
  apply (R.tidy _ inv.heap).determined (R.tidy _ inv'.heap) R.pos
  · intro a
    rw [live inv, live inv', same.live.mem_iff]
  · intro a ha
    have size := same.sizes (a + prog.hdr) ((live inv a).mp ha)
    rwa [Nat.add_sub_cancel] at size

theorem Agree.full (agree : Agree prog h h') : Full prog h' n ↔ Full prog h n := by
  rw [Full, Full, agree.blocks]
  refine forall₂_congr fun a ha => ?_
  rw [agree.marks a ha, agree.sizes a ha]

theorem Rules.null_iff (R : Rules prog I) (hI : I h) :
    (∃ h', prog.malloc h size = some (h', none)) ↔ Full prog h (align4 size) := by
  rcases R.malloc h size hI with ⟨full, ret⟩ | ⟨h', c, ret, _, takes⟩
  · exact ⟨fun _ => full, fun _ => ⟨h, ret⟩⟩
  · constructor
    · rintro ⟨h'', none⟩
      cases ret.symm.trans none
    · intro full
      exact absurd takes.fits (Nat.not_le.mpr (full c takes.mem takes.free))

/-- Between two states with the same pointers live, none of them freed on the way,
the rest may come and go. -/
theorem Rules.run_same_live (R : Rules prog I) (inv : Inv prog I w)
    (run : Run (Step prog) w ops w') (kept : ∀ p ∈ w.live, ∀ op ∈ ops, op ≠ .free (some p))
    (count : w'.live.length ≤ w.live.length) : SameLive prog w w' := by
  have keeps {p : Nat} (hp : p ∈ w.live) := R.run_keeps inv run hp (kept p hp)
  refine ⟨?_, fun p hp => (keeps hp).2⟩
  have sub : w.live.Subperm w'.live :=
    List.subperm_of_subset inv.held.nodup fun p hp => (keeps hp).1
  exact sub.perm_of_length_le count

end

namespace Implicit

/-- Two runs that end with the same pointers live, of blocks of the same sizes, end
with the same headers: `print_state` prints the same lines, and `my_malloc` answers
every request alike. -/
theorem heap_determined (garbage garbage' : Nat → BlockHeader) (ops ops' : List Op)
    (w w' : World Heap) (run : Run (Step implicit) (World.start (initMemory garbage)) ops w)
    (run' : Run (Step implicit) (World.start (initMemory garbage')) ops' w')
    (same : SameLive implicit w w') :
    implicit.blocks w'.heap = implicit.blocks w.heap ∧
    (∀ a ∈ implicit.blocks w.heap, w'.heap.mem a = w.heap.mem a) ∧
    printState w'.heap = printState w.heap ∧
    ∀ size, (myMalloc w'.heap size).map Prod.snd = (myMalloc w.heap size).map Prod.snd := by
  have inv := rules.run_inv (init_inv garbage) run
  have inv' := rules.run_inv (init_inv garbage') run'
  have agree := rules.agree inv inv' same
  have headers : ∀ a ∈ implicit.blocks w.heap, w'.heap.mem a = w.heap.mem a :=
    fun a ha => BlockHeader.ext (agree.sizes a ha) (agree.marks a ha)
  refine ⟨agree.blocks, headers, ?_, ?_⟩
  · rw [printState_eq inv.heap, printState_eq inv'.heap, agree.blocks]
    congr 1
    refine List.map_congr_left fun a ha => ?_
    rw [Heap.size, Heap.free, headers a ha]
    rfl
  · intro size
    have finds : (implicit.blocks w'.heap).find? (fits w'.heap (align4 size)) =
        (implicit.blocks w.heap).find? (fits w.heap (align4 size)) := by
      rw [agree.blocks]
      refine List.find?_congr fun a ha => ?_
      rw [fits, Heap.size, Heap.free, headers a ha, fits, Heap.size, Heap.free]
    have search := search_eq inv.heap (align4 size)
    have search' := search_eq inv'.heap (align4 size)
    rw [finds] at search'
    cases found : (implicit.blocks w.heap).find? (fits w.heap (align4 size)) <;>
      simp [myMalloc, search, search', found]

/-- The first block of 100 bytes is freed by itself, or in two parts. -/
theorem same_once_freed :
    implicit.blocks (World.after implicit (initMemory zeroed)
      [.malloc 40, .malloc 44, .malloc 200, .free (some 16), .free (some 72)]).heap =
    implicit.blocks (World.after implicit (initMemory zeroed)
      [.malloc 100, .malloc 200, .free (some 16)]).heap :=
  (heap_determined zeroed zeroed [.malloc 100, .malloc 200, .free (some 16)]
    [.malloc 40, .malloc 44, .malloc 200, .free (some 16), .free (some 72)] _ _
    (after_run (by decide)) (after_run (by decide)) (by decide)).1

end Implicit

namespace Explicit

section
variable {h h' : Heap}

theorem printState_eq (T : Tidy explicit h) :
    printState h = some ((explicit.blocks h).map fun a => (h.size a, h.free a)) := by
  have list : listBlocks sizeofBlock poolSize h.size turns 0 = some (explicit.blocks h) :=
    T.tiles.listBlocks (by decide) (show poolSize < turns by decide)
  simp [printState, list]

theorem Sound.same_list (s : Sound h) (s' : Sound h') (agree : Agree explicit h h') :
    ∃ xs ys, Chain h.next h.freeList xs ∧ Chain h'.next h'.freeList ys ∧ ys.Perm xs := by
  obtain ⟨xs, chain, _, nodup, mem⟩ := s.lists
  obtain ⟨ys, chain', _, nodup', mem'⟩ := s'.lists
  refine ⟨xs, ys, chain, chain', (List.perm_ext_iff_of_nodup nodup' nodup).mpr fun a => ?_⟩
  rw [mem, mem', Free, Free, agree.blocks]
  refine and_congr_right fun ha => ?_
  have mark : h'.free a = h.free a := agree.marks a ha
  rw [mark]

end

/-- Allocations made and given back leave no trace in the headers: a run from any
state that frees none of the pointers live there, and in the end has no others, ends
with the same blocks, of which the same are free and on the free list, so that the
same requests are refused. -/
theorem temporaries_vanish (garbage : Nat → Block) (ops later : List Op) (w w' : World Heap)
    (run : Run (Step explicit) (World.start (initMemory garbage)) ops w)
    (run' : Run (Step explicit) w later w')
    (kept : ∀ p ∈ w.live, ∀ op ∈ later, op ≠ .free (some p))
    (count : w'.live.length ≤ w.live.length) :
    w.live.Perm w'.live ∧
    explicit.blocks w'.heap = explicit.blocks w.heap ∧
    (∀ a ∈ explicit.blocks w.heap,
      w'.heap.size a = w.heap.size a ∧ w'.heap.free a = w.heap.free a) ∧
    printState w'.heap = printState w.heap ∧
    (∃ xs ys, Chain w.heap.next w.heap.freeList xs ∧ Chain w'.heap.next w'.heap.freeList ys ∧
      ys.Perm xs) ∧
    ∀ size, (∃ h, myMalloc w'.heap size = some (h, none)) ↔
      ∃ h, myMalloc w.heap size = some (h, none) := by
  have inv := rules.run_inv (init_inv garbage) run
  have inv' := rules.run_inv inv run'
  have same := rules.run_same_live inv run' kept count
  have agree := rules.agree inv inv' same
  refine ⟨same.live, agree.blocks, fun a ha => ⟨agree.sizes a ha, agree.marks a ha⟩, ?_,
    inv.heap.same_list inv'.heap agree, ?_⟩
  · rw [printState_eq inv.heap.tidy, printState_eq inv'.heap.tidy, agree.blocks]
    congr 1
    refine List.map_congr_left fun a ha => ?_
    have size : w'.heap.size a = w.heap.size a := agree.sizes a ha
    have mark : w'.heap.free a = w.heap.free a := agree.marks a ha
    rw [size, mark]
  · intro size
    exact (rules.null_iff inv'.heap).trans (agree.full.trans (rules.null_iff inv.heap).symm)

/-- Two blocks more, from behind the three of `main`. -/
def temporaries : List Op :=
  [.malloc 512, .malloc 60, .free (some 576), .free (some 1120), .free none]

theorem main_blocks_restored :
    ∃ w', Run (Step explicit) (World.after explicit (initMemory zeroed) mainAllocs)
        temporaries w' ∧
      explicit.blocks w'.heap =
        explicit.blocks (World.after explicit (initMemory zeroed) mainAllocs).heap := by
  let w := World.after explicit (initMemory zeroed) mainAllocs
  have count : (execute (World.call explicit) w temporaries).map (fun w => w.live.length) =
      some 3 := by decide
  obtain ⟨w', ret, three⟩ := Option.map_eq_some_iff.mp count
  have run : Run (Step explicit) w temporaries w' := execute_run (fun _ _ _ => call_step) ret
  have kept : ∀ p ∈ w.live, ∀ op ∈ temporaries, op ≠ .free (some p) := by
    have live : w.live = [480, 192, 32] := by decide
    simp [live, temporaries]
  exact ⟨w', run, (temporaries_vanish zeroed mainAllocs temporaries w w'
    (after_run (by decide)) run kept (by rw [three]; decide)).2.1⟩

end Explicit

end LearnC.FreeList
