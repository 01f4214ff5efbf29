import LearnC.FreeList.Requests
import LearnC.SegFits.Requests

/-! The three allocators with headers in the pool, on what they have in common:
`ALIGN4` on the request, and a split behind it. -/

namespace LearnC.Heaps

open FreeList (Honours HeadersAligned EvenCut)
open FreeList.Implicit (implicit)
open FreeList.Explicit (explicit)

/-- Which requests are honoured: those that `ALIGN4` does not wrap to nothing, and
those it does when there is no free block to hand out. -/
theorem request_honoured_iff (size : Nat) (fit : size < 2 ^ 64) :
    (∀ garbage ops w,
      Run (FreeList.Step implicit) (.start (FreeList.Implicit.initMemory garbage)) ops w →
      (Honours implicit w.heap size ↔ size + 3 < 2 ^ 64 ∨
        ∀ a ∈ implicit.blocks w.heap, w.heap.free a = false)) ∧
    (∀ garbage ops w,
      Run (FreeList.Step explicit) (.start (FreeList.Explicit.initMemory garbage)) ops w →
      (Honours explicit w.heap size ↔ size + 3 < 2 ^ 64 ∨
        ∀ a ∈ explicit.blocks w.heap, w.heap.free a = false)) ∧
    ∀ garbage ops w, Run SegFits.Step (SegFits.World.init garbage) ops w →
      (SegFits.Honours w.heap size ↔ size + 3 < 2 ^ 64 ∨ ∀ a, ¬ SegFits.Offered w.heap a) := by
  refine ⟨?_, ?_, ?_⟩
  · intro garbage ops w run
    have inv := FreeList.Implicit.rules.run_inv (FreeList.Implicit.init_inv garbage) run
    exact FreeList.Implicit.rules.honours_iff inv.heap fit
  · intro garbage ops w run
    have inv := FreeList.Explicit.rules.run_inv (FreeList.Explicit.init_inv garbage) run
    exact FreeList.Explicit.rules.honours_iff inv.heap fit
  · intro garbage ops w run
    exact SegFits.honours_iff (SegFits.run_inv run).sound fit

theorem main_request_honoured :
    Honours implicit (FreeList.World.after implicit
      (FreeList.Implicit.initMemory FreeList.Implicit.zeroed) FreeList.Implicit.mainAllocs).heap
      400 :=
  ((request_honoured_iff 400 (by decide)).1 _ _ _
    (FreeList.after_run (by decide))).mpr (Or.inl (by decide))

theorem largest_request_served :
    (∃ h, FreeList.Implicit.myMalloc (FreeList.Implicit.initMemory FreeList.Implicit.zeroed)
      (2 ^ 64 - 1) = some (h, some 16) ∧ h.size 0 = 0) ∧
    (∃ h, FreeList.Explicit.myMalloc
      (FreeList.Explicit.initMemory fun _ => ⟨0, false, none, none⟩)
      (2 ^ 64 - 1) = some (h, some 32) ∧ h.size 0 = 0) ∧
    ∃ h, SegFits.myMalloc 1 (SegFits.initMemory SegFits.zeroed)
      (2 ^ 64 - 1) = some (h, some 32) ∧ h.size 0 = 0 := by
  refine ⟨⟨_, rfl, ?_⟩, ⟨_, rfl, ?_⟩, ⟨_, rfl, ?_⟩⟩
  · decide
  · decide
  · decide

/-- The runs in which every header stands at a multiple of 8 are those in which no
block is cut at an odd multiple of 4. -/
theorem headers_aligned_iff (garbage : Nat → FreeList.Implicit.BlockHeader)
    (garbage' : Nat → FreeList.Explicit.Block) (garbage'' : Nat → SegFits.Block) :
    (∀ ops w, Run (Into (fun w => HeadersAligned implicit w.heap) (FreeList.Step implicit))
        (.start (FreeList.Implicit.initMemory garbage)) ops w ↔
      Run (When (EvenCut implicit FreeList.Implicit.finds) (FreeList.Step implicit))
        (.start (FreeList.Implicit.initMemory garbage)) ops w) ∧
    (∀ ops w, Run (Into (fun w => HeadersAligned explicit w.heap) (FreeList.Step explicit))
        (.start (FreeList.Explicit.initMemory garbage')) ops w ↔
      Run (When (EvenCut explicit FreeList.Explicit.finds) (FreeList.Step explicit))
        (.start (FreeList.Explicit.initMemory garbage')) ops w) ∧
    ∀ ops w, Run (Into (fun w => SegFits.HeadersAligned w.heap) SegFits.Step)
        (SegFits.World.init garbage'') ops w ↔
      Run (When SegFits.EvenCut SegFits.Step) (SegFits.World.init garbage'') ops w := by
  refine ⟨?_, ?_, ?_⟩
  · intro ops w
    have inv := FreeList.Implicit.init_inv garbage
    have idle := (FreeList.Implicit.rules.idle inv rfl).1
    exact FreeList.Implicit.cuts.aligned_iff FreeList.Implicit.rules (by decide) inv
      (FreeList.start_aligned idle) ops
  · intro ops w
    have inv := FreeList.Explicit.init_inv garbage'
    have idle := (FreeList.Explicit.rules.idle inv rfl).1
    exact FreeList.Explicit.cuts.aligned_iff FreeList.Explicit.rules (by decide) inv
      (FreeList.start_aligned idle) ops
  · exact SegFits.aligned_iff garbage''

theorem small_request_misaligns :
    (∃ w, Run (FreeList.Step implicit)
      (.start (FreeList.Implicit.initMemory FreeList.Implicit.zeroed)) [.malloc 4] w ∧
      20 ∈ implicit.blocks w.heap ∧ ¬ HeadersAligned implicit w.heap) ∧
    (∃ w, Run (FreeList.Step explicit)
      (.start (FreeList.Explicit.initMemory fun _ => ⟨0, false, none, none⟩)) [.malloc 4] w ∧
      36 ∈ explicit.blocks w.heap ∧ ¬ HeadersAligned explicit w.heap) ∧
    ∃ w, Run SegFits.Step (SegFits.World.init SegFits.zeroed) [.malloc 4] w ∧
      36 ∈ w.heap.blocks ∧ ¬ SegFits.HeadersAligned w.heap := by
  have odd {P : Nat → Prop} {n : Nat} (hn : P n) (rem : ¬ 8 ∣ n) :
      P n ∧ ¬ ∀ a, P a → 8 ∣ a := ⟨hn, fun all => rem (all n hn)⟩
  refine ⟨⟨_, FreeList.after_run (by decide), odd (n := 20) ?_ (by decide)⟩,
    ⟨_, FreeList.after_run (by decide), odd (n := 36) ?_ (by decide)⟩,
    ⟨SegFits.World.after 1 _, SegFits.after_run (by decide), odd (n := 36) ?_ (by decide)⟩⟩
  · decide
  · decide
  · decide

end LearnC.Heaps
