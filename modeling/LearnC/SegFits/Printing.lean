import LearnC.SegFits.Calls

/-! `print_state` of `3.segregated_fits.c`: what it shows of the pool. -/

namespace LearnC.SegFits

/-- The loop `while (curr)`; no result when `fuel` runs out before `NULL`. -/
def printBin (h : Heap) : Nat → Option Nat → Option (List Nat)
  | _, none => some []
  | 0, some _ => none
  | fuel + 1, some curr => (printBin h fuel (h.next curr)).map (h.size curr :: ·)

/-- A line of `print_state`. -/
structure Line where
  bin : Nat
  limit : Nat
  sizes : List Nat
deriving DecidableEq

def printLine (fuel : Nat) (h : Heap) (i : Nat) : Option Line :=
  (printBin h fuel (h.classBins i)).map (⟨i, classLimits.getD i 0, ·⟩)

def printState (fuel : Nat) (h : Heap) : Option (List Line) :=
  (List.range numClasses).mapM (printLine fuel h)

def sizes (lines : List Line) : List Nat := lines.flatMap Line.sizes

section
variable {h : Heap} {w : World} {head : Option Nat} {xs : List Nat} {fuel : Nat}

theorem printBin_chain (chain : Chain h.next head xs) (enough : xs.length ≤ fuel) :
    printBin h fuel head = some (xs.map h.size) := by
  induction xs generalizing head fuel with
  | nil =>
    obtain rfl := chain_nil.mp chain
    cases fuel <;> rfl
  | cons a xs ih =>
    obtain ⟨rfl, rest⟩ := chain_cons.mp chain
    cases fuel with
    | zero => simp at enough
    | succ fuel =>
      rw [printBin, ih rest (Nat.le_of_succ_le_succ enough)]
      rfl

/-- With exact bins, what is printed is a list of the free blocks, bin by bin. -/
theorem Binned.print (binned : Binned h) : ∃ f : Nat → List Nat,
    (∀ i a, a ∈ f i ↔ InBin h i a) ∧ (∀ i, (f i).Nodup) ∧
    ∀ fuel, h.blocks.length ≤ fuel → printState fuel h = some
      ((List.range numClasses).map fun i => ⟨i, classLimits.getD i 0, (f i).map h.size⟩) := by
  choose f chain back nodup mem using binned
  refine ⟨f, mem, nodup, fun fuel enough => ?_⟩
  have line : printLine fuel h = fun i => pure ⟨i, classLimits.getD i 0, (f i).map h.size⟩ := by
    funext i
    have sub : List.Subperm (f i) h.blocks :=
      List.subperm_of_subset (nodup i) fun a ha => ((mem i a).mp ha).1
    rw [printLine, printBin_chain (chain i) (Nat.le_trans sub.length_le enough)]
    rfl
  rw [printState, line, List.mapM_pure]
  rfl

theorem bins_perm {f : Nat → List Nat} (s : Sound h) (mem : ∀ i a, a ∈ f i ↔ InBin h i a)
    (nodup : ∀ i, (f i).Nodup) :
    ((List.range numClasses).flatMap f).Perm (h.blocks.filter h.free) := by
  have apart : ((List.range numClasses).flatMap f).Nodup := by
    rw [List.nodup_flatMap]
    refine ⟨fun i _ => nodup i, List.nodup_range.pairwise_of_forall_ne fun i _ j _ ne a hi hj => ?_⟩
    exact ne (((mem i a).mp hi).unique ((mem j a).mp hj))
  apply (List.perm_ext_iff_of_nodup apart ((s.tiled.nodup (by decide)).filter _)).mpr
  intro a
  rw [List.mem_flatMap, List.mem_filter]
  constructor
  · rintro ⟨i, _, ha⟩
    obtain ⟨ha, free, _⟩ := (mem i a).mp ha
    exact ⟨ha, free⟩
  · rintro ⟨ha, free⟩
    exact ⟨_, List.mem_range.mpr (getClassId_lt _), (mem _ a).mpr ⟨ha, free, rfl⟩⟩

theorem Inv.live_perm (inv : Inv w) : w.live.Perm
    ((w.heap.blocks.filter fun a => !w.heap.free a).map (· + sizeofBlock)) := by
  have nodup := (inv.sound.tiled.nodup (by decide)).filter fun a => !w.heap.free a
  apply (List.perm_ext_iff_of_nodup inv.nodup
    (nodup.map fun a b same => Nat.add_right_cancel same)).mpr
  intro ptr
  rw [inv.live, List.mem_map]
  refine exists_congr fun a => ?_
  rw [List.mem_filter, Bool.not_eq_true', and_assoc, eq_comm (a := ptr)]

theorem Inv.accounts (inv : Inv w) : ((w.heap.blocks.filter w.heap.free).map w.heap.size).sum +
    (w.live.map fun ptr => w.heap.size (ptr - sizeofBlock)).sum +
      sizeofBlock * ((w.heap.blocks.filter w.heap.free).length + w.live.length) = poolSize := by
  have whole := Tiles.sum inv.sound.tiled
  have parts := List.filter_append_perm w.heap.free w.heap.blocks
  have bytes := (parts.map w.heap.size).sum_nat
  have number := parts.length_eq
  rw [List.map_append, List.sum_append] at bytes
  rw [List.length_append] at number
  have held : (w.live.map fun ptr => w.heap.size (ptr - sizeofBlock)).sum =
      ((w.heap.blocks.filter fun a => !w.heap.free a).map w.heap.size).sum := by
    rw [(inv.live_perm.map _).sum_nat, List.map_map]
    rfl
  have holders := inv.live_perm.length_eq
  rw [List.length_map] at holders
  rw [held, holders, number]
  omega

end

/-- After clean calls `print_state` ends and shows every free block once, on the line of its size,
and no other; what it shows, what the callers hold and the headers make up the pool. -/
theorem printed_accounts (garbage : Nat → Block) (ops : List Op) (w : World)
    (run : Run (When Clean Step) (World.init garbage) ops w) :
    ∃ lines, (∀ fuel, w.heap.blocks.length ≤ fuel → printState fuel w.heap = some lines) ∧
      lines.map Line.bin = List.range numClasses ∧
      (∀ line ∈ lines, ∀ size ∈ line.sizes, getClassId size = line.bin) ∧
      (sizes lines).Perm ((w.heap.blocks.filter w.heap.free).map w.heap.size) ∧
      (sizes lines).sum + (w.live.map fun ptr => w.heap.size (ptr - sizeofBlock)).sum +
        sizeofBlock * ((sizes lines).length + w.live.length) = poolSize := by
  obtain ⟨inv, binned⟩ := clean_run_binned run
  obtain ⟨f, mem, nodup, print⟩ := binned.print
  refine ⟨_, print, by simp [Function.comp_def], ?_, ?_⟩
  · intro line hline size hsize
    obtain ⟨i, _, rfl⟩ := List.mem_map.mp hline
    obtain ⟨a, ha, rfl⟩ := List.mem_map.mp hsize
    exact ((mem i a).mp ha).2.2
  · have free := bins_perm inv.sound mem nodup
    have shown : sizes ((List.range numClasses).map fun i =>
        ⟨i, classLimits.getD i 0, (f i).map w.heap.size⟩) =
          ((List.range numClasses).flatMap f).map w.heap.size := by
      simp [sizes, List.flatMap_map, List.map_flatMap]
    rw [shown]
    refine ⟨free.map _, ?_⟩
    rw [(free.map w.heap.size).sum_nat, List.length_map, free.length_eq]
    exact inv.accounts

/-- The block of 300 bytes is back in front of the rest of the pool, on the line with the limit
1024. -/
theorem first_run_printed : ∃ lines,
    printState 2 (World.after 4 [.malloc 300, .free (some 32)]).heap = some lines ∧
    lines.getLast? = some ⟨4, 1024, [300, 32404]⟩ ∧
    (sizes lines).sum + sizeofBlock * 2 = poolSize := by
  obtain ⟨lines, print, _, _, _, accounts⟩ := printed_accounts zeroed _ _ first_run_clean
  have live : (World.after 4 [.malloc 300, .free (some 32)]).live = [] := by decide +kernel
  have shown := print 2 (by decide +kernel)
  have last : (printState 2 (World.after 4 [.malloc 300, .free (some 32)]).heap).map
      (fun lines => (lines.getLast?, (sizes lines).length)) =
        some (some ⟨4, 1024, [300, 32404]⟩, 2) := by
    decide +kernel
  rw [shown] at last
  simp only [Option.map_some, Option.some.injEq, Prod.mk.injEq] at last
  rw [live, last.2] at accounts
  exact ⟨lines, shown, last.1, accounts⟩

end LearnC.SegFits
