import LearnC.SegFits.Reuse

/-! What a sequence of calls can rely on: exact bins, searches that end, and no
free block out of reach, as long as no call leaves a stale head behind. -/

namespace LearnC.SegFits

def World.call (fuel : Nat) (w : World) : Op → Option World
  | .malloc size =>
    if size < 2 ^ 64 then
      (myMalloc fuel w.heap size).map fun out => ⟨out.1, out.2.toList ++ w.live⟩
    else none
  | .free (some ptr) =>
    if ptr ∈ w.live then some ⟨myFree w.heap (some ptr), w.live.erase ptr⟩ else none
  | .free none => some w

theorem call_step {fuel : Nat} {w w' : World} {op : Op} (h : w.call fuel op = some w') :
    Step w op w' := by
  cases op with
  | malloc size =>
    simp only [World.call] at h
    split at h
    · next fit =>
      obtain ⟨⟨heap, r⟩, ret, rfl⟩ := Option.map_eq_some_iff.mp h
      exact .malloc fit ret
    · cases h
  | free ptr =>
    cases ptr with
    | none =>
      cases h
      exact .freeNull
    | some ptr =>
      simp only [World.call] at h
      split at h
      · next live =>
        cases h
        exact .free live
      · cases h

def zeroed : Nat → Block := fun _ => ⟨0, false, none, none⟩

/-- The runs that keep every bin exact are the runs of clean calls. -/
theorem bins_exact_iff_clean (garbage : Nat → Block) (ops : List Op) (w : World) :
    Run (Into (fun w => Binned w.heap) Step) (World.init garbage) ops w ↔
      Run (When Clean Step) (World.init garbage) ops w :=
  (run_when_iff_into (C := Clean) (I := fun w => Binned w.heap) (init_inv garbage)
    (fun _ _ _ inv step => step_inv inv step) (init_binned garbage)
    fun _ _ _ inv binned step => step_binned_iff inv binned step).symm

def World.after (fuel : Nat) (ops : List Op) : World :=
  (execute (World.call fuel) (World.init zeroed) ops).getD (World.init zeroed)

theorem after_run {fuel : Nat} {ops : List Op}
    (ret : (execute (World.call fuel) (World.init zeroed) ops).isSome = true) :
    Run Step (World.init zeroed) ops (World.after fuel ops) := by
  obtain ⟨w, hw⟩ := Option.isSome_iff_exists.mp ret
  rw [World.after, hw]
  exact execute_run (fun _ _ _ => call_step) hw

theorem after_step (fuel : Nat) (ops : List Op) (op : Op)
    (ret : (execute (World.call fuel) (World.init zeroed) (ops ++ [op])).isSome = true) :
    Step (World.after fuel ops) op (World.after fuel (ops ++ [op])) := by
  obtain ⟨w, hw⟩ := Option.isSome_iff_exists.mp ret
  rw [World.after, World.after, hw]
  obtain ⟨v, hv, call⟩ := Option.bind_eq_some_iff.mp (execute_snoc ▸ hw)
  rw [hv]
  exact call_step call

/-- A freed block of 300 bytes is cut down to 32 while it heads the last bin. -/
theorem bins_keep_allocated_head : ∃ w,
    Run Step (World.init zeroed) [.malloc 300, .free (some 32), .malloc 32] w ∧
    ¬ Binned w.heap := by
  refine ⟨World.after 4 _, after_run (by decide +kernel), ?_⟩
  intro binned
  have head : (World.after 4 [.malloc 300, .free (some 32), .malloc 32]).heap.classBins 4 =
      some 0 := by decide +kernel
  have free := (Linked.head_mem (head ▸ binned 4)).2.1
  revert free
  decide +kernel

/-- In a run of clean calls every bin's list ends, so every request is answered. -/
theorem clean_run_returns (garbage : Nat → Block) (ops : List Op) (w : World)
    (run : Run (When Clean Step) (World.init garbage) ops w) :
    (∀ i, ∃ n, (fun curr : Option Nat => curr.bind w.heap.next)^[n] (w.heap.classBins i) = none) ∧
    ∀ size, ∃ fuel, (myMalloc fuel w.heap size).isSome = true := by
  obtain ⟨_, binned⟩ := clean_run_binned run
  refine ⟨?_, fun size => ⟨w.heap.blocks.length, ?_⟩⟩
  · intro i
    obtain ⟨xs, chain, _⟩ := binned i
    exact ⟨xs.length, chain.walk⟩
  · obtain ⟨r, search⟩ := binned.search_total (align4 size)
      (numClasses - getClassId (align4 size)) (getClassId (align4 size))
    cases r <;> simp [myMalloc, search]

theorem first_call_clean : Clean (World.init zeroed) (.malloc 300) := by
  rintro ⟨i, c, _, _, head, _, _, rest⟩
  by_cases hi : i = 4
  · subst hi
    cases head
    revert rest
    decide
  · simp [World.init, initMemory, numClasses, hi] at head

theorem first_run_clean : Run (When Clean Step) (World.init zeroed) [.malloc 300, .free (some 32)]
    (World.after 4 [.malloc 300, .free (some 32)]) := by
  have first := after_step 4 [] (.malloc 300) (by decide)
  have second := after_step 4 [.malloc 300] (.free (some 32)) (by decide)
  exact (Run.nil.snoc ⟨first_call_clean, first⟩).snoc ⟨trivial, second⟩

theorem first_run_returns :
    (∀ i, ∃ n, (fun curr : Option Nat =>
      curr.bind (World.after 4 [.malloc 300, .free (some 32)]).heap.next)^[n]
        ((World.after 4 [.malloc 300, .free (some 32)]).heap.classBins i) = none) ∧
    ∀ size, ∃ fuel,
      (myMalloc fuel (World.after 4 [.malloc 300, .free (some 32)]).heap size).isSome = true :=
  clean_run_returns zeroed _ _ first_run_clean

def ringCalls : List Op :=
  [.malloc 300, .free (some 32), .malloc 32, .malloc 300, .free (some 364)]

/-- Blocks 332, 664 and 0 of the last bin point at each other in a ring, and a
request none of them can serve is searched for ever. -/
theorem search_runs_forever : ∃ w, Run Step (World.init zeroed) ringCalls w ∧
    (∀ n, (fun curr : Option Nat => curr.bind w.heap.next)^[n] (w.heap.classBins 4) ≠ none) ∧
    ∀ fuel, myMalloc fuel w.heap 32500 = none := by
  have head : (World.after 4 ringCalls).heap.classBins 4 = some 332 := by decide +kernel
  have ring : ∀ a, a ∈ [332, 664, 0] →
      fits (World.after 4 ringCalls).heap 32500 a = false ∧
      ∃ b, (World.after 4 ringCalls).heap.next a = some b ∧ b ∈ [332, 664, 0] := by
    intro a ha
    simp only [List.mem_cons, List.not_mem_nil, or_false] at ha
    rcases ha with rfl | rfl | rfl
    · exact ⟨by decide +kernel, 664, by decide +kernel, by decide⟩
    · exact ⟨by decide +kernel, 0, by decide +kernel, by decide⟩
    · exact ⟨by decide +kernel, 332, by decide +kernel, by decide⟩
  refine ⟨World.after 4 ringCalls, after_run (by decide +kernel), ?_, ?_⟩
  · intro n
    obtain ⟨b, hb, _⟩ := walk_never_ends (fun a ha => (ring a ha).2)
      (show 332 ∈ [332, 664, 0] by decide) n
    rw [head, hb]
    exact Option.some_ne_none b
  · intro fuel
    have scan := (scanBin_eq _ _ fuel _).trans
      (chainFind_never ring (show 332 ∈ [332, 664, 0] by decide) fuel)
    have size : align4 32500 = 32500 := by decide
    have classId : getClassId 32500 = 4 := by decide
    simp [myMalloc, size, classId, numClasses, search, head, scan]

/-- The call `my_malloc(size)` returns `r`. -/
def Answers (h : Heap) (size : Nat) (r : Option Nat) : Prop :=
  ∃ fuel, (myMalloc fuel h size).map Prod.snd = some r

/-- In a run of clean calls `NULL` means that no free block of the pool is large enough. -/
theorem clean_run_null (garbage : Nat → Block) (ops : List Op) (w : World)
    (run : Run (When Clean Step) (World.init garbage) ops w) (size : Nat)
    (null : Answers w.heap size none) :
    ∀ a ∈ w.heap.blocks, w.heap.free a = true → w.heap.size a < align4 size := by
  obtain ⟨_, binned⟩ := clean_run_binned run
  obtain ⟨fuel, null⟩ := null
  obtain ⟨⟨h, r⟩, ret, rfl⟩ := Option.map_eq_some_iff.mp null
  intro a ha free
  rcases myMalloc_cases ret with ⟨_, _, none⟩ | ⟨c, hr, _⟩
  · by_contra hge
    have lo := getClassId_mono (Nat.le_of_not_lt hge)
    have hi := getClassId_lt (w.heap.size a)
    exact hge (search_none binned none lo (by omega) ⟨ha, free, rfl⟩)
  · cases hr

theorem first_run_null :
    (World.after 4 [.malloc 300, .free (some 32)]).heap.size 332 < align4 40000 :=
  clean_run_null zeroed _ _ first_run_clean 40000 ⟨4, by decide +kernel⟩ 332 (by decide +kernel)
    (by decide +kernel)

/-- The block at 332, over 32000 bytes and free, drops off its bin when the stale
head before it is freed into another bin: a request for 1000 bytes gets `NULL`. -/
theorem free_block_out_of_reach : ∃ w,
    Run Step (World.init zeroed) [.malloc 300, .free (some 32), .malloc 32, .free (some 32)] w ∧
    Answers w.heap 1000 none ∧
    332 ∈ w.heap.blocks ∧ w.heap.free 332 = true ∧ align4 1000 ≤ w.heap.size 332 := by
  refine ⟨World.after 4 [.malloc 300, .free (some 32), .malloc 32, .free (some 32)],
    after_run (by decide +kernel), ⟨4, by decide +kernel⟩, by decide +kernel, by decide +kernel,
    by decide +kernel⟩

end LearnC.SegFits
