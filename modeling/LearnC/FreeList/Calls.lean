import Mathlib.Algebra.GroupWithZero.Nat
import LearnC.Machine.Coalesce
import LearnC.Machine.Payload
import LearnC.Machine.Run

/-! The two allocators that join free neighbours, `1.implicit_free_list.c` and
`2.explicit_free_list.c`: their calls, and what their callers can rely on. A
pointer into the pool is its offset from `memory_pool`; sizes and offsets are
those of a 64-bit machine. -/

namespace LearnC.FreeList

def poolSize : Nat := 1024 * 10

/-- `ALIGN4` on `size_t`: the sum wraps, and `& ~3` clears the two low bits. -/
def align4 (x : Nat) : Nat := (x + 3) % 2 ^ 64 / 4 * 4

/-- No loop over blocks of the pool takes more turns. -/
def turns : Nat := poolSize + 1

/-- An allocator with the block headers in the pool. A call has no result when one
of its loops does not end, or reads a header that is not inside the pool. -/
structure Program (H B : Type) where
  hdr : Nat
  size : B → Nat
  isFree : B → Bool
  mem : H → Nat → B
  setMem : H → (Nat → B) → H
  malloc : H → Nat → Option (H × Option Nat)
  free : H → Option Nat → Option H

structure World (H : Type) where
  heap : H
  live : List Nat

inductive Op where
  | malloc (size : Nat)
  | free (ptr : Option Nat)
  | write (ptr : Nat)

section
variable {H B : Type}

def Program.sizeAt (prog : Program H B) (h : H) (a : Nat) : Nat := prog.size (prog.mem h a)

def Program.freeAt (prog : Program H B) (h : H) (a : Nat) : Bool := prog.isFree (prog.mem h a)

/-- The headers met by stepping from block to block. -/
def Program.blocks (prog : Program H B) (h : H) : List Nat :=
  tileWalk prog.hdr poolSize (prog.sizeAt h) poolSize 0

/-- The header of an allocated block. -/
def Program.Used (prog : Program H B) (h : H) (a : Nat) : Prop :=
  a ∈ prog.blocks h ∧ prog.freeAt h a = false

/-- One call that returns: the callers free live pointers or `NULL`. Between calls
the owner of a pointer stores what it likes in its payload. -/
inductive Step (prog : Program H B) : World H → Op → World H → Prop
  | malloc {w : World H} {size : Nat} {h : H} {r : Option Nat} (fit : size < 2 ^ 64)
      (ret : prog.malloc w.heap size = some (h, r)) :
      Step prog w (.malloc size) ⟨h, r.toList ++ w.live⟩
  | free {w : World H} {ptr : Nat} {h : H} (live : ptr ∈ w.live)
      (ret : prog.free w.heap (some ptr) = some h) :
      Step prog w (.free (some ptr)) ⟨h, w.live.erase ptr⟩
  | freeNull {w : World H} {h : H} (ret : prog.free w.heap none = some h) :
      Step prog w (.free none) ⟨h, w.live⟩
  | write {w : World H} {ptr : Nat} {mem : Nat → B} (live : ptr ∈ w.live)
      (same : ∀ a, a + prog.hdr ≤ ptr ∨ ptr + prog.sizeAt w.heap (ptr - prog.hdr) ≤ a →
        mem a = prog.mem w.heap a) :
      Step prog w (.write ptr) ⟨prog.setMem w.heap mem, w.live⟩

def World.start (h : H) : World H := ⟨h, []⟩

/-! ## What the calls do -/

/-- Every allocated block keeps its size. -/
def Keeps (prog : Program H B) (h h' : H) : Prop :=
  ∀ a, prog.Used h a → prog.sizeAt h' a = prog.sizeAt h a

/-- The free block `c` is handed out for `n` bytes. -/
structure Takes (prog : Program H B) (h h' : H) (c n : Nat) : Prop where
  mem : c ∈ prog.blocks h
  free : prog.freeAt h c = true
  fits : n ≤ prog.sizeAt h c
  room : n ≤ prog.sizeAt h' c
  used : ∀ a, prog.Used h' a ↔ a = c ∨ prog.Used h a
  keeps : Keeps prog h h'

/-- The block `a` is taken back; free blocks may be joined. -/
structure Frees (prog : Program H B) (h h' : H) (a : Nat) : Prop where
  used : ∀ b, prog.Used h' b ↔ b ≠ a ∧ prog.Used h b
  keeps : ∀ b, b ≠ a → prog.Used h b → prog.sizeAt h' b = prog.sizeAt h b

/-- No free block of the walk is large enough. -/
def Full (prog : Program H B) (h : H) (n : Nat) : Prop :=
  ∀ a ∈ prog.blocks h, prog.freeAt h a = true → prog.sizeAt h a < n

/-- The pool is cut into blocks from end to end, and free blocks have no free neighbours. -/
structure Tidy (prog : Program H B) (h : H) : Prop where
  tiles : Tiles prog.hdr poolSize (prog.sizeAt h) 0 (prog.blocks h)
  apart : Coalesced prog.hdr (prog.sizeAt h) (prog.freeAt h) (prog.blocks h)

/-- `I` holds of the heap in every run, and says this of every call. -/
structure Rules (prog : Program H B) (I : H → Prop) : Prop where
  pos : 0 < prog.hdr
  mem_setMem : ∀ h mem, prog.mem (prog.setMem h mem) = mem
  tidy : ∀ h, I h → Tidy prog h
  malloc : ∀ h size, I h →
    (Full prog h (align4 size) ∧ prog.malloc h size = some (h, none)) ∨
    ∃ h' c, prog.malloc h size = some (h', some (c + prog.hdr)) ∧ I h' ∧
      Takes prog h h' c (align4 size)
  free : ∀ h a, I h → prog.Used h a → ∃ h', prog.free h (some (a + prog.hdr)) = some h' ∧
    I h' ∧ Frees prog h h' a
  freeNull : ∀ h, prog.free h none = some h
  write : ∀ h mem, I h → (∀ a ∈ prog.blocks h, mem a = prog.mem h a) → I (prog.setMem h mem)

section
variable {prog : Program H B} {I : H → Prop} {h₀ h h' : H} {w w' : World H} {op : Op}
  {ops : List Op} {a c p n size : Nat}

theorem blocks_of_tiles {xs : List Nat} (pos : 0 < prog.hdr)
    (t : Tiles prog.hdr poolSize (prog.sizeAt h) 0 xs) : prog.blocks h = xs :=
  t.walk pos (by omega)

/-- What holds in every run: the callers hold exactly the blocks in use. -/
structure Inv (prog : Program H B) (I : H → Prop) (w : World H) : Prop where
  heap : I w.heap
  held : Held prog.hdr (prog.Used w.heap) w.live

theorem Inv.block (inv : Inv prog I w) (hp : p ∈ w.live) :
    ∃ a, prog.Used w.heap a ∧ p = a + prog.hdr := (inv.held.mem p).mp hp

/-- Stores into the payload of a block reach no header. -/
theorem Tidy.write_headers (T : Tidy prog h) (pos : 0 < prog.hdr) (ha : prog.Used h a)
    {mem : Nat → B}
    (same : ∀ b, b + prog.hdr ≤ a + prog.hdr ∨ a + prog.hdr + prog.sizeAt h a ≤ b →
      mem b = prog.mem h b) : ∀ b ∈ prog.blocks h, mem b = prog.mem h b := by
  intro b hb
  apply same
  rcases Nat.lt_or_ge a b with lt | le
  · exact Or.inr (T.tiles.apart pos ha.1 hb lt)
  · exact Or.inl (by omega)

/-- The headers decide which blocks there are, and which of them are in use. -/
theorem Tidy.same_headers (T : Tidy prog h) (pos : 0 < prog.hdr) (h' : H)
    (same : ∀ b ∈ prog.blocks h, prog.mem h' b = prog.mem h b) :
    Tidy prog h' ∧ prog.blocks h' = prog.blocks h ∧ (∀ a, prog.Used h' a ↔ prog.Used h a) ∧
      Keeps prog h h' := by
  have sizes : ∀ b ∈ prog.blocks h, prog.sizeAt h' b = prog.sizeAt h b := by
    intro b hb
    rw [Program.sizeAt, same b hb, Program.sizeAt]
  have marks : ∀ b ∈ prog.blocks h, prog.freeAt h' b = prog.freeAt h b := by
    intro b hb
    rw [Program.freeAt, same b hb, Program.freeAt]
  have t := T.tiles.congr sizes
  have blocks := blocks_of_tiles pos t
  refine ⟨⟨by rw [blocks]; exact t, ?_⟩, blocks, ?_, fun a ha => sizes a ha.1⟩
  · rw [blocks]
    exact T.apart.congr sizes marks
  · intro a
    rw [Program.Used, Program.Used, blocks]
    exact and_congr_right fun ha => by rw [marks a ha]

theorem Rules.step_inv (R : Rules prog I) (inv : Inv prog I w) (step : Step prog w op w') :
    Inv prog I w' := by
  cases step with
  | @malloc size _ _ _ ret =>
    rcases R.malloc w.heap size inv.heap with ⟨_, ret'⟩ | ⟨h', c, ret', hI, takes⟩
    · cases ret.symm.trans ret'
      exact ⟨inv.heap, inv.held⟩
    · cases ret.symm.trans ret'
      refine ⟨hI, inv.held.malloc ?_ takes.used⟩
      rintro ⟨_, used⟩
      cases used.symm.trans takes.free
  | free hp ret =>
    obtain ⟨a, ha, rfl⟩ := inv.block hp
    obtain ⟨h', ret', hI, frees⟩ := R.free w.heap a inv.heap ha
    cases ret.symm.trans ret'
    exact ⟨hI, inv.held.free frees.used⟩
  | freeNull ret =>
    cases ret.symm.trans (R.freeNull w.heap)
    exact inv
  | write hp same =>
    obtain ⟨a, ha, rfl⟩ := inv.block hp
    rw [Nat.add_sub_cancel] at same
    have headers := (R.tidy w.heap inv.heap).write_headers R.pos ha same
    refine ⟨R.write w.heap _ inv.heap headers, ?_⟩
    obtain ⟨_, _, used, _⟩ := (R.tidy w.heap inv.heap).same_headers R.pos
      (prog.setMem w.heap _) (by rw [R.mem_setMem]; exact headers)
    exact inv.held.congr used

theorem Rules.step_keeps (R : Rules prog I) (inv : Inv prog I w) (step : Step prog w op w')
    (hp : p ∈ w.live) (kept : op ≠ .free (some p)) :
    p ∈ w'.live ∧ prog.sizeAt w'.heap (p - prog.hdr) = prog.sizeAt w.heap (p - prog.hdr) := by
  obtain ⟨b, hb, rfl⟩ := inv.block hp
  rw [Nat.add_sub_cancel]
  cases step with
  | @malloc size _ _ _ ret =>
    refine ⟨List.mem_append_right _ hp, ?_⟩
    rcases R.malloc w.heap size inv.heap with ⟨_, ret'⟩ | ⟨h', c, ret', _, takes⟩
    · cases ret.symm.trans ret'
      rfl
    · cases ret.symm.trans ret'
      exact takes.keeps b hb
  | @free ptr _ hptr ret =>
    obtain ⟨a, ha, rfl⟩ := inv.block hptr
    obtain ⟨h', ret', _, frees⟩ := R.free w.heap a inv.heap ha
    cases ret.symm.trans ret'
    have ne : b ≠ a := by
      rintro rfl
      exact kept rfl
    refine ⟨(List.mem_erase_of_ne ?_).mpr hp, frees.keeps b ne hb⟩
    exact fun e => ne (Nat.add_right_cancel e)
  | freeNull ret =>
    cases ret.symm.trans (R.freeNull w.heap)
    exact ⟨hp, rfl⟩
  | write hptr same =>
    obtain ⟨a, ha, rfl⟩ := inv.block hptr
    rw [Nat.add_sub_cancel] at same
    have headers := (R.tidy w.heap inv.heap).write_headers R.pos ha same
    refine ⟨hp, ?_⟩
    rw [Program.sizeAt, R.mem_setMem, headers b hb.1]
    rfl

theorem Rules.run_inv (R : Rules prog I) (init : Inv prog I w) (run : Run (Step prog) w ops w') :
    Inv prog I w' :=
  run.invariant init fun _ _ _ inv step => R.step_inv inv step

theorem Rules.run_keeps (R : Rules prog I) (inv : Inv prog I w)
    (run : Run (Step prog) w ops w') (hp : p ∈ w.live)
    (kept : ∀ op ∈ ops, op ≠ .free (some p)) :
    p ∈ w'.live ∧ prog.sizeAt w'.heap (p - prog.hdr) = prog.sizeAt w.heap (p - prog.hdr) := by
  have all := run.when_labels kept
  refine (run_when_invariant (I := fun v => Inv prog I v ∧ p ∈ v.live ∧
    prog.sizeAt v.heap (p - prog.hdr) = prog.sizeAt w.heap (p - prog.hdr))
    ⟨inv, hp, rfl⟩ ?_ all).2
  rintro v op v' ⟨inv, hp, same⟩ kept step
  obtain ⟨hp', same'⟩ := R.step_keeps inv step hp kept
  exact ⟨R.step_inv inv step, hp', same'.trans same⟩

theorem Rules.separate (R : Rules prog I) (inv : Inv prog I w) :
    Separate prog.hdr poolSize (prog.sizeAt w.heap) (prog.blocks w.heap) w.live := by
  apply (R.tidy w.heap inv.heap).tiles.separate R.pos
  intro p hp
  obtain ⟨a, ha, e⟩ := inv.block hp
  exact ⟨a, ha.1, e⟩

/-- The largest free block is the longest stretch of the pool that no allocation covers. -/
theorem Rules.longest (R : Rules prog I) (inv : Inv prog I w)
    (some : ∃ a ∈ prog.blocks w.heap, prog.freeAt w.heap a = true) :
    ∃ a ∈ prog.blocks w.heap, prog.freeAt w.heap a = true ∧
      (∀ b ∈ prog.blocks w.heap, prog.freeAt w.heap b = true →
        prog.sizeAt w.heap b ≤ prog.sizeAt w.heap a) ∧
      IsGreatest {n | ∃ lo, Unused prog.hdr poolSize (prog.sizeAt w.heap)
        (fun b => b + prog.hdr ∈ w.live) lo n} (prog.hdr + prog.sizeAt w.heap a) := by
  have T := R.tidy w.heap inv.heap
  obtain ⟨a, ha, free, max⟩ := exists_largest some
  refine ⟨a, ha, free, max, ?_⟩
  have live : ∀ b, b + prog.hdr ∈ w.live ↔ prog.Used w.heap b := by
    intro b
    exact ⟨inv.held.block, fun hb => (inv.held.mem _).mpr ⟨b, hb, rfl⟩⟩
  simp only [Unused.congr live]
  exact T.apart.longest T.tiles R.pos ha free max

theorem Rules.idle (R : Rules prog I) (inv : Inv prog I w) (idle : w.live = []) :
    prog.blocks w.heap = [0] ∧ prog.freeAt w.heap 0 = true ∧
      prog.sizeAt w.heap 0 = poolSize - prog.hdr := by
  have all : ∀ a ∈ prog.blocks w.heap, prog.freeAt w.heap a = true := by
    intro a ha
    by_contra used
    have hp : a + prog.hdr ∈ w.live := (inv.held.mem _).mpr ⟨a, ⟨ha, by simpa using used⟩, rfl⟩
    rw [idle] at hp
    cases hp
  have T := R.tidy w.heap inv.heap
  obtain ⟨blocks, size⟩ := T.apart.single T.tiles (by decide) all
  exact ⟨blocks, all 0 (by simp [blocks]), size⟩

theorem start_inv (fits : prog.hdr < poolSize) (pos : 0 < prog.hdr)
    (size : prog.sizeAt h 0 = poolSize - prog.hdr) (free : prog.freeAt h 0 = true) :
    prog.blocks h = [0] ∧ Tidy prog h ∧ Held prog.hdr (prog.Used h) (World.start h).live := by
  have t : Tiles prog.hdr poolSize (prog.sizeAt h) 0 [0] := by
    refine ⟨rfl, ?_⟩
    rw [Tiles, size]
    omega
  have blocks := blocks_of_tiles pos t
  refine ⟨blocks, ⟨by rw [blocks]; exact t, ?_⟩, held_nil ?_⟩
  · rw [blocks]
    intro a ha next
    rw [List.mem_singleton] at ha next
    omega
  · rintro a ⟨ha, used⟩
    rw [blocks, List.mem_singleton] at ha
    subst ha
    cases used.symm.trans free

/-! ## Headers after a call -/

/-- The rest of the block is worth a header of its own. -/
def Splits (prog : Program H B) (h : H) (c n : Nat) : Prop := prog.hdr + 4 < prog.sizeAt h c - n

instance : Decidable (Splits prog h c n) := inferInstanceAs (Decidable (_ < _))

/-- What the headers say once `c` is handed out for `n` bytes. -/
structure Cut (prog : Program H B) (h h' : H) (c n : Nat) : Prop where
  whole : ¬ Splits prog h c n → ∀ b, prog.sizeAt h' b = prog.sizeAt h b
  sizes : Splits prog h c n → ∀ b, prog.sizeAt h' b =
    if b = c then n
    else if b = c + prog.hdr + n then prog.sizeAt h c - n - prog.hdr else prog.sizeAt h b
  marks : ∀ b, prog.freeAt h' b =
    if b = c then false
    else if Splits prog h c n ∧ b = c + prog.hdr + n then true else prog.freeAt h b

theorem Tidy.fresh (T : Tidy prog h) (pos : 0 < prog.hdr) (hc : c ∈ prog.blocks h)
    (room : Splits prog h c n) : c + prog.hdr + n ∉ prog.blocks h := by
  intro hn
  have wide : prog.hdr + 4 < prog.sizeAt h c - n := room
  have := T.tiles.apart pos hc hn (by omega)
  omega

theorem Cut.takes_split (cut : Cut prog h h' c n) (pos : 0 < prog.hdr) (T : Tidy prog h)
    (hc : c ∈ prog.blocks h) (hf : prog.freeAt h c = true) (room : Splits prog h c n) :
    Tidy prog h' ∧ Takes prog h h' c n ∧
      ∀ b, b ∈ prog.blocks h' ↔ b = c + prog.hdr + n ∨ b ∈ prog.blocks h := by
  have wide : prog.hdr + 4 < prog.sizeAt h c - n := room
  have new := T.fresh pos hc room
  have ne : c + prog.hdr + n ≠ c := by omega
  have first : prog.sizeAt h' c = n := by rw [cut.sizes room, if_pos rfl]
  have rest : prog.sizeAt h' (c + prog.hdr + n) = prog.sizeAt h c - n - prog.hdr := by
    rw [cut.sizes room, if_neg ne, if_pos rfl]
  have sizes : ∀ b ∈ prog.blocks h, b ≠ c → prog.sizeAt h' b = prog.sizeAt h b := by
    intro b hb hbc
    rw [cut.sizes room, if_neg hbc, if_neg]
    rintro rfl
    exact new hb
  have marks : ∀ b ∈ prog.blocks h, b ≠ c → prog.freeAt h' b = prog.freeAt h b := by
    intro b hb hbc
    rw [cut.marks, if_neg hbc, if_neg]
    rintro ⟨_, rfl⟩
    exact new hb
  obtain ⟨ys, t', mem⟩ := T.tiles.cut pos hc (by omega) (by rw [first]; exact rest) sizes
  rw [first] at mem
  have blocks := blocks_of_tiles pos t'
  have used : prog.freeAt h' c = false := by rw [cut.marks, if_pos rfl]
  refine ⟨⟨by rw [blocks]; exact t', ?_⟩, ⟨hc, hf, by omega, by omega, ?_, ?_⟩, ?_⟩
  · rw [blocks]
    exact T.apart.split T.tiles pos hc hf used mem (by omega) (by omega) sizes marks
  · intro b
    rw [Program.Used, Program.Used, blocks, mem]
    by_cases hbc : b = c
    · subst hbc
      simp [used, hc]
    · by_cases hbn : b = c + prog.hdr + n
      · subst hbn
        simp [cut.marks, room, ne, new]
      · simp [cut.marks, hbc, hbn]
  · rintro b ⟨hb, hu⟩
    apply sizes b hb
    rintro rfl
    cases hu.symm.trans hf
  · rw [blocks]
    exact mem

theorem Cut.takes_whole (cut : Cut prog h h' c n) (pos : 0 < prog.hdr) (T : Tidy prog h)
    (hc : c ∈ prog.blocks h) (hf : prog.freeAt h c = true) (fits : n ≤ prog.sizeAt h c)
    (room : ¬ Splits prog h c n) :
    Tidy prog h' ∧ Takes prog h h' c n ∧ prog.blocks h' = prog.blocks h := by
  have sizes := cut.whole room
  have marks : ∀ b, prog.freeAt h' b = if b = c then false else prog.freeAt h b := by
    intro b
    simp [cut.marks, room]
  have t' := T.tiles.congr fun b _ => sizes b
  have blocks := blocks_of_tiles pos t'
  have wide : n ≤ prog.sizeAt h' c := (sizes c).symm ▸ fits
  refine ⟨⟨by rw [blocks]; exact t', ?_⟩, ⟨hc, hf, fits, wide, ?_, fun b _ => sizes b⟩, blocks⟩
  · rw [blocks]
    apply T.apart.take fun b _ => sizes b
    intro b hb
    rw [marks] at hb
    split at hb
    · cases hb
    · exact hb
  · intro b
    rw [Program.Used, Program.Used, blocks, marks]
    by_cases hbc : b = c
    · subst hbc
      simp [hc]
    · simp [hbc]

/-- A free block that is cut leaves the pool tidy, with a further block when it is split. -/
theorem Cut.takes (cut : Cut prog h h' c n) (pos : 0 < prog.hdr) (T : Tidy prog h)
    (hc : c ∈ prog.blocks h) (hf : prog.freeAt h c = true) (fits : n ≤ prog.sizeAt h c) :
    Tidy prog h' ∧ Takes prog h h' c n ∧ ∀ b, b ∈ prog.blocks h' ↔
      (Splits prog h c n ∧ b = c + prog.hdr + n) ∨ b ∈ prog.blocks h := by
  by_cases room : Splits prog h c n
  · obtain ⟨T', takes, mem⟩ := cut.takes_split pos T hc hf room
    exact ⟨T', takes, by simpa [room] using mem⟩
  · obtain ⟨T', takes, blocks⟩ := cut.takes_whole pos T hc hf fits room
    exact ⟨T', takes, by simp [blocks, room]⟩

theorem Frees.of_coalesces {s : H} {xs : List Nat} (pos : 0 < prog.hdr)
    (joined : Coalesces prog.hdr poolSize prog.sizeAt prog.freeAt s h' (prog.blocks h) xs)
    (sizes : ∀ b, prog.sizeAt s b = prog.sizeAt h b)
    (marks : ∀ b, prog.freeAt s b = if b = a then true else prog.freeAt h b) :
    prog.blocks h' = xs ∧ Tidy prog h' ∧ Frees prog h h' a := by
  have blocks := blocks_of_tiles pos joined.tiles
  have T : Tidy prog h' := ⟨by rw [blocks]; exact joined.tiles, by rw [blocks]; exact joined.apart⟩
  refine ⟨blocks, T, ?_, ?_⟩
  · intro b
    rw [Program.Used, Program.Used, blocks, joined.marks, marks]
    by_cases eq : b = a
    · simp [eq]
    · rw [if_neg eq]
      constructor
      · rintro ⟨hb, used⟩
        have := joined.used b (by rw [marks, if_neg eq]; exact used)
        exact ⟨eq, this.1.mp hb, used⟩
      · rintro ⟨_, hb, used⟩
        have := joined.used b (by rw [marks, if_neg eq]; exact used)
        exact ⟨this.1.mpr hb, used⟩
  · rintro b ne ⟨_, used⟩
    rw [(joined.used b (by rw [marks, if_neg ne]; exact used)).2, sizes]

end

/-! ## Runs on a given pool -/

def World.call (prog : Program H B) (w : World H) : Op → Option (World H)
  | .malloc size =>
    if size < 2 ^ 64 then
      (prog.malloc w.heap size).map fun out => ⟨out.1, out.2.toList ++ w.live⟩
    else none
  | .free (some ptr) =>
    if ptr ∈ w.live then (prog.free w.heap (some ptr)).map fun h => ⟨h, w.live.erase ptr⟩
    else none
  | .free none => (prog.free w.heap none).map fun h => ⟨h, w.live⟩
  | .write _ => none

theorem call_step {prog : Program H B} {w w' : World H} {op : Op}
    (h : w.call prog op = some w') : Step prog w op w' := by
  cases op with
  | malloc size =>
    simp only [World.call] at h
    split at h
    · next fit =>
      obtain ⟨⟨heap, r⟩, ret, rfl⟩ := Option.map_eq_some_iff.mp h
      exact .malloc fit ret
    · cases h
  | free ptr =>
    cases ptr with
    | none =>
      obtain ⟨heap, ret, rfl⟩ := Option.map_eq_some_iff.mp h
      exact .freeNull ret
    | some ptr =>
      simp only [World.call] at h
      split at h
      · next live =>
        obtain ⟨heap, ret, rfl⟩ := Option.map_eq_some_iff.mp h
        exact .free live ret
      · cases h
  | write ptr => cases h

def World.after (prog : Program H B) (h : H) (ops : List Op) : World H :=
  (execute (World.call prog) (World.start h) ops).getD (World.start h)

theorem after_run {prog : Program H B} {h : H} {ops : List Op}
    (ret : (execute (World.call prog) (World.start h) ops).isSome = true) :
    Run (Step prog) (World.start h) ops (World.after prog h ops) := by
  obtain ⟨w, hw⟩ := Option.isSome_iff_exists.mp ret
  rw [World.after, hw]
  exact execute_run (fun _ _ _ => call_step) hw

end

end LearnC.FreeList
