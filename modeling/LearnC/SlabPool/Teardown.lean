import LearnC.SlabPool.Places

/-! Giving blocks back to the system, as both pools do in the end. -/

namespace LearnC.SlabPool

/-- What is passed to `free` or deleted: a buffer, a descriptor, and in `1.base` the
symbols of a block in the leak report and the active array. -/
inductive Freed where
  | buffer (a : Addr)
  | block (b : Addr)
  | symbols (b : Addr)
  | array
  deriving DecidableEq

/-- Buffers, and the descriptors that own them. -/
structure Store (B : Type) where
  mem : Memory
  desc : Finmap fun _ : Addr => B

namespace Store
variable {B : Type}

def span (toSpan : B → Span) (h : Store B) (b : Addr) : Option Span :=
  (h.desc.lookup b).map toSpan

/-- `free(b->real_ptr); free(b)`. -/
def freeBlock (toSpan : B → Span) (h : Store B) (b : Addr) : Option (Store B × List Freed) := do
  let v ← h.span toSpan b
  if v.realPtr ∈ h.mem then
    some (⟨h.mem.erase v.realPtr, h.desc.erase b⟩, [.buffer v.realPtr, .block b])
  else none

def freeBlocks (toSpan : B → Span) : Store B → List Addr → Option (Store B × List Freed)
  | h, [] => some (h, [])
  | h, b :: rest => do
    let (h, freed) ← h.freeBlock toSpan b
    let (h, later) ← freeBlocks toSpan h rest
    some (h, freed ++ later)

end Store

/-- What a block has from the system. -/
def Owed (span : Addr → Option Span) (b : Addr) (x : Freed) : Prop :=
  ∃ v, span b = some v ∧ (x = .buffer v.realPtr ∨ x = .block b)

/-- The places once the blocks of a list are gone. -/
def without (place : Addr → Place) (xs : List Addr) (b : Addr) : Place :=
  if b ∈ xs then .gone else place b

section
variable {B : Type} {toSpan : B → Span} {h : Store B} {place : Addr → Place} {b : Addr}
  {xs ys : List Addr}

@[simp] theorem without_nil : without place [] = place := by
  funext b
  simp [without]

theorem freeBlock_spec (P : Placed h.mem (h.span toSpan) place) (hb : place b ≠ .gone) :
    ∃ h' v, h.span toSpan b = some v ∧
      h.freeBlock toSpan b = some (h', [.buffer v.realPtr, .block b]) ∧
      Placed h'.mem (h'.span toSpan) (Function.update place b .gone) ∧
      ∀ c, c ≠ b → h'.desc.lookup c = h.desc.lookup c := by
  obtain ⟨v, hv⟩ := P.block hb
  let h' : Store B := ⟨h.mem.erase v.realPtr, h.desc.erase b⟩
  have other (c : Addr) (hc : c ≠ b) : h'.desc.lookup c = h.desc.lookup c :=
    Finmap.lookup_erase_ne hc
  refine ⟨h', v, hv, ?_, ?_, other⟩
  · simp [Store.freeBlock, hv, P.base_live hv, h']
  · apply P.free _ hv
    · simp [Store.span, h', Finmap.lookup_erase]
    · intro c hc
      simp [Store.span, other c hc]

/-- The loop frees what the blocks of its list have, each thing once. -/
theorem freeBlocks_spec (P : Placed h.mem (h.span toSpan) place) (nodup : xs.Nodup)
    (live : ∀ b ∈ xs, place b ≠ .gone) :
    ∃ h' freed, h.freeBlocks toSpan xs = some (h', freed) ∧ freed.Nodup ∧
      (∀ x, x ∈ freed ↔ ∃ b ∈ xs, Owed (h.span toSpan) b x) ∧
      Placed h'.mem (h'.span toSpan) (without place xs) ∧
      ∀ c, c ∉ xs → h'.desc.lookup c = h.desc.lookup c := by
  induction xs generalizing h place with
  | nil => exact ⟨h, [], rfl, by simp, by simp, by simpa using P, fun _ _ => rfl⟩
  | cons b xs ih =>
    obtain ⟨out, nodup⟩ := List.nodup_cons.mp nodup
    rw [List.forall_mem_cons] at live
    obtain ⟨h₁, v, hv, free, P₁, other⟩ := freeBlock_spec P live.1
    have away (c : Addr) (hc : c ∈ xs) : c ≠ b := by
      rintro rfl
      exact out hc
    have kept (c : Addr) (hc : c ∈ xs) : h₁.span toSpan c = h.span toSpan c := by
      simp [Store.span, other c (away c hc)]
    obtain ⟨h', later, ret, once, mem, P', rest⟩ := ih P₁ nodup
      (fun c hc => by simpa [away c hc] using live.2 c hc)
    have later_mem (x : Freed) : x ∈ later ↔ ∃ c ∈ xs, Owed (h.span toSpan) c x := by
      rw [mem]
      exact exists_congr fun c => and_congr_right fun hc => by rw [Owed, kept c hc, Owed]
    refine ⟨h', [.buffer v.realPtr, .block b] ++ later, ?_, ?_, ?_, ?_, ?_⟩
    · simp [Store.freeBlocks, free, ret]
    · apply List.Nodup.append (by simp) once
      intro x here there
      obtain ⟨c, hc, u, hu, owed⟩ := (later_mem x).mp there
      -- Another block has another address, and another buffer.
      rcases List.mem_pair.mp here with rfl | rfl
      · rcases owed with owed | owed
        · apply away c hc
          apply P.owns.one c b v.realPtr
          · simpa [hu] using (Freed.buffer.inj owed).symm
          · simp [hv]
        · cases owed
      · rcases owed with owed | owed
        · cases owed
        · exact away c hc (Freed.block.inj owed).symm
    · intro x
      rw [List.mem_append, later_mem, List.exists_mem_cons_iff]
      apply or_congr_left
      simp [Owed, hv]
    · have same : without (Function.update place b .gone) xs = without place (b :: xs) := by
        funext c
        by_cases hc : c = b
        · subst hc
          simp [without]
        · simp [without, hc]
      exact same ▸ P'
    · intro c hc
      rw [List.mem_cons, not_or] at hc
      rw [rest c hc.2, other c hc.1]

theorem freeBlocks_append : h.freeBlocks toSpan (xs ++ ys) =
    (h.freeBlocks toSpan xs).bind fun out =>
      (out.1.freeBlocks toSpan ys).map fun later => (later.1, out.2 ++ later.2) := by
  induction xs generalizing h with
  | nil => simp [Store.freeBlocks]
  | cons b xs ih =>
    cases one : h.freeBlock toSpan b with
    | none => simp [Store.freeBlocks, one]
    | some out =>
      cases rest : out.1.freeBlocks toSpan xs with
      | none => simp [Store.freeBlocks, one, ih, rest]
      | some later =>
        simp only [List.cons_append, Store.freeBlocks, one, ih, rest, Option.bind_eq_bind,
          Option.bind_some]
        cases later.1.freeBlocks toSpan ys <;> simp

theorem Placed.nothing (P : Placed h.mem (h.span toSpan) place) (gone : ∀ b, place b = .gone) :
    h.mem = ∅ ∧ h.desc = ∅ := by
  have none (b : Addr) : h.span toSpan b = none := by
    rw [← Option.not_isSome_iff_eq_none, P.live]
    exact fun live => live (gone b)
  constructor
  · apply Finmap.ext_lookup
    intro a
    rw [Finmap.lookup_empty, Finmap.lookup_eq_none]
    intro ha
    obtain ⟨b, hb⟩ := P.owns.all a ha
    simp [none b] at hb
  · apply Finmap.ext_lookup
    intro b
    rw [Finmap.lookup_empty]
    exact Option.map_eq_none_iff.mp (none b)

theorem freeBlocks_all (P : Placed h.mem (h.span toSpan) place) (nodup : xs.Nodup)
    (all : ∀ b, b ∈ xs ↔ place b ≠ .gone) :
    ∃ freed, h.freeBlocks toSpan xs = some (⟨∅, ∅⟩, freed) ∧ freed.Nodup ∧
      ∀ x, x ∈ freed ↔ ∃ b, Owed (h.span toSpan) b x := by
  obtain ⟨h', freed, ret, once, mem, P', _⟩ := freeBlocks_spec P nodup fun b => (all b).mp
  obtain ⟨buffers, blocks⟩ := P'.nothing fun b => by
    by_cases hb : b ∈ xs
    · simp [without, hb]
    · simpa [without, hb] using (not_iff_not.mpr (all b)).mp hb
  obtain ⟨m, d⟩ := h'
  cases buffers
  cases blocks
  refine ⟨freed, ret, once, ?_⟩
  intro x
  rw [mem]
  refine exists_congr fun b => and_iff_right_of_imp ?_
  rintro ⟨v, hv, _⟩
  rw [all, ← P.live, hv]
  rfl

end

end LearnC.SlabPool
