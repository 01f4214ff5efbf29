import LearnC.SegFits.Payloads
import LearnC.SegFits.Calls
import LearnC.FreeList.Requests

/-! What a search of the bins finds, well formed or not, and what the request then
does with the block. -/

namespace LearnC.SegFits

section
variable {h h' : Heap} {a b c i j k left size fuel fuel' : Nat}

/-- Following the links of bin `i` comes to the block `a`. -/
def OnBin (h : Heap) (i a : Nat) : Prop :=
  ∃ n, (fun curr : Option Nat => curr.bind h.next)^[n] (h.classBins i) = some a

def BinEnds (h : Heap) (i : Nat) : Prop :=
  ∃ n, (fun curr : Option Nat => curr.bind h.next)^[n] (h.classBins i) = none

/-- The search for `size` bytes stops at the block `c`. -/
def Finds (h : Heap) (size c : Nat) : Prop :=
  ∃ fuel, search h size fuel (numClasses - getClassId size) (getClassId size) = some (some c)

theorem search_unique {r r' : Option Nat} (ret : search h size fuel left i = some r)
    (ret' : search h size fuel' left i = some r') : r = r' := by
  induction left generalizing i with
  | zero => exact Option.some.inj (ret.symm.trans ret')
  | succ left ih =>
    simp only [search, scanBin_eq] at ret ret'
    cases scan : chainFind h.next (fits h size) fuel (h.classBins i) with
    | none => simp [scan] at ret
    | some s =>
      cases scan' : chainFind h.next (fits h size) fuel' (h.classBins i) with
      | none => simp [scan'] at ret'
      | some s' =>
        have same := chainFind_unique scan scan'
        subst same
        rw [scan] at ret
        rw [scan'] at ret'
        cases s with
        | none => exact ih ret ret'
        | some c => exact Option.some.inj (ret.symm.trans ret')

theorem search_onBin (ret : search h size fuel left i = some (some c)) :
    ∃ k, i ≤ k ∧ k < i + left ∧ (∀ j, i ≤ j → j < k → BinEnds h j) ∧ OnBin h k c ∧
      fits h size c = true := by
  induction left generalizing i with
  | zero => simp [search] at ret
  | succ left ih =>
    simp only [search] at ret
    split at ret
    · next scan =>
      rw [scanBin_eq] at scan
      have ends : BinEnds h i := chainFind_walk scan
      obtain ⟨k, lo, hi, before, on, fit⟩ := ih ret
      refine ⟨k, by omega, by omega, ?_, on, fit⟩
      intro j lo' hi'
      by_cases e : j = i
      · rw [e]
        exact ends
      · exact before j (by omega) hi'
    · rw [scanBin_eq] at ret
      have fit := (chainFind_some (S := fun _ => True) (fun _ _ _ _ => trivial)
        (fun _ _ => trivial) ret).2
      exact ⟨i, Nat.le_refl i, by omega, fun j lo hi => by omega, chainFind_walk ret, fit⟩

theorem search_reaches (lo : i ≤ k) (hi : k < i + left)
    (before : ∀ j, i ≤ j → j < k → BinEnds h j) (on : OnBin h k a)
    (fit : fits h size a = true) :
    ∃ enough, ∀ fuel, enough ≤ fuel → ∃ c, search h size fuel left i = some (some c) := by
  induction left generalizing i with
  | zero => omega
  | succ left ih =>
    by_cases here : i = k
    · subst here
      obtain ⟨n, walk⟩ := on
      refine ⟨n + 1, fun fuel hf => ?_⟩
      obtain ⟨c, scan⟩ := chainFind_reaches hf walk fit
      exact ⟨c, by simp [search, scanBin_eq, scan]⟩
    · obtain ⟨n, ends⟩ := before i (Nat.le_refl i) (by omega)
      obtain ⟨m, later⟩ := ih (i := i + 1) (by omega) (by omega)
        fun j lo' hi' => before j (by omega) hi'
      refine ⟨max n m, fun fuel hf => ?_⟩
      obtain ⟨r, scan⟩ := chainFind_ends (p := fits h size) (Nat.le_trans (Nat.le_max_left n m) hf)
        ends
      cases r with
      | none =>
        obtain ⟨c, found⟩ := later fuel (Nat.le_trans (Nat.le_max_right n m) hf)
        exact ⟨c, by simpa [search, scanBin_eq, scan] using found⟩
      | some c => exact ⟨c, by simp [search, scanBin_eq, scan]⟩

theorem myMalloc_finds {r : Option Nat} (ret : myMalloc fuel h size = some (h', r)) :
    (r = none ∧ h' = h ∧ ∀ c, ¬ Finds h (align4 size) c) ∨
    ∃ c, r = some (c + sizeofBlock) ∧ h' = take h c (align4 size) ∧
      ∀ c', Finds h (align4 size) c' ↔ c' = c := by
  cases myMalloc_cases ret with
  | inl null =>
    refine Or.inl ⟨null.1, null.2.1, ?_⟩
    rintro c ⟨fuel', found⟩
    cases search_unique null.2.2 found
  | inr served =>
    obtain ⟨c, hr, hh, found⟩ := served
    refine Or.inr ⟨c, hr, hh, fun c' => ?_⟩
    constructor
    · rintro ⟨fuel', found'⟩
      exact (Option.some.inj (search_unique found found')).symm
    · rintro rfl
      exact ⟨fuel, found⟩

/-! ## The size of what is handed out -/

def Honours (h : Heap) (size : Nat) : Prop :=
  ∀ fuel h' ptr, myMalloc fuel h size = some (h', some ptr) →
    size ≤ h'.size (ptr - sizeofBlock)

/-- A free block on a bin that the search for the smallest class gets to. -/
def Offered (h : Heap) (a : Nat) : Prop :=
  ∃ k < numClasses, (∀ j < k, BinEnds h j) ∧ OnBin h k a ∧ h.free a = true

theorem take_size_self (fits : size ≤ h.size c) :
    size ≤ (take h c size).size c ∧ (take h c size).size c ≤ h.size c := by
  by_cases room : splits h c size
  · simp [take, room, split_fields, fits]
  · simp [take, room, fits]

/-- A request is honoured unless its rounding wraps, and then only when no bin
offers a free block. -/
theorem honours_iff (s : Sound h) (fit : size < 2 ^ 64) :
    Honours h size ↔ size + 3 < 2 ^ 64 ∨ ∀ a, ¬ Offered h a := by
  constructor
  · intro honours
    by_cases small : size + 3 < 2 ^ 64
    · exact Or.inl small
    · refine Or.inr ?_
      rintro a ⟨k, hk, before, on, free⟩
      have zero : align4 size = 0 := FreeList.align4_wraps fit (Nat.le_of_not_lt small)
      have reaches : ∃ enough, ∀ fuel, enough ≤ fuel →
          ∃ c, search h 0 fuel numClasses 0 = some (some c) :=
        search_reaches (Nat.zero_le k) (by omega) (fun j _ hj => before j hj) on
          (by simp [fits, free])
      obtain ⟨fuel, enough⟩ := reaches
      obtain ⟨c, found⟩ := enough fuel (Nat.le_refl fuel)
      have ret : myMalloc fuel h size = some (take h c 0, some (c + sizeofBlock)) := by
        have first : getClassId 0 = 0 := by decide
        simp [myMalloc, zero, first, found]
      have room := honours fuel _ _ ret
      rw [Nat.add_sub_cancel] at room
      have inside := (s.found found).1
      have bound := (Tiles.bounds s.tiled inside).2
      have shrunk := (take_size_self (Nat.zero_le (h.size c))).2
      simp only [poolSize] at bound
      omega
  · intro cond fuel h' ptr ret
    cases myMalloc_finds ret with
    | inl null => cases null.1
    | inr served =>
      obtain ⟨c, hr, hh, found⟩ := served
      cases hr
      rw [hh, Nat.add_sub_cancel]
      obtain ⟨fuel', found⟩ := (found c).mpr rfl
      by_cases small : size + 3 < 2 ^ 64
      · have wide := take_size_self (s.found found).2.2
        have up : size ≤ align4 size := (FreeList.align4_properties small).1
        omega
      · have zero : align4 size = 0 := FreeList.align4_wraps fit (Nat.le_of_not_lt small)
        obtain ⟨k, _, hi, before, on, free⟩ := search_onBin found
        have first : getClassId 0 = 0 := by decide
        rw [zero, first] at hi before
        rw [fits, Bool.and_eq_true] at free
        have offered : Offered h c :=
          ⟨k, by omega, fun j hj => before j (Nat.zero_le j) hj, on, free.1⟩
        exact absurd offered (cond.resolve_left small c)

/-! ## Header offsets -/

/-- The headers stand at multiples of 8, the alignment of the words in them. -/
def HeadersAligned (h : Heap) : Prop := ∀ a ∈ h.blocks, 8 ∣ a

def EvenCut (w : World) : Op → Prop
  | .malloc size => ∀ c, Finds w.heap (align4 size) c → splits w.heap c (align4 size) →
      8 ∣ align4 size
  | .free _ => True

/-- The only new header of a call is that of the rest of a block that is cut. -/
theorem step_aligned_iff {w w' : World} {op : Op} (inv : Inv w) (aligned : HeadersAligned w.heap)
    (step : Step w op w') : EvenCut w op ↔ HeadersAligned w'.heap := by
  cases step with
  | @malloc size _ _ _ _ ret =>
    cases myMalloc_finds ret with
    | inl null =>
      obtain ⟨rfl, rfl, none⟩ := null
      simp [EvenCut, none, aligned]
    | inr served =>
      obtain ⟨c, rfl, rfl, found⟩ := served
      obtain ⟨fuel', search⟩ := (found c).mpr rfl
      have hc := (inv.sound.found search).1
      obtain ⟨_, blocks, _⟩ := inv.sound.take (align4 size) hc
      have rest : 8 ∣ c + sizeofBlock + align4 size ↔ 8 ∣ align4 size :=
        Nat.dvd_add_right (Nat.dvd_add (aligned c hc) (by decide))
      rw [HeadersAligned, headers_dvd_iff blocks aligned, rest]
      constructor
      · intro even
        exact even c ((found c).mpr rfl)
      · intro even c' found'
        rwa [(found c').mp found']
  | @free ptr live =>
    simpa [EvenCut, HeadersAligned, myFree] using aligned
  | freeNull => simpa [EvenCut] using aligned

/-- The runs that keep every header aligned are the runs of even cuts. -/
theorem aligned_iff (garbage : Nat → Block) (ops : List Op) (w : World) :
    Run (Into (fun w => HeadersAligned w.heap) Step) (World.init garbage) ops w ↔
      Run (When EvenCut Step) (World.init garbage) ops w := by
  symm
  apply run_when_iff_into (J := Inv) (init_inv garbage)
  · intro v op v' inv step
    exact step_inv inv step
  · intro a ha
    rw [World.init, init_blocks, List.mem_singleton] at ha
    rw [ha]
    exact Nat.dvd_zero 8
  · intro v op v' inv aligned step
    exact step_aligned_iff inv aligned step

end

end LearnC.SegFits
