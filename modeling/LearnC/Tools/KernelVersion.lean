import LearnC.Machine.Strings

/-! The loop of `2.get_kernel_ver.c` that takes the numbers out of `buffer.release`. -/

namespace LearnC.Tools

def isDigit (b : UInt8) : Bool := 48 ≤ b && b ≤ 57

/-- The state of the loop; of `ver` the places that have been stored, at whatever index. -/
structure Scan where
  p : List UInt8
  i : Nat
  ver : Nat → Option Int

/-- One round, or none where `*p` is the zero byte. -/
def scanStep (s : Scan) : Option Scan :=
  match s.p with
  | [] => none
  | c :: rest =>
    if isDigit c then
      some ⟨strtolEnd 10 s.p, s.i + 1, Function.update s.ver s.i (some (strtol 10 s.p))⟩
    else some { s with p := rest }

/-- At most so many tests of the condition. -/
def scanLoop : Nat → Scan → Option Scan
  | 0, _ => none
  | n + 1, s =>
    match scanStep s with
    | none => some s
    | some s => scanLoop n s

def scanStart (release : List UInt8) : Scan := ⟨release, 0, fun _ => none⟩

/-- The loop ends, the values of the digit runs are in `ver` in order, nothing was stored
behind its 16 places, and the four that are printed were stored. -/
structure Scanned (release : List UInt8) (final : Scan) : Prop where
  ends : ∃ n, scanLoop n (scanStart release) = some final
  values : ∀ k, final.ver k = (runs isDigit release)[k]?.map fun run => (digits 10 0 run : Int)
  inside : ∀ k, (final.ver k).isSome = true → k < 16
  printed : ∀ k < 4, (final.ver k).isSome = true

/-- `vs` has been stored, and nothing else. -/
structure Stored (s : Scan) (vs : List Int) : Prop where
  count : s.i = vs.length
  ver : ∀ k, s.ver k = vs[k]?

/-- What `strtol` makes of a run. -/
def capped (run : List UInt8) : Int := min (2 ^ 63 - 1) (digits 10 0 run : Int)

variable {c : UInt8} {l rest release : List UInt8} {s final : Scan} {n : Nat} {vs : List Int}

/-! ## `strtol` on a digit -/

theorem isDigit_eq (b : UInt8) : isDigit b = decide (digitValue b < 10) :=
  byte_forall (P := fun b => isDigit b = decide (digitValue b < 10)) (by decide +kernel) b

theorem isDigit_value (digit : isDigit c = true) : digitValue c < 36 := by
  rw [isDigit_eq] at digit
  exact Nat.lt_trans (of_decide_eq_true digit) (by decide)

theorem skipPrefix_decimal : skipPrefix 10 l = l := by
  unfold skipPrefix
  split
  · exact if_neg fun both => absurd both.1 (by decide)
  · rfl

theorem strtol_run (digit : isDigit c = true) :
    strtol 10 (c :: rest) = capped ((c :: rest).takeWhile isDigit) := by
  have digits_run : digits 10 0 ((c :: rest).takeWhile isDigit) = digits 10 0 (c :: rest) := by
    rw [funext isDigit_eq]
    exact digits_takeWhile
  rw [capped, digits_run, strtol_unsigned (isDigit_value digit), skipPrefix_decimal]

theorem strtolEnd_run (digit : isDigit c = true) :
    strtolEnd 10 (c :: rest) = (c :: rest).dropWhile isDigit := by
  have some : (c :: rest).takeWhile isDigit ≠ [] := by
    rw [List.takeWhile_cons_of_pos digit]
    exact List.cons_ne_nil _ _
  rw [strtolEnd_unsigned (isDigit_value digit)]
  simp only [skipPrefix_decimal, ← isDigit_eq]
  exact if_neg some

/-! ## The loop -/

variable {i : Nat} {ver : Nat → Option Int}

theorem scanStep_digit (digit : isDigit c = true) : scanStep ⟨c :: rest, i, ver⟩ =
    some ⟨(c :: rest).dropWhile isDigit, i + 1,
      Function.update ver i (some (capped ((c :: rest).takeWhile isDigit)))⟩ := by
  simp only [scanStep, digit, ↓reduceIte, strtolEnd_run digit, strtol_run digit]

theorem scanStep_other (no : isDigit c = false) :
    scanStep ⟨c :: rest, i, ver⟩ = some ⟨rest, i, ver⟩ := by
  simp [scanStep, no]

theorem scanLoop_step (step : scanStep s = some final) :
    scanLoop (n + 1) s = scanLoop n final := by
  rw [scanLoop, step]

/-- Each round comes nearer to the end of the string. -/
theorem scanLoop_ends (lt : s.p.length < n) : (scanLoop n s).isSome = true := by
  induction n generalizing s with
  | zero => cases lt
  | succ n ih =>
    obtain ⟨p, i, ver⟩ := s
    cases p with
    | nil => rfl
    | cons c rest =>
      have shorter : rest.length < n := Nat.lt_of_succ_lt_succ lt
      cases digit : isDigit c with
      | true =>
        rw [scanLoop_step (scanStep_digit digit)]
        apply ih
        rw [List.dropWhile_cons_of_pos digit]
        exact Nat.lt_of_le_of_lt (List.dropWhile_suffix isDigit).length_le shorter
      | false =>
        rw [scanLoop_step (scanStep_other digit)]
        exact ih shorter

theorem Stored.snoc (h : Stored ⟨l, i, ver⟩ vs) (v : Int) :
    Stored ⟨rest, i + 1, Function.update ver i (some v)⟩ (vs ++ [v]) := by
  obtain ⟨rfl, stored⟩ := h
  constructor
  · simp
  · intro k
    by_cases here : k = vs.length
    · subst here
      simp
    · have same : ver k = vs[k]? := stored k
      have kept : Function.update ver vs.length (some v) k = ver k := Function.update_of_ne here _ _
      simp only [kept, same]
      rcases Nat.lt_or_gt_of_ne here with lt | gt
      · rw [List.getElem?_append_left lt]
      · rw [List.getElem?_eq_none (by omega), List.getElem?_eq_none (by simp; omega)]

/-- When the loop has ended, what is left of the string has been stored run by run. -/
theorem scanLoop_stored (h : Stored s vs) (ends : scanLoop n s = some final) :
    Stored final (vs ++ (runs isDigit s.p).map capped) := by
  induction n generalizing s vs with
  | zero => cases ends
  | succ n ih =>
    obtain ⟨p, i, ver⟩ := s
    cases p with
    | nil =>
      rw [scanLoop] at ends
      obtain rfl := Option.some.inj ends
      rw [runs_nil, List.map_nil, List.append_nil]
      exact h
    | cons c rest =>
      cases digit : isDigit c with
      | true =>
        rw [scanLoop_step (scanStep_digit digit)] at ends
        have stop : ∀ x ∈ ((c :: rest).dropWhile isDigit).head?, isDigit x = false := by
          intro x mem
          have first := List.head?_dropWhile_not isDigit (c :: rest)
          rw [mem] at first
          simpa using first
        have some : (c :: rest).takeWhile isDigit ≠ [] := by
          rw [List.takeWhile_cons_of_pos digit]
          exact List.cons_ne_nil _ _
        have split := runs_append some (fun x mem => List.mem_takeWhile_imp mem) stop
        rw [List.takeWhile_append_dropWhile] at split
        rw [split, List.map_cons, List.append_cons]
        exact ih (h.snoc _) ends
      | false =>
        rw [scanLoop_step (scanStep_other digit)] at ends
        have same : Stored ⟨rest, i, ver⟩ vs := ⟨h.count, h.ver⟩
        rw [runs_cons digit]
        exact ih same ends

/-- The loop does what it should exactly on releases with four to sixteen runs of digits, each
of which is a `long`. -/
theorem release_scanned_iff (release : List UInt8) : (∃ final, Scanned release final) ↔
    4 ≤ (runs isDigit release).length ∧ (runs isDigit release).length ≤ 16 ∧
      ∀ run ∈ runs isDigit release, digits 10 0 run < 2 ^ 63 := by
  have start : Stored (scanStart release) [] := ⟨rfl, fun _ => rfl⟩
  have written {final : Scan} {n : Nat} (ends : scanLoop n (scanStart release) = some final)
      (k : Nat) : final.ver k = (runs isDigit release)[k]?.map capped := by
    have all := (scanLoop_stored start ends).ver k
    rwa [List.nil_append, List.getElem?_map] at all
  constructor
  · rintro ⟨final, ⟨n, ends⟩, values, inside, printed⟩
    have same := written ends
    refine ⟨?_, ?_, fun run mem => ?_⟩
    · have last := printed 3 (by decide)
      rw [same, Option.isSome_map, isSome_getElem?] at last
      exact last
    · by_contra more
      have outside := inside 16 (by rw [same, Option.isSome_map, isSome_getElem?]; omega)
      omega
    · obtain ⟨k, lt, rfl⟩ := List.getElem_of_mem mem
      have value := (same k).symm.trans (values k)
      rw [List.getElem?_eq_getElem lt, Option.map_some, Option.map_some, Option.some_inj,
        capped] at value
      omega
  · rintro ⟨four, sixteen, small⟩
    obtain ⟨final, ends⟩ := Option.isSome_iff_exists.mp
      (scanLoop_ends (s := scanStart release) (Nat.lt_succ_self _))
    have same := written ends
    refine ⟨final, ⟨_, ends⟩, fun k => ?_, fun k some => ?_, fun k lt => ?_⟩
    · rw [same]
      apply Option.map_congr
      intro run mem
      have fits := small run (List.mem_of_getElem? mem)
      rw [capped]
      omega
    · rw [same, Option.isSome_map, isSome_getElem?] at some
      omega
    · rw [same, Option.isSome_map, isSome_getElem?]
      omega

/-- In `6.6.8` there is no number for the patch level. -/
theorem three_numbers : ¬ ∃ final, Scanned (chars "6.6.8") final := by
  rintro ⟨final, _, values, _, printed⟩
  have last := printed 3 (by decide)
  rw [values 3] at last
  revert last
  decide

end LearnC.Tools
