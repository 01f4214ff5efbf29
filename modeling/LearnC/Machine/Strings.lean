import LearnC.Machine.Bytes
import LearnC.Machine.Text

/-! The string functions of the C library, on objects given by their bytes. -/

namespace LearnC

/-- The space, and the tab to the carriage return. -/
def isSpace (b : UInt8) : Bool := b == 32 || (9 ≤ b && b ≤ 13)

/-- The characters of a string literal. -/
def chars (s : String) : List UInt8 := s.toList.map fun c => UInt8.ofNat c.toNat

/-- The value of a digit or a letter as a digit, 36 for what is neither. -/
def digitValue (b : UInt8) : Nat :=
  if 48 ≤ b ∧ b ≤ 57 then b.toNat - 48
  else if 97 ≤ b ∧ b ≤ 122 then b.toNat - 87
  else if 65 ≤ b ∧ b ≤ 90 then b.toNat - 55
  else 36

/-- The number that the digits at the start denote behind those of `n`. -/
def digits (base n : Nat) : List UInt8 → Nat
  | [] => n
  | b :: l => if digitValue b < base then digits base (base * n + digitValue b) l else n

/-- To the base 16, `0x` in front of a digit is passed over. -/
def skipPrefix (base : Nat) : List UInt8 → List UInt8
  | zero :: x :: d :: l =>
    if base = 16 ∧ zero = 48 ∧ (x = 120 ∨ x = 88) ∧ digitValue d < 16 then d :: l
    else zero :: x :: d :: l
  | l => l

/-- `strtol`: blanks, a sign, digits, and at most what a `long` holds. -/
def strtol (base : Nat) (l : List UInt8) : Int :=
  match l.dropWhile isSpace with
  | 45 :: rest => max (-2 ^ 63) (-digits base 0 (skipPrefix base rest))
  | 43 :: rest => min (2 ^ 63 - 1) (digits base 0 (skipPrefix base rest))
  | rest => min (2 ^ 63 - 1) (digits base 0 (skipPrefix base rest))

/-- Where `strtol` ends, at the start if there is no number. -/
def strtolEnd (base : Nat) (l : List UInt8) : List UInt8 :=
  let body := match l.dropWhile isSpace with
    | 45 :: rest => rest
    | 43 :: rest => rest
    | rest => rest
  let number := skipPrefix base body
  if number.takeWhile (fun b => decide (digitValue b < base)) = [] then l
  else number.dropWhile fun b => decide (digitValue b < base)

/-- `atoi` keeps the low half of the `long`. -/
def atoi (l : List UInt8) : Int := (strtol 10 l).bmod (2 ^ 32)

theorem digits_takeWhile {base k : Nat} {l : List UInt8} :
    digits base k (l.takeWhile fun b => decide (digitValue b < base)) = digits base k l := by
  induction l generalizing k with
  | nil => rfl
  | cons b l ih =>
    by_cases digit : digitValue b < base
    · simp only [List.takeWhile_cons, decide_eq_true digit, ↓reduceIte, digits, if_pos digit, ih]
    · simp only [List.takeWhile_cons, decide_eq_false digit, Bool.false_eq_true, ↓reduceIte, digits,
        if_neg digit]

section
variable {base : Nat} {d : UInt8} {rest : List UInt8}

/-- A digit of any base is neither a blank nor a sign. -/
theorem digit_plain (digit : digitValue d < 36) : isSpace d = false ∧ d ≠ 45 ∧ d ≠ 43 :=
  byte_forall (P := fun d => digitValue d < 36 → isSpace d = false ∧ d ≠ 45 ∧ d ≠ 43)
    (by decide +kernel) d digit

theorem strtol_unsigned (digit : digitValue d < 36) : strtol base (d :: rest) =
    min (2 ^ 63 - 1) (digits base 0 (skipPrefix base (d :: rest)) : Int) := by
  obtain ⟨text, minus, plus⟩ := digit_plain digit
  rw [strtol, List.dropWhile_cons_of_neg (by simp [text])]
  split
  · rename_i eq
    exact absurd (List.cons.inj eq).1 minus
  · rename_i eq
    exact absurd (List.cons.inj eq).1 plus
  · rfl

theorem strtolEnd_unsigned (digit : digitValue d < 36) : strtolEnd base (d :: rest) =
    let number := skipPrefix base (d :: rest)
    if number.takeWhile (fun b => decide (digitValue b < base)) = [] then d :: rest
    else number.dropWhile fun b => decide (digitValue b < base) := by
  obtain ⟨text, minus, plus⟩ := digit_plain digit
  rw [strtolEnd, List.dropWhile_cons_of_neg (by simp [text])]
  split
  · rename_i eq
    exact absurd (List.cons.inj eq).1 minus
  · rename_i eq
    exact absurd (List.cons.inj eq).1 plus
  · rfl

end

namespace Image

/-- The bytes from `off` on are those of the list. -/
def Holds (m : Image) (off : Nat) : List UInt8 → Prop
  | [] => True
  | b :: l => m off = b ∧ m.Holds (off + 1) l

/-- The string at `off`, behind it its zero byte. -/
structure Str (m : Image) (off : Nat) (l : List UInt8) : Prop where
  bytes : m.Holds off (l ++ [0])
  text : 0 ∉ l

/-- The list written from `off` on. -/
def write (m : Image) (off : Nat) (l : List UInt8) : Image :=
  m.fill off l.length fun i => l.getD i 0

/-- The first of `n` places from `off` on whose byte meets `stop`. -/
def scan (m : Image) (stop : UInt8 → Bool) (off : Nat) : Nat → Nat
  | 0 => off
  | n + 1 => if stop (m off) then off else m.scan stop (off + 1) n

/-- The bytes up to the first zero byte among `n`. -/
def textAt (m : Image) (off n : Nat) : List UInt8 := (m.cString off n).getD []

def strlen (m : Image) (off n : Nat) : Nat := m.scan (· == 0) off n - off

/-- `strcspn` with one character to stop at. -/
def strcspn (m : Image) (off n : Nat) (c : UInt8) : Nat :=
  m.scan (fun b => b == c || b == 0) off n - off

def strchr (m : Image) (off n : Nat) (c : UInt8) : Option Nat :=
  if m (off + m.strcspn off n c) = c then some (off + m.strcspn off n c) else none

/-- The source is read as it was before, also where the two overlap. -/
def memmove (m : Image) (dest src n : Nat) : Image := m.fill dest n fun i => m (src + i)

/-- The token at `p`, where the next call goes on, and the bytes with the token ended. -/
def strtokR (m : Image) (p n : Nat) (delim : UInt8) : Option Nat × Nat × Image :=
  if m p = 0 then (none, p, m)
  else
    let s := m.scan (· != delim) p n
    if m s = 0 then (none, s, m)
    else
      let stop := s + m.strcspn s n delim
      if m stop = 0 then (some s, stop, m) else (some s, stop + 1, m.set stop 1 0)

section
variable {m m' : Image} {off n i : Nat} {a b l : List UInt8} {x c : UInt8}
  {stop : UInt8 → Bool}

@[simp] theorem holds_nil : m.Holds off [] := trivial

@[simp] theorem holds_cons : m.Holds off (x :: l) ↔ m off = x ∧ m.Holds (off + 1) l := Iff.rfl

@[simp] theorem holds_append :
    m.Holds off (a ++ b) ↔ m.Holds off a ∧ m.Holds (off + a.length) b := by
  induction a generalizing off with
  | nil => simp
  | cons x a ih =>
    rw [List.cons_append, holds_cons, holds_cons, ih, List.length_cons, and_assoc, Nat.add_assoc,
      Nat.add_comm 1]

theorem holds_iff : m.Holds off l ↔ ∀ i (h : i < l.length), m (off + i) = l[i] := by
  induction l generalizing off with
  | nil => simp
  | cons x l ih =>
    rw [holds_cons, ih]
    constructor
    · rintro ⟨rfl, rest⟩ i hi
      cases i with
      | zero => rfl
      | succ i =>
        rw [← Nat.add_assoc, Nat.add_right_comm]
        exact rest i (Nat.lt_of_succ_lt_succ hi)
    · intro all
      refine ⟨all 0 (Nat.succ_pos _), fun i hi => ?_⟩
      rw [Nat.add_right_comm, Nat.add_assoc]
      exact all (i + 1) (Nat.succ_lt_succ hi)

/-- Only the bytes of the list count. -/
theorem Holds.congr (h : m.Holds off l)
    (same : ∀ i, off ≤ i → i < off + l.length → m' i = m i) : m'.Holds off l := by
  rw [holds_iff] at h ⊢
  intro i hi
  rw [same _ (by omega) (by omega), h i hi]

theorem holds_write : (m.write off l).Holds off l := by
  rw [holds_iff]
  intro i hi
  rw [write, fill_in (by omega) (by omega), Nat.add_sub_cancel_left]
  exact List.getD_eq_getElem l 0 hi

theorem write_out (h : i < off ∨ off + l.length ≤ i) : m.write off l i = m i := fill_out h

/-- A byte written in the place of another. -/
theorem Holds.set_one (h : m.Holds off a) (h' : m.Holds (off + a.length + 1) b) :
    (m.set (off + a.length) 1 0).Holds off (a ++ 0 :: b) := by
  rw [holds_append, holds_cons]
  refine ⟨h.congr fun i _ hi => set_out (by omega), ?_, h'.congr fun i hi _ => set_out (by omega)⟩
  rw [set, fill_in (Nat.le_refl _) (Nat.lt_succ_self _), Nat.sub_self]
  rfl

theorem cString_iff : m.cString off n = some l ↔ l.length < n ∧ m.Str off l := by
  rw [cString_eq_some]
  constructor
  · rintro ⟨lt, ends, text, bytes⟩
    exact ⟨lt, holds_append.mpr ⟨holds_iff.mpr bytes, ends, trivial⟩, text⟩
  · rintro ⟨lt, str⟩
    obtain ⟨bytes, ends, _⟩ := holds_append.mp str.bytes
    exact ⟨lt, ends, str.text, holds_iff.mp bytes⟩

theorem Str.cString (h : m.Str off l) (lt : l.length < n) : m.cString off n = some l :=
  cString_iff.mpr ⟨lt, h⟩

theorem Str.textAt (h : m.Str off l) (lt : l.length < n) : m.textAt off n = l := by
  rw [Image.textAt, h.cString lt, Option.getD_some]

theorem str_write (text : 0 ∉ l) : (m.write off (l ++ [0])).Str off l := ⟨holds_write, text⟩

theorem str_strncpy (text : 0 ∉ l) (lt : l.length < n) : (m.strncpy off n l).Str off l := by
  refine ⟨holds_append.mpr ⟨holds_iff.mpr fun i hi => ?_, ?_, trivial⟩, text⟩
  · rw [strncpy, fill_in (by omega) (by omega), Nat.add_sub_cancel_left]
    exact List.getD_eq_getElem l 0 hi
  · rw [strncpy, fill_in (by omega) (by omega), Nat.add_sub_cancel_left]
    exact List.getD_eq_default l 0 (Nat.le_refl _)

/-- The bytes that do not stop the scan, and the one behind them that does. -/
theorem scan_eq (h : m.Holds off (a ++ [x])) (pass : ∀ b ∈ a, stop b = false)
    (hit : stop x = true) (lt : a.length < n) : m.scan stop off n = off + a.length := by
  induction a generalizing off n with
  | nil =>
    cases n with
    | zero => omega
    | succ n => simp [scan, h.1, hit]
  | cons b a ih =>
    cases n with
    | zero => omega
    | succ n =>
      have goes : stop (m off) = false := by
        rw [h.1]
        exact pass b List.mem_cons_self
      have rest := ih h.2 (fun b mem => pass b (List.mem_cons_of_mem _ mem))
        (Nat.lt_of_succ_lt_succ lt)
      rw [scan, goes, if_neg Bool.false_ne_true, rest, List.length_cons]
      omega

/-- A scan that the zero byte stops too sees the string up to there. -/
theorem Str.scan (h : m.Str off l) (ends : stop 0 = true) (lt : l.length < n) :
    m.scan stop off n = off + (l.takeWhile fun b => !stop b).length := by
  have split := List.takeWhile_append_dropWhile (p := fun b => !stop b) (l := l)
  have pass : ∀ b ∈ l.takeWhile fun b => !stop b, stop b = false := by
    intro b mem
    simpa using List.mem_takeWhile_imp mem
  have le := (List.takeWhile_prefix (fun b => !stop b) (l := l)).length_le
  have bytes := h.bytes
  rw [← split, List.append_assoc] at bytes
  have hit := List.head?_dropWhile_not (fun b => !stop b) l
  cases rest : l.dropWhile fun b => !stop b with
  | nil =>
    rw [rest] at bytes
    exact scan_eq bytes pass ends (by omega)
  | cons x rest' =>
    rw [rest] at bytes hit
    simp only [List.head?_cons, Bool.not_eq_eq_eq_not, Bool.not_false] at hit
    rw [List.cons_append, List.append_cons] at bytes
    exact scan_eq (holds_append.mp bytes).1 pass hit (by omega)

theorem Str.strlen (h : m.Str off l) (lt : l.length < n) : m.strlen off n = l.length := by
  have all : (l.takeWhile fun b => !(b == 0)) = l := by
    rw [List.takeWhile_eq_self_iff]
    intro b mem
    have ne : b ≠ 0 := fun eq => h.text (eq ▸ mem)
    simpa using ne
  have stops : m.scan (· == 0) off n = off + l.length := by rw [h.scan rfl lt, all]
  rw [Image.strlen, stops, Nat.add_sub_cancel_left]

/-- The two parts of a string after a zero byte has taken the place of `x`. -/
theorem Str.split (h : m.Str off (a ++ x :: b)) : (m.set (off + a.length) 1 0).Str off a ∧
    (m.set (off + a.length) 1 0).Str (off + a.length + 1) b := by
  have bytes := h.bytes
  rw [List.append_assoc, List.cons_append, holds_append, holds_cons] at bytes
  have text := h.text
  rw [List.mem_append, List.mem_cons, not_or, not_or] at text
  have both := bytes.1.set_one bytes.2.2
  rw [List.append_cons, holds_append, List.length_append, List.length_singleton] at both
  exact ⟨⟨both.1, text.1⟩, ⟨both.2, text.2.2⟩⟩

/-- Bytes outside a string do not matter to it. -/
theorem Str.congr (h : m.Str off l) (same : ∀ i, off ≤ i → i ≤ off + l.length → m' i = m i) :
    m'.Str off l := by
  refine ⟨h.bytes.congr fun i le lt => same i le ?_, h.text⟩
  rw [List.length_append, List.length_singleton] at lt
  omega

theorem Str.at_end (h : m.Str off l) : m (off + l.length) = 0 := (holds_append.mp h.bytes).2.1

theorem passes (free : c ∉ a) (text : 0 ∉ a) : ∀ x ∈ a, (x == c || x == 0) = false := by
  intro x mem
  have ne : x ≠ c := fun eq => free (eq ▸ mem)
  have ne' : x ≠ 0 := fun eq => text (eq ▸ mem)
  simp [ne, ne']

theorem Str.strcspn_cut (h : m.Str off l) (lt : l.length < n) (cut : cutAt c l = some (a, b)) :
    m.strcspn off n c = a.length := by
  obtain ⟨rfl, free⟩ := cutAt_eq_some.mp cut
  have bytes := h.bytes
  rw [List.append_assoc, List.cons_append, List.append_cons, holds_append] at bytes
  have pass := passes free fun mem => h.text (List.mem_append_left _ mem)
  rw [List.length_append] at lt
  rw [strcspn, scan_eq bytes.1 pass (by simp) (by omega), Nat.add_sub_cancel_left]

theorem Str.strcspn_none (h : m.Str off l) (lt : l.length < n) (none : cutAt c l = none) :
    m.strcspn off n c = l.length := by
  rw [strcspn, scan_eq h.bytes (passes (cutAt_eq_none.mp none) h.text) (by simp) lt,
    Nat.add_sub_cancel_left]

theorem Str.strchr (h : m.Str off l) (lt : l.length < n) (ne : c ≠ 0) :
    m.strchr off n c = (cutAt c l).map fun p => off + p.1.length := by
  cases cut : cutAt c l with
  | none =>
    rw [Image.strchr, h.strcspn_none lt cut, h.at_end, if_neg ne.symm]
    rfl
  | some p =>
    obtain ⟨a, b⟩ := p
    rw [Image.strchr, h.strcspn_cut lt cut, if_pos]
    · rfl
    · obtain ⟨rfl, _⟩ := cutAt_eq_some.mp cut
      have bytes := h.bytes
      rw [List.append_assoc, List.cons_append, holds_append, holds_cons] at bytes
      exact bytes.2.1

/-- The string without what follows its first `c`. -/
theorem Str.cut_end (h : m.Str off l) (lt : l.length < n) :
    (m.set (off + m.strcspn off n c) 1 0).Str off (((cutAt c l).map Prod.fst).getD l) := by
  cases cut : cutAt c l with
  | none =>
    rw [h.strcspn_none lt cut]
    have bytes := holds_append.mp h.bytes
    exact ⟨bytes.1.set_one (b := []) holds_nil, h.text⟩
  | some p =>
    obtain ⟨a, b⟩ := p
    rw [h.strcspn_cut lt cut]
    obtain ⟨rfl, _⟩ := cutAt_eq_some.mp cut
    exact h.split.1

theorem Str.drop (h : m.Str off (a ++ b)) : m.Str (off + a.length) b := by
  have bytes := h.bytes
  rw [List.append_assoc, holds_append] at bytes
  exact ⟨bytes.2, fun mem => h.text (List.mem_append_right a mem)⟩

theorem Str.eq_nil (h : m.Str off l) : m off = 0 ↔ l = [] := by
  cases l with
  | nil => simp [h.bytes.1]
  | cons x l =>
    rw [h.bytes.1]
    simp only [reduceCtorEq, iff_false]
    rintro rfl
    exact h.text List.mem_cons_self

/-- The token that `strtokR` finds stands at its place, and at the other what is left. -/
theorem Str.strtokR (h : m.Str off l) (lt : l.length < n) (ne : c ≠ 0) :
    match token c l with
    | none => ∃ q m', m.strtokR off n c = (none, q, m')
    | some (a, b) => ∃ s q m', m.strtokR off n c = (some s, q, m') ∧ off ≤ s ∧
        s + a.length ≤ q ∧ q + b.length ≤ off + l.length ∧ m'.Str s a ∧ m'.Str q b := by
  have split := List.takeWhile_append_dropWhile (p := (· == c)) (l := l)
  have skips : m.scan (· != c) off n = off + (l.takeWhile (· == c)).length := by
    rw [h.scan (by simpa using ne.symm) lt]
    simp [bne]
  generalize l.takeWhile (· == c) = u at split skips
  unfold token
  generalize l.dropWhile (· == c) = t at split ⊢
  subst split
  have rest := h.drop
  rw [List.length_append] at lt ⊢
  unfold Image.strtokR
  by_cases none : t = []
  · simp only [none, ↓reduceIte]
    split
    · exact ⟨_, _, rfl⟩
    · rw [skips, if_pos (rest.eq_nil.mpr none)]
      exact ⟨_, _, rfl⟩
  · have here : m off ≠ 0 := by
      rw [Ne, h.eq_nil]
      simp [none]
    rw [if_neg none, if_neg here, skips, if_neg (mt rest.eq_nil.mp none)]
    cases cut : cutAt c t with
    | none =>
      simp only [Option.getD_none]
      rw [rest.strcspn_none (by omega) cut, if_pos rest.at_end]
      refine ⟨_, _, _, rfl, ?_, Nat.le_refl _, ?_, rest, ⟨⟨rest.at_end, trivial⟩, nofun⟩⟩
      · omega
      · simp only [List.length_nil]
        omega
    | some p =>
      obtain ⟨a, b⟩ := p
      simp only [Option.getD_some]
      rw [rest.strcspn_cut (by omega) cut]
      obtain ⟨rfl, _⟩ := cutAt_eq_some.mp cut
      have found : m (off + u.length + a.length) = c := by
        have bytes := rest.drop.bytes
        exact bytes.1
      rw [if_neg (found ▸ ne)]
      have both := rest.split
      refine ⟨_, _, _, rfl, ?_, ?_, ?_, both.1, both.2⟩
      all_goals
        simp only [List.length_append, List.length_cons] at lt ⊢
        omega

end

end Image

end LearnC
