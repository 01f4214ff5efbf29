import LearnC.Machine.Paths
import Mathlib.Data.List.DropRight

/-! `split_path` of `create_file.c`, which does by hand what `dirname` and `basename` do. -/

namespace LearnC.Dir

open Files

/-- The place of the last `c`. -/
def strrchr (c : UInt8) : List UInt8 → Option Nat
  | [] => none
  | x :: s =>
    match strrchr c s with
    | some i => some (i + 1)
    | none => if x = c then some 0 else none

/-- What the three buffers hold; `smp_base` is not written where there is no copy. -/
structure Parts where
  dir : List UInt8
  base : List UInt8
  smpBase : Option (List UInt8)
deriving DecidableEq

/-- The name without its suffix, from a copy of it; `dup` tells whether `strdup` made one. -/
def simpleBase (dup : Bool) (base : List UInt8) : Option (List UInt8) :=
  if dup then
    match strrchr 46 base with
    | some place => some (base.take place)
    | none => some base
  else none

def splitPath (dup : Bool) (path : List UInt8) : Parts :=
  match strrchr slash path with
  | none => ⟨dot, path, simpleBase dup path⟩
  | some dirLen =>
    let dir := if dirLen = 0 then [slash] else path.take dirLen
    let base := path.drop (dirLen + 1)
    ⟨dir, base, simpleBase dup base⟩

/-! ## The functions of POSIX -/

def isSlash (b : UInt8) : Bool := b == slash

/-- What is returned for slashes alone. It is left open whether two of them stay two. -/
def root (two : Bool) (slashes : List UInt8) : List UInt8 :=
  if two = true ∧ slashes = [slash, slash] then [slash, slash] else [slash]

/-- `basename`: the last component, without the slashes behind it. -/
def basename (two : Bool) (path : List UInt8) : List UInt8 :=
  if path = [] then dot
  else if path.rdropWhile isSlash = [] then root two path
  else (path.rdropWhile isSlash).rtakeWhile fun b => !isSlash b

/-- `dirname`: what stands before the last component, without the slashes behind it. -/
def dirname (two : Bool) (path : List UInt8) : List UInt8 :=
  let trimmed := path.rdropWhile isSlash
  let parent := trimmed.rdropWhile fun b => !isSlash b
  if path = [] then dot
  else if trimmed = [] then root two path
  else if parent = [] then dot
  else if parent.rdropWhile isSlash = [] then root two parent
  else parent.rdropWhile isSlash

/-- A name without its last `.` and what follows it. -/
def withoutSuffix (name : List UInt8) : List UInt8 :=
  if 46 ∈ name then (name.rdropWhile (· != 46)).dropLast else name

/-- The three results are what is asked for; `two` and `two'` are the choices that POSIX
leaves to `dirname` and `basename`. -/
structure Agrees (two two' dup : Bool) (path : List UInt8) : Prop where
  dir : (splitPath dup path).dir = dirname two path
  base : (splitPath dup path).base = basename two' path
  smpBase : (splitPath dup path).smpBase = some (withoutSuffix (splitPath dup path).base)

/-- Something follows the last slash, and no slash stands before it; where two leading
slashes are one to `dirname`, a name may follow two. -/
def Single (two : Bool) (path : List UInt8) : Prop :=
  ∀ a b, path = a ++ slash :: b → slash ∉ b →
    b ≠ [] ∧ (a.getLast? ≠ some slash ∨ a = [slash] ∧ two = false)

variable {two two' dup : Bool} {c x : UInt8} {s a b path name : List UInt8} {i : Nat}

/-! ## The last place of a symbol -/

theorem strrchr_free (free : c ∉ s) : strrchr c s = none := by
  induction s with
  | nil => rfl
  | cons x s ih =>
    rw [List.mem_cons, not_or] at free
    rw [strrchr, ih free.2]
    exact if_neg (Ne.symm free.1)

theorem strrchr_last (free : c ∉ b) : strrchr c (a ++ c :: b) = some a.length := by
  induction a with
  | nil =>
    rw [List.nil_append, strrchr, strrchr_free free]
    exact if_pos rfl
  | cons x a ih => rw [List.cons_append, strrchr, ih, List.length_cons]

theorem last_split (mem : c ∈ s) : ∃ a b, s = a ++ c :: b ∧ c ∉ b := by
  induction s with
  | nil => cases mem
  | cons x s ih =>
    by_cases behind : c ∈ s
    · obtain ⟨a, b, rfl, free⟩ := ih behind
      exact ⟨x :: a, b, rfl, free⟩
    · cases mem with
      | head => exact ⟨[], s, rfl, behind⟩
      | tail _ mem => exact absurd mem behind

theorem rtakeWhile_split (free : c ∉ b) : (a ++ c :: b).rtakeWhile (· != c) = b := by
  induction b using List.reverseRecOn with
  | nil => exact List.rtakeWhile_concat_neg _ _ _ (by simp)
  | append_singleton b x ih =>
    rw [List.mem_append, List.mem_singleton, not_or] at free
    rw [← List.cons_append, ← List.append_assoc,
      List.rtakeWhile_concat_pos _ _ _ (by simpa using Ne.symm free.2), ih free.1]

theorem rdropWhile_split (free : c ∉ b) : (a ++ c :: b).rdropWhile (· != c) = a ++ [c] := by
  have whole := List.rdropWhile_append_rtakeWhile (p := (· != c)) (l := a ++ c :: b)
  rw [rtakeWhile_split free] at whole
  exact List.append_cancel_right (whole.trans (List.append_cons a c b))

theorem not_isSlash : (fun b => !isSlash b) = (· != slash) := rfl

/-! ## The library's results -/

/-- A path that does not end with a slash. -/
theorem rdropWhile_name (free : slash ∉ b) (some : b ≠ []) :
    (a ++ b).rdropWhile isSlash = a ++ b := by
  obtain ⟨b, x, rfl⟩ := (List.eq_nil_or_concat' b).resolve_left some
  rw [← List.append_assoc]
  apply List.rdropWhile_concat_neg
  intro eq
  have eq := eq_of_beq eq
  exact free (eq ▸ List.mem_append_right b (List.mem_singleton_self x))

theorem basename_slash (free : slash ∉ b) (some : b ≠ []) :
    basename two (a ++ slash :: b) = b := by
  have whole : (a ++ slash :: b).rdropWhile isSlash = a ++ slash :: b := by
    rw [List.append_cons]
    exact rdropWhile_name free some
  rw [basename, whole, if_neg (by simp), if_neg (by simp), not_isSlash, rtakeWhile_split free]

theorem dirname_slash (free : slash ∉ b) (some : b ≠ []) : dirname two (a ++ slash :: b) =
    if a.rdropWhile isSlash = [] then root two (a ++ [slash]) else a.rdropWhile isSlash := by
  have whole : (a ++ slash :: b).rdropWhile isSlash = a ++ slash :: b := by
    rw [List.append_cons]
    exact rdropWhile_name free some
  unfold dirname
  simp only [whole, not_isSlash, rdropWhile_split free]
  rw [if_neg (by simp), if_neg (by simp), if_neg (by simp),
    List.rdropWhile_concat_pos _ _ _ (by rfl)]

theorem plain_of_free (free : slash ∉ path) (mem : x ∈ path) : (!isSlash x) = true := by
  have ne : x ≠ slash := fun eq => free (eq ▸ mem)
  simpa [isSlash] using ne

theorem basename_free (free : slash ∉ path) (some : path ≠ []) : basename two path = path := by
  have whole : path.rdropWhile isSlash = path := rdropWhile_name (a := []) free some
  have all : path.rtakeWhile (fun b => !isSlash b) = path := by
    rw [List.rtakeWhile_eq_self_iff]
    exact fun x mem => plain_of_free free mem
  rw [basename, whole, if_neg some, if_neg some, all]

theorem dirname_free (free : slash ∉ path) (some : path ≠ []) : dirname two path = dot := by
  have whole : path.rdropWhile isSlash = path := rdropWhile_name (a := []) free some
  have none : path.rdropWhile (fun b => !isSlash b) = [] := by
    rw [List.rdropWhile_eq_nil_iff]
    exact fun x mem => plain_of_free free mem
  unfold dirname
  simp only [whole]
  rw [none, if_neg some, if_neg some, if_pos rfl]

/-- `basename` never returns an empty name. -/
theorem basename_ne_nil : basename two path ≠ [] := by
  unfold basename
  split
  · exact List.cons_ne_nil _ _
  · split
    · unfold root
      split <;> exact List.cons_ne_nil _ _
    · rename_i some
      rw [Ne, List.rtakeWhile_eq_nil_iff]
      intro all
      have last := List.rdropWhile_last_not isSlash path some
      simp only [Bool.not_eq_true', Bool.not_eq_false] at all
      exact last (all some)

/-! ## `split_path` -/

theorem splitPath_free (free : slash ∉ path) :
    splitPath dup path = ⟨dot, path, simpleBase dup path⟩ := by
  rw [splitPath, strrchr_free free]

theorem splitPath_slash (free : slash ∉ b) : splitPath dup (a ++ slash :: b) =
    ⟨if a = [] then [slash] else a, b, simpleBase dup b⟩ := by
  have behind : (a ++ slash :: b).drop (a.length + 1) = b := by
    rw [List.append_cons, List.drop_left' (by simp)]
  rw [splitPath, strrchr_last free]
  simp only [behind, List.take_left, List.length_eq_zero_iff]

/-- The suffix is cut off as it should be wherever the name can be copied. -/
theorem simpleBase_iff : simpleBase dup name = some (withoutSuffix name) ↔ dup = true := by
  cases dup with
  | false => simp [simpleBase]
  | true =>
    simp only [simpleBase, ↓reduceIte, iff_true]
    by_cases suffix : 46 ∈ name
    · obtain ⟨a, b, rfl, free⟩ := last_split suffix
      rw [strrchr_last free, withoutSuffix, if_pos suffix, rdropWhile_split free,
        List.dropLast_concat]
      simp only [List.take_left]
    · rw [strrchr_free suffix, withoutSuffix, if_neg suffix]

/-- The directory is the one of `dirname` where no slash stands before the last. -/
theorem dir_iff : (if a = [] then [slash] else a) =
      (if a.rdropWhile isSlash = [] then root two (a ++ [slash]) else a.rdropWhile isSlash) ↔
    a.getLast? ≠ some slash ∨ a = [slash] ∧ two = false := by
  cases a using List.reverseRecOn with
  | nil => simp [root]
  | append_singleton a x =>
    rw [if_neg (by simp), List.getLast?_concat]
    by_cases eq : x = slash
    · subst eq
      rw [List.rdropWhile_concat_pos _ _ _ (by rfl)]
      split
      case isTrue none =>
        cases a with
        | nil => cases two <;> simp [root]
        | cons y a =>
          have long : y :: a ++ [slash] ++ [slash] ≠ [slash, slash] := by
            intro eq
            have length := congrArg List.length eq
            simp at length
          rw [root, if_neg fun both => long both.2]
          simp
      case isFalse text =>
        -- The slash at the end is there in the one and not in the other.
        have shorter := (List.rdropWhile_prefix isSlash (l := a)).length_le
        have longer : a ++ [slash] ≠ a.rdropWhile isSlash := by
          intro same
          have length := congrArg List.length same
          rw [List.length_append, List.length_singleton] at length
          omega
        have ne : a ≠ [] := by
          rintro rfl
          exact text rfl
        simp [longer, ne]
    · have plain : ¬ isSlash x = true := by simpa [isSlash] using eq
      rw [List.rdropWhile_concat_neg _ _ _ plain, if_neg (by simp)]
      simp [eq]

/-- A path has one last slash. -/
theorem single_slash (free : slash ∉ b) : Single two (a ++ slash :: b) ↔
    b ≠ [] ∧ (a.getLast? ≠ some slash ∨ a = [slash] ∧ two = false) := by
  constructor
  · exact fun all => all a b rfl free
  · intro both a' b' eq free'
    have base := rtakeWhile_split (a := a) free
    rw [eq, rtakeWhile_split free'] at base
    subst base
    rw [← List.append_cancel_right eq]
    exact both

theorem agrees_slash (free : slash ∉ b) : Agrees two two' dup (a ++ slash :: b) ↔
    (b ≠ [] ∧ (a.getLast? ≠ some slash ∨ a = [slash] ∧ two = false)) ∧ dup = true := by
  constructor
  · rintro ⟨dir, base, smpBase⟩
    rw [splitPath_slash free] at dir base smpBase
    have some : b ≠ [] := by
      rintro rfl
      exact basename_ne_nil base.symm
    rw [dirname_slash free some, dir_iff] at dir
    exact ⟨⟨some, dir⟩, simpleBase_iff.mp smpBase⟩
  · rintro ⟨⟨some, dir⟩, copy⟩
    constructor
    · rw [splitPath_slash free, dirname_slash free some]
      exact dir_iff.mpr dir
    · rw [splitPath_slash free, basename_slash free some]
    · rw [splitPath_slash free]
      exact simpleBase_iff.mpr copy

theorem agrees_free (free : slash ∉ path) (some : path ≠ []) :
    Agrees two two' dup path ↔ dup = true := by
  constructor
  · rintro ⟨_, _, smpBase⟩
    rw [splitPath_free free] at smpBase
    exact simpleBase_iff.mp smpBase
  · intro copy
    constructor
    · rw [splitPath_free free, dirname_free free some]
    · rw [splitPath_free free, basename_free free some]
    · rw [splitPath_free free]
      exact simpleBase_iff.mpr copy

/-- `split_path` does what the library does exactly on paths with single slashes and none at
the end, where the name can be copied. -/
theorem splitPath_agrees_iff (two two' dup : Bool) (path : List UInt8) (ne : path ≠ []) :
    Agrees two two' dup path ↔ Single two path ∧ dup = true := by
  by_cases mem : slash ∈ path
  · obtain ⟨a, b, rfl, free⟩ := last_split mem
    rw [agrees_slash free, single_slash free]
  · have single : Single two path := by
      rintro a b rfl
      simp at mem
    rw [agrees_free mem ne]
    exact (and_iff_right single).symm

/-- `/a.b` and `a.b`. -/
theorem splitPath_agrees_file : Agrees true false true [47, 97, 46, 98] ∧
    Agrees false true true [97, 46, 98] := by
  constructor
  · refine (splitPath_agrees_iff true false true [47, 97, 46, 98] (by decide)).mpr
      ⟨fun a b eq free => ?_, rfl⟩
    cases a with
    | nil =>
      obtain rfl := (List.cons.inj eq).2
      exact ⟨by decide, Or.inl (by decide)⟩
    | cons x a =>
      have mem : slash ∈ a ++ slash :: b := by simp
      have rest : [97, 46, 98] = a ++ slash :: b := (List.cons.inj eq).2
      rw [← rest] at mem
      exact absurd mem (by decide)
  · refine (splitPath_agrees_iff false true true [97, 46, 98] (by decide)).mpr
      ⟨fun a b eq free => ?_, rfl⟩
    have mem : slash ∈ a ++ slash :: b := by simp
    rw [← eq] at mem
    exact absurd mem (by decide)

/-- The name in `a/` is `a`, and the directory of `a//b` is `a`. -/
theorem splitPath_slashes : ¬ Agrees false false true [97, 47] ∧
    ¬ Agrees false false true [97, 47, 47, 98] :=
  ⟨fun h => absurd h.base (by decide), fun h => absurd h.dir (by decide)⟩

end LearnC.Dir
