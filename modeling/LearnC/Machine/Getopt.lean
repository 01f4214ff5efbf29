import Mathlib.Data.List.Basic

/-! `getopt_long` of the GNU library, with the operands moved behind the options: what its
calls return for the words of a command line, and the operands that remain. -/

namespace LearnC.Getopt

abbrev Word := List UInt8

/-- A `struct option` without a flag; `arg` where an argument is required. -/
structure Long where
  name : Word
  arg : Bool
  val : UInt8
deriving DecidableEq

structure Options where
  short : List UInt8
  long : List Long

/-- What a call returns, with `optarg` and, for a long option, its index. -/
structure Ret where
  opt : UInt8
  optarg : Option Word
  longIdx : Option Nat
deriving DecidableEq

/-- A `?`. -/
def bad : Ret := ⟨63, none, none⟩

/-- Whether a short option takes an argument; no option is a colon or a semicolon. -/
def shortArg (c : UInt8) : List UInt8 → Option Bool
  | [] => none
  | x :: rest =>
    if x = c ∧ c ≠ 58 ∧ c ≠ 59 then some (rest.head? == some 58) else shortArg c rest

/-- The long option of a name, or the one that the name is an abbreviation of. -/
def findLong (long : List Long) (name : Word) : Option (Long × Nat) :=
  match long.zipIdx.find? fun p => p.1.name == name with
  | some p => some p
  | none =>
    match long.zipIdx.filter fun p => name.isPrefixOf p.1.name with
    | [] => none
    | p :: others =>
      if others.all fun q => q.1.arg == p.1.arg && q.1.val == p.1.val then some p else none

/-- What a word is: an operand, `--`, or options, the last of which may still want its
argument. -/
inductive Kind where
  | operand
  | stop
  | options (rets : List Ret) (wants : Option Ret)

/-- The short options of a word. -/
def shortWord (short : List UInt8) : List UInt8 → List Ret × Option Ret
  | [] => ([], none)
  | c :: rest =>
    match shortArg c short with
    | none => (bad :: (shortWord short rest).1, (shortWord short rest).2)
    | some false => (⟨c, none, none⟩ :: (shortWord short rest).1, (shortWord short rest).2)
    | some true =>
      if rest = [] then ([], some ⟨c, none, none⟩) else ([⟨c, some rest, none⟩], none)

/-- The long option of a word, which may have its argument behind a `=`. -/
def longWord (long : List Long) (body : List UInt8) : List Ret × Option Ret :=
  let name := body.takeWhile (· != 61)
  let value := if 61 ∈ body then some (body.drop (name.length + 1)) else none
  match findLong long name, value with
  | none, _ => ([bad], none)
  | some (l, i), some value =>
    if l.arg then ([⟨l.val, some value, some i⟩], none) else ([bad], none)
  | some (l, i), none =>
    if l.arg then ([], some ⟨l.val, none, some i⟩) else ([⟨l.val, none, some i⟩], none)

def kind (o : Options) (w : Word) : Kind :=
  match w with
  | 45 :: 45 :: body =>
    if body = [] then .stop else .options (longWord o.long body).1 (longWord o.long body).2
  | 45 :: c :: rest => .options (shortWord o.short (c :: rest)).1 (shortWord o.short (c :: rest)).2
  | _ => .operand

/-- The returns of the calls, and the operands. -/
def results (o : Options) : List Word → List Ret × List Word
  | [] => ([], [])
  | w :: words =>
    match kind o w with
    | .operand => ((results o words).1, w :: (results o words).2)
    | .stop => ([], words)
    | .options rets none => (rets ++ (results o words).1, (results o words).2)
    | .options rets (some r) =>
      match words with
      | [] => (rets ++ [bad], [])
      | arg :: words =>
        (rets ++ { r with optarg := some arg } :: (results o words).1, (results o words).2)

/-- Words behind which the next one is read on its own. -/
inductive Complete (o : Options) : List Word → Prop
  | nil : Complete o []
  | operand {w : Word} {words : List Word} (is : kind o w = .operand)
      (rest : Complete o words) : Complete o (w :: words)
  | options {w : Word} {words : List Word} {rets : List Ret} (is : kind o w = .options rets none)
      (rest : Complete o words) : Complete o (w :: words)
  | wants {w arg : Word} {words : List Word} {rets : List Ret} {r : Ret}
      (is : kind o w = .options rets (some r)) (rest : Complete o words) :
      Complete o (w :: arg :: words)

variable {o : Options} {w arg : Word} {words front : List Word} {rets : List Ret} {r : Ret}

/-- An option that is found is one of the table. -/
theorem findLong_mem {long : List Long} {name : Word} {p : Long × Nat}
    (found : findLong long name = some p) : p ∈ long.zipIdx := by
  unfold findLong at found
  split at found
  · rename_i q exact
    obtain rfl := Option.some.inj found
    exact List.mem_of_find?_eq_some exact
  · split at found
    · cases found
    · rename_i q others some
      split at found
      · obtain rfl := Option.some.inj found
        have mem : q ∈ q :: others := List.mem_cons_self
        rw [← some] at mem
        exact (List.mem_filter.mp mem).1
      · cases found

theorem results_operand (is : kind o w = .operand) :
    results o (w :: words) = ((results o words).1, w :: (results o words).2) := by
  rw [results, is]

theorem results_options (is : kind o w = .options rets none) :
    results o (w :: words) = (rets ++ (results o words).1, (results o words).2) := by
  rw [results, is]

theorem results_wants (is : kind o w = .options rets (some r)) :
    results o (w :: arg :: words) =
      (rets ++ { r with optarg := some arg } :: (results o words).1, (results o words).2) := by
  rw [results, is]

theorem results_missing (is : kind o w = .options rets (some r)) :
    results o [w] = (rets ++ [bad], []) := by
  rw [results, is]

/-- Behind complete words the rest is read as if it were alone. -/
theorem results_append (complete : Complete o front) : results o (front ++ words) =
    ((results o front).1 ++ (results o words).1, (results o front).2 ++ (results o words).2) := by
  induction complete with
  | nil => rfl
  | operand is _ ih => rw [List.cons_append, results_operand is, results_operand is, ih]; rfl
  | options is _ ih =>
    rw [List.cons_append, results_options is, results_options is, ih, List.append_assoc]
  | wants is _ ih =>
    rw [List.cons_append, List.cons_append, results_wants is, results_wants is, ih,
      List.append_assoc]
    rfl

/-- What holds of the returns of every word holds of all returns. -/
theorem results_all {P : Ret → Prop} (wrong : P bad)
    (each : ∀ w rets wants, kind o w = .options rets wants → ∀ r ∈ rets, P r)
    (taken : ∀ w rets r arg, kind o w = .options rets (some r) → P { r with optarg := some arg }) :
    ∀ r ∈ (results o words).1, P r := by
  fun_induction results o words with
  | case1 => simp
  | case2 w words is ih => exact ih
  | case3 w words is => simp
  | case4 w words rets is ih =>
    intro r mem
    cases List.mem_append.mp mem with
    | inl own => exact each w rets none is r own
    | inr mem => exact ih r mem
  | case5 w rets r is =>
    intro x mem
    cases List.mem_append.mp mem with
    | inl own => exact each w rets (some r) is x own
    | inr mem => exact List.mem_singleton.mp mem ▸ wrong
  | case6 w rets r is arg words ih =>
    intro x mem
    cases List.mem_append.mp mem with
    | inl own => exact each w rets (some r) is x own
    | inr mem =>
      cases mem with
      | head => exact taken w rets r arg is
      | tail _ mem => exact ih x mem

end LearnC.Getopt
