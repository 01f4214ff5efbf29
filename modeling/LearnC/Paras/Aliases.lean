import LearnC.Machine.Getopt
import LearnC.Machine.Strings

/-! `proc_paras` of `getopt_long.c`, and what becomes of a command line in which a short
option is replaced by the long one that the usage text gives beside it. -/

namespace LearnC.Paras

open Getopt

structure CmdParas where
  enInit : Int
  enClean : Int
  output : Option Word
  verbose : Int
deriving DecidableEq

/-- How `proc_paras` ends: with the usage text on `stdout` or `stderr` and an exit code, in
`abort`, or with the fields and the operands that remain. -/
inductive Outcome where
  | usage (stderr : Bool) (code : Nat)
  | abort
  | done (paras : CmdParas) (operands : List Word)
deriving DecidableEq

def shortOpts : List UInt8 := chars "ho:v"

def longOpts : List Long :=
  [⟨chars "help", false, 104⟩, ⟨chars "init", false, 0⟩, ⟨chars "clean", false, 0⟩,
    ⟨chars "output", true, 111⟩, ⟨chars "verbose", true, 118⟩]

def options : Options := ⟨shortOpts, longOpts⟩

/-- `long_opts[long_idx].name`. -/
def optName (r : Ret) : Option Word := (r.longIdx.bind (longOpts[·]?)).map Long.name

/-- The `switch`: an end, or the fields as they are then. -/
def handle (paras : CmdParas) (r : Ret) : Except Outcome CmdParas :=
  if r.opt = 104 then .error (.usage false 0)
  else if r.opt = 0 then
    if optName r = some (chars "init") then .ok { paras with enInit := 1 }
    else if optName r = some (chars "clean") then .ok { paras with enClean := 1 }
    else .ok paras
  else if r.opt = 111 then .ok { paras with output := r.optarg }
  else if r.opt = 118 then .ok { paras with verbose := 1 }
  else if r.opt = 63 then .error (.usage true 1)
  else .error .abort

/-- The loop over the returns of `getopt_long`, and the check behind it. -/
def handleAll (paras : CmdParas) (operands : List Word) : List Ret → Outcome
  | [] => if paras.output = none then .usage true 1 else .done paras operands
  | r :: rets =>
    match handle paras r with
    | .error outcome => outcome
    | .ok paras => handleAll paras operands rets

/-- `proc_paras` as `main` calls it, with nothing set; `words` are those behind the name of
the program. -/
def procParas (words : List Word) : Outcome :=
  handleAll ⟨0, 0, none, 0⟩ (results options words).2 (results options words).1

def dashV : Word := chars "-v"
def dashO : Word := chars "-o"
def verboseWord : Word := chars "--verbose"
def outputWord : Word := chars "--output"

/-- One short option, read as an option, is replaced by the long one. -/
inductive Replaced : List Word → List Word → Prop
  | verbose (front rest : List Word) (complete : Complete options front) :
      Replaced (front ++ dashV :: rest) (front ++ verboseWord :: rest)
  | output (front : List Word) (file : Word) (rest : List Word)
      (complete : Complete options front) :
      Replaced (front ++ dashO :: file :: rest) (front ++ outputWord :: file :: rest)

/-! ## What a command line says -/

/-- The first return for help or an error, which flags are given, the last output file, and
the operands. -/
structure Reading where
  leaves : Option Nat
  init : Bool
  clean : Bool
  output : Option Word
  operands : List Word
deriving DecidableEq

/-- The exit code that goes with a return. -/
def exitCode (r : Ret) : Option Nat :=
  if r.opt = 104 then some 0 else if r.opt = 63 then some 1 else none

def flag (name : Word) (r : Ret) : Bool := r.opt == 0 && optName r == some name

def outputOf (r : Ret) : Option Word := if r.opt = 111 then r.optarg else none

def readRets (rets : List Ret) (operands : List Word) : Reading where
  leaves := rets.findSome? exitCode
  init := rets.any (flag (chars "init"))
  clean := rets.any (flag (chars "clean"))
  output := rets.reverse.findSome? outputOf
  operands := operands

def read (words : List Word) : Reading :=
  readRets (results options words).1 (results options words).2

/-- The exit code where help or an error comes first, or no output file is given. -/
def Reading.code (r : Reading) : Option Nat :=
  match r.leaves with
  | some code => some code
  | none => if r.output = none then some 1 else none

/-- What one part of a command line says, and what the part behind it says. -/
def Reading.andThen (r r' : Reading) : Reading where
  leaves := r.leaves.or r'.leaves
  init := r.init || r'.init
  clean := r.clean || r'.clean
  output := r'.output.or r.output
  operands := r.operands ++ r'.operands

/-! ## The words behind a `-v` -/

/-- The words behind a `-v`, read with the first of them on its own and read without it: what
either reading has to itself, and the words from which on they are the same. -/
structure Apart where
  own : Reading
  skipped : Reading
  tail : List Word

/-- The readings differ in one word, unless it is `--` or wants the next one as its argument:
that one is on its own where the first is left out. -/
def apart (w : Word) (rest : List Word) : Apart :=
  match kind options w with
  | .operand => ⟨readRets [] [w], readRets [] [], rest⟩
  | .stop => ⟨readRets [] rest, read rest, []⟩
  | .options rets none => ⟨readRets rets [], readRets [] [], rest⟩
  | .options rets (some r) =>
    match rest with
    | [] => ⟨readRets (rets ++ [bad]) [], readRets [] [], []⟩
    | arg :: rest =>
      let next := apart arg rest
      ⟨(readRets (rets ++ [{ r with optarg := some arg }]) []).andThen next.skipped, next.own,
        next.tail⟩

/-- The words `t` at the end lead to the usage text with this code: by the first help or error
among them, or for want of an output file in `f`, `x` and `t`. -/
def Leads (f x t : Reading) (code : Nat) : Prop :=
  t.leaves = some code ∨ t.leaves = none ∧ code = 1 ∧
    f.output = none ∧ x.output = none ∧ t.output = none

/-- Between `f` and `t` it makes no difference whether `x` or `y` is said. -/
def Hidden (f x y t : Reading) : Prop :=
  match x.leaves, y.leaves with
  | some code, some code' => code = code'
  | some code, none => Leads f y t code
  | none, some code => Leads f x t code
  | none, none =>
    t.leaves ≠ none ∨
    f.output = none ∧ x.output = none ∧ y.output = none ∧ t.output = none ∨
    (x.init = y.init ∨ f.init ∨ t.init) ∧ (x.clean = y.clean ∨ f.clean ∨ t.clean) ∧
      (t.output ≠ none ∨
        x.output.or f.output = y.output.or f.output ∧ x.output.or f.output ≠ none) ∧
      x.operands = y.operands

/-- Help or an error stands before a `-v`; or it is the last word and no output file is given;
or it makes no difference whether the word behind it stands on its own or is left out. -/
def Harmless (front : List Word) : List Word → Prop
  | [] => (read front).leaves ≠ none ∨ (read front).output = none
  | w :: rest => (read front).leaves ≠ none ∨
      Hidden (read front) (apart w rest).own (apart w rest).skipped (read (apart w rest).tail)

variable {words front rest operands : List Word} {rets rets' : List Ret} {r : Ret} {file w : Word}
  {paras : CmdParas} {wants : Option Ret}

/-! ## The returns for the options of the program -/

/-- The returns that the program knows. -/
structure Known (r : Ret) : Prop where
  opt : r.opt = 104 ∨ r.opt = 0 ∨ r.opt = 111 ∨ r.opt = 118 ∨ r.opt = 63
  output : r.opt = 111 → r.optarg ≠ none

theorem shortArg_options (c : UInt8) : shortArg c shortOpts =
    if c = 104 ∨ c = 118 then some false else if c = 111 then some true else none :=
  byte_forall (P := fun c => shortArg c shortOpts =
    if c = 104 ∨ c = 118 then some false else if c = 111 then some true else none)
    (by decide +kernel) c

theorem known_bad : Known bad := ⟨by decide, by decide⟩

theorem shortWord_known (body : List UInt8) :
    (∀ r ∈ (shortWord shortOpts body).1, Known r) ∧
      ∀ r arg, (shortWord shortOpts body).2 = some r → Known { r with optarg := some arg } := by
  induction body with
  | nil => exact ⟨by simp [shortWord], by simp [shortWord]⟩
  | cons c body ih =>
    rw [shortWord, shortArg_options]
    by_cases plain : c = 104 ∨ c = 118
    · rw [if_pos plain]
      refine ⟨?_, ih.2⟩
      rw [List.forall_mem_cons]
      refine ⟨⟨?_, ?_⟩, ih.1⟩
      · simp only
        tauto
      · rintro rfl
        exact absurd plain (by decide)
    · rw [if_neg plain]
      by_cases wants : c = 111
      · rw [if_pos wants]
        by_cases last : body = []
        · simp only [last, ↓reduceIte]
          refine ⟨by simp, ?_⟩
          rintro r arg eq
          obtain rfl := Option.some.inj eq
          exact ⟨by simp [wants], fun _ => Option.some_ne_none arg⟩
        · simp only [last, ↓reduceIte]
          refine ⟨?_, by simp⟩
          rintro r mem
          obtain rfl := List.mem_singleton.mp mem
          exact ⟨by simp [wants], fun _ => Option.some_ne_none body⟩
      · rw [if_neg wants]
        exact ⟨List.forall_mem_cons.mpr ⟨known_bad, ih.1⟩, ih.2⟩

theorem long_known {p : Long × Nat} (mem : p ∈ longOpts.zipIdx) :
    (p.1.val = 104 ∨ p.1.val = 0 ∨ p.1.val = 111 ∨ p.1.val = 118) ∧
      (p.1.val = 111 → p.1.arg = true) := by
  have all : (longOpts.zipIdx.all fun p =>
      (p.1.val == 104 || p.1.val == 0 || p.1.val == 111 || p.1.val == 118) &&
        (p.1.val != 111 || p.1.arg)) = true := by decide
  have own := List.all_eq_true.mp all p mem
  simp only [Bool.and_eq_true, Bool.or_eq_true, beq_iff_eq, bne_iff_ne] at own
  tauto

theorem longWord_known (body : List UInt8) :
    (∀ r ∈ (longWord longOpts body).1, Known r) ∧
      ∀ r arg, (longWord longOpts body).2 = some r → Known { r with optarg := some arg } := by
  unfold longWord
  simp only
  split
  · exact ⟨List.forall_mem_singleton.mpr known_bad, by simp⟩
  · rename_i l i value found _
    obtain ⟨val, arg⟩ := long_known (findLong_mem found)
    split
    · refine ⟨List.forall_mem_singleton.mpr ⟨by tauto, fun _ => Option.some_ne_none value⟩, by simp⟩
    · exact ⟨List.forall_mem_singleton.mpr known_bad, by simp⟩
  · rename_i l i found _
    obtain ⟨val, arg⟩ := long_known (findLong_mem found)
    split
    · refine ⟨by simp, ?_⟩
      rintro r arg eq
      obtain rfl := Option.some.inj eq
      exact ⟨by tauto, fun _ => Option.some_ne_none arg⟩
    · rename_i none
      refine ⟨List.forall_mem_singleton.mpr ⟨by tauto, fun eq => ?_⟩, by simp⟩
      exact absurd (arg eq) none

theorem kind_known (is : kind options w = .options rets wants) :
    (∀ r ∈ rets, Known r) ∧ ∀ r arg, wants = some r → Known { r with optarg := some arg } := by
  unfold kind at is
  split at is
  · split at is
    · cases is
    · cases is
      exact longWord_known _
  · cases is
    exact shortWord_known _
  · cases is

/-- `abort` is never reached, and a file comes with every `-o`. -/
theorem results_known (words : List Word) : ∀ r ∈ (results options words).1, Known r :=
  results_all known_bad (fun _ _ _ is => (kind_known is).1)
    fun _ _ r arg is => (kind_known is).2 r arg rfl

/-! ## The outcome -/

def isVerbose (r : Ret) : Bool := r.opt == 118

/-- The outcome that belongs to what a command line says. -/
def outcomeOf (r : Reading) (verbose : Bool) : Outcome :=
  match r.code with
  | some code => .usage (code != 0) code
  | none => .done ⟨if r.init then 1 else 0, if r.clean then 1 else 0, r.output,
      if verbose then 1 else 0⟩ r.operands

/-- The fields after returns that do not leave the loop. -/
def settle (paras : CmdParas) (rets : List Ret) : CmdParas where
  enInit := if rets.any (flag (chars "init")) then 1 else paras.enInit
  enClean := if rets.any (flag (chars "clean")) then 1 else paras.enClean
  output := (rets.reverse.findSome? outputOf).or paras.output
  verbose := if rets.any isVerbose then 1 else paras.verbose

theorem handle_leaves {code : Nat} (leaves : exitCode r = some code) :
    handle paras r = .error (.usage (code != 0) code) := by
  unfold exitCode at leaves
  unfold handle
  split at leaves
  · rename_i help
    cases leaves
    rw [if_pos help]
    rfl
  · split at leaves
    · rename_i wrong
      cases leaves
      simp [wrong]
    · cases leaves

theorem handle_stays (known : Known r) (stays : exitCode r = none) :
    handle paras r = .ok (settle paras [r]) := by
  obtain ⟨opt, output⟩ := known
  obtain ⟨val, arg, idx⟩ := r
  simp only at opt output
  rcases opt with rfl | rfl | rfl | rfl | rfl
  · cases stays
  · have apart : chars "init" ≠ chars "clean" := by decide
    by_cases init : optName ⟨0, arg, idx⟩ = some (chars "init")
    · simp [handle, settle, flag, outputOf, isVerbose, init, apart]
    · by_cases clean : optName ⟨0, arg, idx⟩ = some (chars "clean")
      · simp [handle, settle, flag, outputOf, isVerbose, clean, apart.symm]
      · simp [handle, settle, flag, outputOf, isVerbose, init, clean]
  · obtain ⟨file, rfl⟩ := Option.ne_none_iff_exists'.mp (output rfl)
    simp [handle, settle, flag, outputOf, isVerbose]
  · simp [handle, settle, flag, outputOf, isVerbose]
  · cases stays

theorem set_twice (first later : Bool) (v : Int) :
    (if later = true then 1 else if first = true then 1 else v) =
      if (first || later) = true then 1 else v := by
  cases first <;> cases later <;> rfl

theorem settle_cons : settle (settle paras [r]) rets = settle paras (r :: rets) := by
  simp only [settle, List.any_cons, List.any_nil, Bool.or_false, List.reverse_cons,
    List.reverse_nil, List.nil_append, List.findSome?_append, List.findSome?_singleton,
    Option.or_assoc, CmdParas.mk.injEq, true_and]
  exact ⟨set_twice _ _ _, set_twice _ _ _, set_twice _ _ _⟩

/-- The loop runs up to the first return for help or an error, or to the end. -/
theorem handleAll_eq (known : ∀ r ∈ rets, Known r) : handleAll paras operands rets =
    match rets.findSome? exitCode with
    | some code => .usage (code != 0) code
    | none => if (settle paras rets).output = none then .usage true 1
      else .done (settle paras rets) operands := by
  induction rets generalizing paras with
  | nil => simp [handleAll, settle]
  | cons r rets ih =>
    rw [List.forall_mem_cons] at known
    rw [handleAll, List.findSome?_cons]
    cases leaves : exitCode r with
    | some code => rw [handle_leaves leaves]
    | none =>
      rw [handle_stays known.1 leaves]
      simp only [ih known.2, settle_cons]

theorem procParas_eq (words : List Word) : procParas words =
    outcomeOf (read words) ((results options words).1.any isVerbose) := by
  rw [procParas, handleAll_eq (results_known words), outcomeOf, Reading.code, read, readRets]
  simp only
  cases (results options words).1.findSome? exitCode with
  | some code => rfl
  | none =>
    simp only [settle, Option.or_none]
    cases (results options words).1.reverse.findSome? outputOf with
    | none => rfl
    | some file => rfl

/-- Two command lines come to the same, apart from `-v`: the usage text with one exit code,
or the same flags, output file and operands. -/
def Alike (r r' : Reading) : Prop :=
  r.code = r'.code ∧ (r.code = none → r.init = r'.init ∧ r.clean = r'.clean ∧
    r.output = r'.output ∧ r.operands = r'.operands)

theorem alike_comm {r r' : Reading} : Alike r r' ↔ Alike r' r := by
  have swap {p q : Reading} (alike : Alike p q) : Alike q p := by
    obtain ⟨code, fields⟩ := alike
    refine ⟨code.symm, fun stays => ?_⟩
    obtain ⟨init, clean, output, operands⟩ := fields (code.trans stays)
    exact ⟨init.symm, clean.symm, output.symm, operands.symm⟩
  exact ⟨swap, swap⟩

theorem alike_of_code {r r' : Reading} {code : Nat} (leads : r.code = some code) :
    Alike r r' ↔ r'.code = some code := by
  simp [Alike, leads, eq_comm]

theorem outcomeOf_eq_iff {r r' : Reading} : outcomeOf r true = outcomeOf r' true ↔ Alike r r' := by
  have number (b b' : Bool) : (if b then (1 : Int) else 0) = (if b' then 1 else 0) ↔ b = b' := by
    cases b <;> cases b' <;> simp
  unfold outcomeOf Alike
  cases r.code with
  | some code =>
    cases r'.code with
    | some code' =>
      simp only [Outcome.usage.injEq, Option.some.injEq, reduceCtorEq, false_imp_iff, and_true,
        and_iff_right_iff_imp]
      rintro rfl
      rfl
    | none => simp
  | none =>
    cases r'.code with
    | some code' => simp
    | none => simp [number, and_assoc]

/-! ## The two replacements -/

/-- A return that says nothing but `-v`. -/
theorem readRets_verbose {arg : Option Word} {idx : Option Nat} :
    readRets (rets ++ ⟨118, arg, idx⟩ :: rets') operands = readRets (rets ++ rets') operands := by
  have exit : exitCode ⟨118, arg, idx⟩ = none := rfl
  have out : outputOf ⟨118, arg, idx⟩ = none := rfl
  have no (name : Word) : flag name ⟨118, arg, idx⟩ = false := rfl
  simp only [readRets, List.findSome?_append, List.findSome?_cons, exit, List.any_append,
    List.any_cons, no, Bool.false_or, List.reverse_append, List.reverse_cons, List.findSome?_nil,
    out, Option.or_none]

theorem kind_dashV : kind options dashV = .options [⟨118, none, none⟩] none := rfl

theorem kind_dashO : kind options dashO = .options [] (some ⟨111, none, none⟩) := rfl

theorem kind_verboseWord : kind options verboseWord =
    .options [] (some ⟨118, none, some 4⟩) := rfl

theorem kind_outputWord : kind options outputWord =
    .options [] (some ⟨111, none, some 3⟩) := rfl

theorem read_append (complete : Complete options front) : read (front ++ rest) =
    readRets ((results options front).1 ++ (results options rest).1)
      ((results options front).2 ++ (results options rest).2) := by
  rw [read, results_append complete]

theorem procParas_dashV (complete : Complete options front) :
    procParas (front ++ dashV :: rest) = outcomeOf (read (front ++ rest)) true := by
  rw [procParas_eq, read_append complete, read_append complete, results_append complete,
    results_options kind_dashV]
  simp only [List.singleton_append, readRets_verbose, List.any_append, List.any_cons]
  have yes : isVerbose ⟨118, none, none⟩ = true := rfl
  rw [yes, Bool.true_or, Bool.or_true]

/-- The long option takes the word behind it. -/
theorem procParas_verboseWord (complete : Complete options front) :
    procParas (front ++ verboseWord :: w :: rest) = outcomeOf (read (front ++ rest)) true := by
  rw [procParas_eq, read_append complete, read_append complete, results_append complete,
    results_wants kind_verboseWord]
  simp only [List.nil_append, readRets_verbose, List.any_append, List.any_cons]
  have yes : isVerbose ⟨118, some w, some 4⟩ = true := rfl
  rw [yes, Bool.true_or, Bool.or_true]

theorem procParas_last (complete : Complete options front) :
    procParas (front ++ [verboseWord]) =
      .usage (((read front).leaves.getD 1) != 0) ((read front).leaves.getD 1) := by
  rw [procParas_eq, read_append complete, results_missing kind_verboseWord, outcomeOf, Reading.code]
  simp only [read, readRets, List.nil_append, List.findSome?_append]
  cases (results options front).1.findSome? exitCode with
  | some code => rfl
  | none => rfl

theorem readRets_append {more : List Word} : readRets (rets ++ rets') (operands ++ more) =
    (readRets rets operands).andThen (readRets rets' more) := by
  simp only [readRets, Reading.andThen, List.findSome?_append, List.any_append, List.reverse_append]

@[simp] theorem Reading.nil_andThen {p : Reading} : (readRets [] []).andThen p = p := by
  simp [readRets, Reading.andThen]

@[simp] theorem Reading.andThen_nil {p : Reading} : p.andThen (readRets [] []) = p := by
  simp [readRets, Reading.andThen]

theorem Reading.andThen_assoc {p q t : Reading} :
    (p.andThen q).andThen t = p.andThen (q.andThen t) := by
  simp [Reading.andThen, Bool.or_assoc, Option.or_assoc]

theorem read_andThen (complete : Complete options front) :
    read (front ++ rest) = (read front).andThen (read rest) := by
  rw [read_append complete, readRets_append]
  rfl

theorem read_nil : read [] = readRets [] [] := rfl

/-- Both readings, up to where they are the same and from there on. -/
theorem apart_spec (w : Word) (rest : List Word) :
    read (w :: rest) = (apart w rest).own.andThen (read (apart w rest).tail) ∧
      read rest = (apart w rest).skipped.andThen (read (apart w rest).tail) := by
  fun_induction apart w rest with
  | case1 rest w is =>
    refine ⟨?_, by simp⟩
    rw [read, results_operand is, read, ← readRets_append]
    rfl
  | case2 rest w is =>
    refine ⟨?_, by simp [read_nil]⟩
    rw [read, results, is, read_nil, ← readRets_append, List.append_nil, List.append_nil]
  | case3 rest w rets is =>
    refine ⟨?_, by simp⟩
    rw [read, results_options is, read, ← readRets_append]
    rfl
  | case4 w rets r is =>
    refine ⟨?_, by simp [read_nil]⟩
    rw [read, results_missing is, read_nil, ← readRets_append, List.append_nil, List.append_nil]
  | case5 w rets r is arg rest next ih =>
    refine ⟨?_, ih.1⟩
    rw [Reading.andThen_assoc, ← ih.2, read, results_wants is, read, ← readRets_append,
      List.append_assoc]
    rfl

section
variable {f x y t : Reading} {code : Nat}

theorem code_said (stays : f.leaves = none) (said : x.leaves = some code) :
    (f.andThen (x.andThen t)).code = some code := by
  simp [Reading.code, Reading.andThen, stays, said]

theorem code_leads (stays : f.leaves = none) (quiet : x.leaves = none) :
    (f.andThen (x.andThen t)).code = some code ↔ Leads f x t code := by
  simp only [Reading.code, Reading.andThen, Leads, stays, quiet, Option.none_or]
  cases t.leaves with
  | some code' => simp
  | none =>
    simp only [Option.or_eq_none_iff, reduceCtorEq, true_and, false_or,
      Option.ite_none_right_eq_some, Option.some.injEq]
    tauto

/-- Where neither of `x` and `y` leads to the usage text, what they differ in is to be said
before or behind. -/
theorem hidden_quiet (stays : f.leaves = none) (quiet : x.leaves = none)
    (quiet' : y.leaves = none) :
    Alike (f.andThen (x.andThen t)) (f.andThen (y.andThen t)) ↔ Hidden f x y t := by
  have same_or (a b c d : Bool) : (a || (b || d)) = (a || (c || d)) ↔ b = c ∨ a ∨ d := by
    cases a <;> cases b <;> cases c <;> cases d <;> decide
  simp only [Alike, Hidden, Reading.code, Reading.andThen, stays, quiet, quiet', Option.none_or,
    same_or, List.append_cancel_left_eq, List.append_cancel_right_eq]
  cases t.leaves with
  | some code => simp
  | none =>
    cases t.output with
    | some file => simp
    | none =>
      cases x.output <;> cases y.output <;> cases f.output <;> simp

/-- Said behind `f`, one of `x` and `y` comes to the same as the other. -/
theorem hidden_iff (stays : f.leaves = none) :
    Alike (f.andThen (x.andThen t)) (f.andThen (y.andThen t)) ↔ Hidden f x y t := by
  cases said : x.leaves with
  | some code =>
    rw [alike_of_code (code_said stays said)]
    cases said' : y.leaves with
    | some code' =>
      rw [code_said stays said']
      simp [Hidden, said, said', eq_comm]
    | none =>
      rw [code_leads stays said']
      simp [Hidden, said, said']
  | none =>
    cases said' : y.leaves with
    | some code' =>
      rw [alike_comm, alike_of_code (code_said stays said'), code_leads stays said]
      simp [Hidden, said, said']
    | none => exact hidden_quiet stays said said'

end

theorem harmless_iff (complete : Complete options front) : Harmless front (w :: rest) ↔
    Alike (read (front ++ w :: rest)) (read (front ++ rest)) := by
  obtain ⟨own, skipped⟩ := apart_spec w rest
  rw [read_andThen complete, read_andThen complete, own, skipped, Harmless]
  cases leaves : (read front).leaves with
  | none => simp [hidden_iff leaves]
  | some code =>
    refine iff_of_true (.inl (Option.some_ne_none code)) ?_
    simp [Alike, Reading.code, Reading.andThen, leaves]

/-- Whether `-v` is given in one form or the other matters where the word behind it counts. -/
theorem verbose_same_iff (complete : Complete options front) :
    procParas (front ++ verboseWord :: rest) = procParas (front ++ dashV :: rest) ↔
      Harmless front rest := by
  rw [procParas_dashV complete]
  cases rest with
  | nil =>
    rw [procParas_last complete, List.append_nil, outcomeOf, Harmless, Reading.code]
    cases (read front).leaves with
    | some code => simp
    | none =>
      cases (read front).output with
      | none => simp
      | some file => simp
  | cons word rest =>
    rw [procParas_verboseWord complete, eq_comm, harmless_iff complete]
    exact outcomeOf_eq_iff

/-- Returns that are handled alike can be exchanged. -/
theorem handleAll_replace {r r' : Ret} (same : ∀ paras, handle paras r = handle paras r') :
    handleAll paras operands (rets ++ r :: rets') =
      handleAll paras operands (rets ++ r' :: rets') := by
  induction rets generalizing paras with
  | nil => rw [List.nil_append, List.nil_append, handleAll, handleAll, same]
  | cons x rets ih =>
    rw [List.cons_append, List.cons_append, handleAll, handleAll]
    cases handle paras x with
    | error outcome => rfl
    | ok paras => exact ih

theorem output_same (complete : Complete options front) :
    procParas (front ++ outputWord :: file :: rest) =
      procParas (front ++ dashO :: file :: rest) := by
  rw [procParas, procParas, results_append complete, results_append complete,
    results_wants kind_dashO, results_wants kind_outputWord]
  exact handleAll_replace fun paras => rfl

/-- In a command line the short options can be replaced by the long ones exactly where the word
behind each `-v` counts for nothing. -/
theorem aliases_iff (words : List Word) :
    (∀ words', Replaced words words' → procParas words' = procParas words) ↔
      ∀ front rest, words = front ++ dashV :: rest → Complete options front →
        Harmless front rest := by
  constructor
  · rintro same front rest rfl complete
    exact (verbose_same_iff complete).mp (same _ (.verbose front rest complete))
  · intro harmless words' replaced
    cases replaced with
    | verbose front rest complete =>
      exact (verbose_same_iff complete).mpr (harmless front rest rfl complete)
    | output front file rest complete => exact output_same complete

/-- Another `-v` behind a `-v` counts for nothing. -/
theorem harmless_dashV (complete : Complete options front) :
    Harmless front (dashV :: rest) := by
  have same : read (front ++ dashV :: rest) = read (front ++ rest) := by
    rw [read_append complete, read_append complete, results_options kind_dashV]
    exact readRets_verbose
  rw [harmless_iff complete, same]
  exact ⟨rfl, fun _ => ⟨rfl, rfl, rfl, rfl⟩⟩

/-- An operand counts, unless there is the usage text instead of operands. -/
theorem harmless_operand (complete : Complete options front) (is : kind options w = .operand) :
    Harmless front (w :: rest) ↔ (read (front ++ rest)).code ≠ none := by
  have same : (read (front ++ w :: rest)).code = (read (front ++ rest)).code := by
    rw [read_append complete, read_append complete, results_operand is]
    rfl
  rw [harmless_iff complete, Alike, same]
  constructor
  · rintro ⟨_, fields⟩ none
    have operands := (fields none).2.2.2
    rw [read_append complete, read_append complete, results_operand is] at operands
    have length := congrArg List.length operands
    simp [readRets] at length
  · exact fun usage => ⟨rfl, fun none => absurd none usage⟩

/-- Behind help or an error nothing counts. -/
theorem harmless_leaves (leaves : (read front).leaves ≠ none) : Harmless front rest := by
  cases rest <;> exact .inl leaves

/-- The operand behind `-v` becomes the argument of `--verbose`. -/
theorem verbose_takes_operand :
    Replaced [dashV, chars "hello", dashO, chars "f"]
        [verboseWord, chars "hello", dashO, chars "f"] ∧
      procParas [verboseWord, chars "hello", dashO, chars "f"] ≠
        procParas [dashV, chars "hello", dashO, chars "f"] :=
  ⟨.verbose [] _ .nil, by decide⟩

end LearnC.Paras
