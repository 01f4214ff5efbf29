import LearnC.Daemon.Guard
import LearnC.Machine.Strings
import Mathlib.Data.List.ModifyLast

/-! `parse_args`: the array of workers that is filled from the command line. -/

namespace LearnC.Daemon

/-- The array, which fields have been written, and the variables of `parse_args`. -/
structure Workers where
  entry : Nat → Worker
  written : Nat → List Field
  count : Nat
  capacity : Nat

/-- How `parse_args` ends: it returns, exits with an error, or has accessed an element
that is none of the workers. -/
inductive Parsed where
  | done (s : Workers)
  | exit
  | wild

/-- `workers[k]`, where it is one of the workers, with the fields `fs` written. -/
def Workers.access (s : Workers) (k : Int) (fs : List Field) (f : Worker → Worker) :
    Option Workers :=
  if 0 ≤ k ∧ k < s.count ∧ s.count ≤ s.capacity then
    some { s with
      entry := Function.update s.entry k.toNat (f (s.entry k.toNat))
      written := Function.update s.written k.toNat (s.written k.toNat ++ fs) }
  else none

/-- `malloc`: what the elements hold is not known. -/
def Workers.malloc (memory : Nat → Worker) : Workers := ⟨memory, fun _ => [], 0, 2⟩

/-- `realloc` keeps the elements there are. -/
def Workers.grow (s : Workers) : Workers :=
  if s.count ≥ s.capacity then { s with capacity := s.capacity * 2 } else s

/-- `--cmd`. -/
def Workers.addCmd (s : Workers) (arg : List UInt8) : Option Workers :=
  let s := s.grow
  { s with count := s.count + 1 }.access s.count
    [.command, .name, .maxRestarts, .restartDelay, .pid] fun w =>
      { w with
        command := arg, name := chars "unnamed", maxRestarts := 3, restartDelay := 1, pid := -1 }

def Workers.setName (s : Workers) (arg : List UInt8) : Option Workers :=
  s.access (s.count - 1) [.name] fun w => { w with name := arg }

def Workers.setMaxRestarts (s : Workers) (arg : List UInt8) : Option Workers :=
  s.access (s.count - 1) [.maxRestarts] fun w => { w with maxRestarts := atoi arg }

def Workers.setRestartDelay (s : Workers) (arg : List UInt8) : Option Workers :=
  s.access (s.count - 1) [.restartDelay] fun w => { w with restartDelay := atoi arg }

/-- The loop of `parse_args` over what is left of `argv`. -/
def parseLoop (s : Workers) : List (List UInt8) → Parsed
  | [] => .done s
  | [arg] => if arg = chars "--" then .done s else .exit
  | arg :: value :: rest =>
    if arg = chars "--cmd" then
      match s.addCmd value with
      | some s => parseLoop s rest
      | none => .wild
    else if arg = chars "--name" then
      match s.setName value with
      | some s => parseLoop s rest
      | none => .wild
    else if arg = chars "--max-restarts" then
      match s.setMaxRestarts value with
      | some s => parseLoop s rest
      | none => .wild
    else if arg = chars "--restart-delay" then
      match s.setRestartDelay value with
      | some s => parseLoop s rest
      | none => .wild
    else if arg = chars "--" then parseLoop s (value :: rest)
    else .exit

def parseArgs (memory : Nat → Worker) (argv : List (List UInt8)) : Parsed :=
  parseLoop (.malloc memory) argv

/-! ## The options -/

inductive Opt where
  | cmd (arg : List UInt8)
  | name (arg : List UInt8)
  | maxRestarts (arg : List UInt8)
  | restartDelay (arg : List UInt8)

/-- The options of a command line, unless one of its arguments is refused. -/
def options : List (List UInt8) → Option (List Opt)
  | [] => some []
  | [arg] => if arg = chars "--" then some [] else none
  | arg :: value :: rest =>
    if arg = chars "--cmd" then (options rest).map (.cmd value :: ·)
    else if arg = chars "--name" then (options rest).map (.name value :: ·)
    else if arg = chars "--max-restarts" then (options rest).map (.maxRestarts value :: ·)
    else if arg = chars "--restart-delay" then (options rest).map (.restartDelay value :: ·)
    else if arg = chars "--" then options (value :: rest)
    else none

/-- The worker that a `--cmd` opens. -/
def opened (arg : List UInt8) : Worker where
  command := arg
  name := chars "unnamed"
  pid := -1
  maxRestarts := 3
  restartDelay := 1
  restartCount := 0
  lastRestart := 0

/-- What an option makes of the workers so far: another one, or a change of the last. -/
def Opt.apply (ws : List Worker) : Opt → List Worker
  | .cmd arg => ws ++ [opened arg]
  | .name arg => ws.modifyLast fun w => { w with name := arg }
  | .maxRestarts arg => ws.modifyLast fun w => { w with maxRestarts := atoi arg }
  | .restartDelay arg => ws.modifyLast fun w => { w with restartDelay := atoi arg }

def reference (opts : List Opt) : List Worker := opts.foldl Opt.apply []

/-- What `monitor_workers` reads before anything else has written it; `last_restart` is
set when a worker is started. -/
def monitored : List Field :=
  [.command, .name, .pid, .maxRestarts, .restartDelay, .restartCount]

/-- The same worker, apart from `last_restart`. -/
def Worker.Same (w w' : Worker) : Prop := w = { w' with lastRestart := w.lastRestart }

/-- The workers are those of the options, with all that will be read written. -/
structure Workers.Complete (s : Workers) (opts : List Opt) : Prop where
  count : s.count = (reference opts).length
  same : ∀ k w, (reference opts)[k]? = some w → (s.entry k).Same w
  written : ∀ k < s.count, monitored ⊆ s.written k

/-- What is promised of `parse_args`. -/
def Safe (memory : Nat → Worker) (argv : List (List UInt8)) : Prop :=
  match parseArgs memory argv with
  | .wild => False
  | .exit => True
  | .done s => ∃ opts, options argv = some opts ∧ s.Complete opts

/-- Behind nothing but separators there is an option, with its value, for a worker. -/
def Premature (argv : List (List UInt8)) : Prop :=
  ∃ n opt value rest, argv = List.replicate n (chars "--") ++ opt :: value :: rest ∧
    opt ∈ [chars "--name", chars "--max-restarts", chars "--restart-delay"]

variable {memory : Nat → Worker} {s s' : Workers} {ws : List Worker} {w : Worker}
  {argv rest : List (List UInt8)} {arg value : List UInt8} {fs : List Field}
  {f : Worker → Worker} {opts : List Opt} {o : Opt}

/-- A worker of the array: what no option sets is as it was found in memory. -/
def Worker.found (w m : Worker) : Worker :=
  { w with restartCount := m.restartCount, lastRestart := m.lastRestart }

/-- The array has the workers of the options so far, but for what was found in memory. -/
structure Refines (memory : Nat → Worker) (s : Workers) (ws : List Worker) : Prop where
  count : s.count = ws.length
  room : s.count ≤ s.capacity ∧ 0 < s.capacity
  entry : ∀ k w, ws[k]? = some w → s.entry k = w.found (memory k)
  beyond : ∀ k, s.count ≤ k → s.entry k = memory k
  unwritten : ∀ k, .restartCount ∉ s.written k

theorem refines_malloc : Refines memory (.malloc memory) [] where
  count := rfl
  room := ⟨Nat.zero_le 2, Nat.two_pos⟩
  entry := fun k w h => by simp at h
  beyond := fun _ _ => rfl
  unwritten := fun _ => List.not_mem_nil

theorem grow_eq (s : Workers) : s.grow = { s with capacity := s.grow.capacity } := by
  unfold Workers.grow
  split <;> rfl

theorem grow_room (room : s.count ≤ s.capacity ∧ 0 < s.capacity) :
    s.count + 1 ≤ s.grow.capacity := by
  unfold Workers.grow
  split
  · change s.count + 1 ≤ s.capacity * 2
    omega
  · omega

theorem Workers.access_eq {k : Nat} (lt : k < s.count) (room : s.count ≤ s.capacity) :
    s.access k fs f = some { s with
      entry := Function.update s.entry k (f (s.entry k))
      written := Function.update s.written k (s.written k ++ fs) } :=
  if_pos ⟨Int.natCast_nonneg k, Int.ofNat_lt.mpr lt, room⟩

theorem unwritten_update {k : Nat} (R : Refines memory s ws) (other : .restartCount ∉ fs)
    (j : Nat) :
    .restartCount ∉ Function.update s.written k (s.written k ++ fs) j := by
  rw [Function.update_apply]
  split
  · rw [List.mem_append, not_or]
    exact ⟨R.unwritten k, other⟩
  · exact R.unwritten j

theorem addCmd_eq (room : s.count ≤ s.capacity ∧ 0 < s.capacity) : s.addCmd arg = some
    { entry := Function.update s.entry s.count ((opened arg).found (s.entry s.count))
      written := Function.update s.written s.count (s.written s.count ++
        [.command, .name, .maxRestarts, .restartDelay, .pid])
      count := s.count + 1
      capacity := s.grow.capacity } := by
  rw [Workers.addCmd, grow_eq s]
  exact Workers.access_eq (Nat.lt_succ_self _) (grow_room room)

theorem Refines.addCmd (R : Refines memory s ws) : ∃ s', s.addCmd arg = some s' ∧
    Refines memory s' (ws ++ [opened arg]) := by
  have room := grow_room R.room
  refine ⟨_, addCmd_eq R.room, ?_⟩
  constructor
  · rw [List.length_append, List.length_singleton, ← R.count]
  · exact ⟨room, Nat.lt_of_lt_of_le (Nat.succ_pos s.count) room⟩
  · intro k w at_k
    simp only [Function.update_apply]
    rw [List.getElem?_append] at at_k
    split at at_k
    case isTrue lt =>
      rw [← R.count] at lt
      rw [if_neg (Nat.ne_of_lt lt)]
      exact R.entry k w at_k
    case isFalse le =>
      rw [List.getElem?_singleton] at at_k
      split at at_k
      case isTrue first =>
        obtain rfl := Option.some.inj at_k
        have last : k = s.count := by
          rw [R.count]
          omega
        rw [if_pos last, last, R.beyond s.count (Nat.le_refl _)]
      case isFalse => cases at_k
  · intro k le
    simp only [Function.update_apply]
    rw [if_neg (Nat.ne_of_gt le)]
    exact R.beyond k (Nat.le_of_succ_le le)
  · exact unwritten_update R (by decide)

theorem Refines.none (R : Refines memory s []) : s.access (s.count - 1) fs f = none := by
  apply if_neg
  rw [R.count]
  rintro ⟨le, _⟩
  cases le

theorem Refines.access (R : Refines memory s (ws ++ [w]))
    (keeps : ∀ w m : Worker, f (w.found m) = (f w).found m) (other : .restartCount ∉ fs) :
    ∃ s', s.access (s.count - 1) fs f = some s' ∧ Refines memory s' (ws ++ [f w]) := by
  have count := R.count
  rw [List.length_append, List.length_singleton] at count
  have last : (s.count : Int) - 1 = (ws.length : Nat) := by omega
  rw [last]
  refine ⟨_, Workers.access_eq (by omega) R.room.1, ?_⟩
  constructor
  · rw [List.length_append, List.length_singleton]
    exact count
  · exact R.room
  · intro k w' at_k
    simp only [Function.update_apply]
    rw [List.getElem?_append] at at_k
    split at at_k
    case isTrue lt =>
      rw [if_neg (Nat.ne_of_lt lt)]
      apply R.entry
      rw [List.getElem?_append_left lt, at_k]
    case isFalse le =>
      rw [List.getElem?_singleton] at at_k
      split at at_k
      case isTrue first =>
        obtain rfl := Option.some.inj at_k
        have place : k = ws.length := by omega
        rw [if_pos place, place, R.entry ws.length w (by simp), keeps]
      case isFalse => cases at_k
  · intro k le
    simp only at le
    simp only [Function.update_apply]
    rw [if_neg (by omega)]
    exact R.beyond k le
  · exact unwritten_update R other

/-! ## The command line -/

theorem premature_sep : Premature (chars "--" :: argv) ↔ Premature argv := by
  constructor
  · rintro ⟨n, opt, value, rest, eq, mem⟩
    cases n with
    | zero =>
      obtain ⟨rfl, _⟩ := List.cons.inj eq
      exact absurd mem (by decide)
    | succ n => exact ⟨n, opt, value, rest, (List.cons.inj eq).2, mem⟩
  · rintro ⟨n, opt, value, rest, rfl, mem⟩
    exact ⟨n + 1, opt, value, rest, rfl, mem⟩

theorem premature_opt (mem : arg ∈ [chars "--name", chars "--max-restarts",
    chars "--restart-delay"]) : Premature (arg :: value :: rest) := ⟨0, arg, value, rest, rfl, mem⟩

theorem premature_other (other : arg ≠ chars "--") (not : arg ∉ [chars "--name",
    chars "--max-restarts", chars "--restart-delay"]) : ¬Premature (arg :: argv) := by
  rintro ⟨n, opt, value, rest, eq, mem⟩
  cases n with
  | zero =>
    obtain ⟨rfl, _⟩ := List.cons.inj eq
    exact not mem
  | succ n => exact other (List.cons.inj eq).1

theorem Premature.length (h : Premature argv) : 2 ≤ argv.length := by
  obtain ⟨n, opt, value, rest, rfl, _⟩ := h
  rw [List.length_append, List.length_cons, List.length_cons]
  omega

theorem modifyLast_ne_nil (some : ws ≠ []) : ws.modifyLast f ≠ [] := by
  induction ws using List.reverseRecOn with
  | nil => exact absurd rfl some
  | append_singleton ws w =>
    rw [List.modifyLast_concat]
    exact List.concat_ne_nil _ _

theorem foldl_ne_nil (some : ws ≠ []) : opts.foldl Opt.apply ws ≠ [] := by
  induction opts generalizing ws with
  | nil => exact some
  | cons o opts ih =>
    apply ih
    cases o with
    | cmd arg => exact List.concat_ne_nil _ _
    | name arg => exact modifyLast_ne_nil some
    | maxRestarts arg => exact modifyLast_ne_nil some
    | restartDelay arg => exact modifyLast_ne_nil some

/-- A change of the last worker is accessed, and the loop goes on, unless there is none. -/
theorem modify_spec (R : Refines memory s ws)
    (keeps : ∀ w m : Worker, f (w.found m) = (f w).found m) (other : .restartCount ∉ fs) :
    (ws = [] ∧ s.access (s.count - 1) fs f = none) ∨
      ∃ s', s.access (s.count - 1) fs f = some s' ∧ Refines memory s' (ws.modifyLast f) ∧
        ws ≠ [] := by
  induction ws using List.reverseRecOn with
  | nil => exact Or.inl ⟨rfl, R.none⟩
  | append_singleton ws w =>
    obtain ⟨s', eq, R'⟩ := R.access keeps other
    rw [List.modifyLast_concat]
    exact Or.inr ⟨s', eq, R', List.concat_ne_nil w ws⟩

/-- What the loop comes to, from an array with the workers `ws`. -/
def Spec (memory : Nat → Worker) (ws : List Worker) (argv : List (List UInt8)) : Parsed → Prop
  | .wild => ws = [] ∧ Premature argv
  | .exit => options argv = none ∧ ¬(ws = [] ∧ Premature argv)
  | .done s => ¬(ws = [] ∧ Premature argv) ∧
      ∃ opts, options argv = some opts ∧ Refines memory s (opts.foldl Opt.apply ws)

theorem Spec.cons {p : Parsed} {ws' : List Worker} (h : Spec memory ws' rest p)
    (made : o.apply ws = ws') (some : ws' ≠ [])
    (opts : options (arg :: value :: rest) = (options rest).map (o :: ·))
    (fine : ¬(ws = [] ∧ Premature (arg :: value :: rest))) :
    Spec memory ws (arg :: value :: rest) p := by
  subst made
  cases p with
  | wild => exact absurd h.1 some
  | exit => exact ⟨by rw [opts, h.1]; rfl, fine⟩
  | done s =>
    obtain ⟨_, os, eq, R⟩ := h
    exact ⟨fine, o :: os, by rw [opts, eq]; rfl, R⟩

theorem Spec.modify {p : Parsed} (R : Refines memory s ws)
    (keeps : ∀ w m : Worker, f (w.found m) = (f w).found m) (other : .restartCount ∉ fs)
    (eq : s.access (s.count - 1) fs f = some s')
    (ih : ∀ {ws}, Refines memory s' ws → Spec memory ws rest p)
    (made : o.apply ws = ws.modifyLast f)
    (opts : options (arg :: value :: rest) = (options rest).map (o :: ·)) :
    Spec memory ws (arg :: value :: rest) p := by
  rcases modify_spec R keeps other with ⟨_, none⟩ | ⟨_, eq', R', some⟩
  · rw [eq] at none
    cases none
  · rw [eq] at eq'
    obtain rfl := Option.some.inj eq'
    exact Spec.cons (ih R') made (modifyLast_ne_nil some) opts fun h => some h.1

theorem Spec.wild (R : Refines memory s ws)
    (keeps : ∀ w m : Worker, f (w.found m) = (f w).found m) (other : .restartCount ∉ fs)
    (eq : s.access (s.count - 1) fs f = none) (mem : arg ∈ [chars "--name",
      chars "--max-restarts", chars "--restart-delay"]) :
    Spec memory ws (arg :: value :: rest) .wild := by
  rcases modify_spec R keeps other with ⟨none, _⟩ | ⟨_, eq', _⟩
  · exact ⟨none, premature_opt mem⟩
  · rw [eq] at eq'
    cases eq'

theorem parseLoop_spec (R : Refines memory s ws) : Spec memory ws argv (parseLoop s argv) := by
  fun_induction parseLoop s argv generalizing ws with
  | case1 s => exact ⟨fun h => absurd h.2.length (by decide), [], rfl, R⟩
  | case2 s => exact ⟨fun h => absurd h.2.length (by decide), [], rfl, R⟩
  | case3 s arg other =>
    exact ⟨if_neg other, fun h => absurd h.2.length (by simp)⟩
  | case4 s value rest s' eq ih =>
    obtain ⟨_, eq', R'⟩ := R.addCmd
    rw [eq] at eq'
    obtain rfl := Option.some.inj eq'
    refine Spec.cons (ih R') (o := .cmd value) rfl (List.concat_ne_nil _ _) rfl fun h => ?_
    exact premature_other (by decide) (by decide) h.2
  | case5 s value rest eq =>
    obtain ⟨_, eq', _⟩ := R.addCmd
    rw [eq] at eq'
    cases eq'
  | case6 s value rest s' eq _ ih =>
    exact Spec.modify R (fun _ _ => rfl) (by decide) eq ih (o := .name value) rfl rfl
  | case7 s value rest eq => exact Spec.wild R (fun _ _ => rfl) (by decide) eq (by decide)
  | case8 s value rest s' eq _ _ ih =>
    exact Spec.modify R (fun _ _ => rfl) (by decide) eq ih (o := .maxRestarts value) rfl rfl
  | case9 s value rest eq => exact Spec.wild R (fun _ _ => rfl) (by decide) eq (by decide)
  | case10 s value rest s' eq _ _ _ ih =>
    exact Spec.modify R (fun _ _ => rfl) (by decide) eq ih (o := .restartDelay value) rfl rfl
  | case11 s value rest eq => exact Spec.wild R (fun _ _ => rfl) (by decide) eq (by decide)
  | case12 s value rest _ _ _ _ ih =>
    specialize ih R
    revert ih
    cases parseLoop s (value :: rest) <;> simp only [Spec, premature_sep] <;> exact id
  | case13 s arg value rest cmd name max delay sep =>
    constructor
    · simp only [options, if_neg cmd, if_neg name, if_neg max, if_neg delay, if_neg sep]
    · rintro ⟨_, h⟩
      apply premature_other sep _ h
      simp [name, max, delay]

/-- Where no option comes too early, only separators open no worker. -/
theorem reference_eq_nil (eq : options argv = some opts) (fine : ¬Premature argv) :
    reference opts = [] ↔ ∀ a ∈ argv, a = chars "--" := by
  fun_induction options argv generalizing opts with
  | case1 =>
    obtain rfl := Option.some.inj eq
    exact ⟨fun _ => nofun, fun _ => rfl⟩
  | case2 =>
    obtain rfl := Option.some.inj eq
    exact ⟨fun _ => List.forall_mem_singleton.mpr rfl, fun _ => rfl⟩
  | case3 => cases eq
  | case4 value rest ih =>
    obtain ⟨os, _, rfl⟩ := Option.map_eq_some_iff.mp eq
    have some : os.foldl Opt.apply [opened value] ≠ [] := foldl_ne_nil (List.cons_ne_nil _ _)
    constructor
    · exact fun none => absurd none some
    · exact fun all => absurd (all _ List.mem_cons_self) (by decide)
  | case5 => exact absurd (premature_opt (by decide)) fine
  | case6 => exact absurd (premature_opt (by decide)) fine
  | case7 => exact absurd (premature_opt (by decide)) fine
  | case8 value rest _ _ _ _ ih =>
    rw [ih eq fun h => fine (premature_sep.mpr h), List.forall_mem_cons (a := chars "--")]
    exact ⟨fun h => ⟨rfl, h⟩, fun h => h.2⟩
  | case9 => cases eq

/-- No worker has its `restart_count` written, so there must not be any. -/
theorem Refines.complete_iff (R : Refines memory s (reference opts)) :
    s.Complete opts ↔ reference opts = [] := by
  constructor
  · intro C
    by_contra some
    have pos : 0 < s.count := by
      rw [C.count]
      exact List.length_pos_iff.mpr some
    exact R.unwritten 0 (C.written 0 pos (by decide))
  · intro none
    constructor
    · exact R.count
    · intro k w at_k
      rw [none] at at_k
      cases at_k
    · intro k lt
      rw [R.count, none] at lt
      exact absurd lt (Nat.not_lt_zero k)

/-- The array is what the options say, and all of it written, only where there is none:
`restart_count` is left as `malloc` found it. -/
theorem args_safe_iff (memory : Nat → Worker) (argv : List (List UInt8)) : Safe memory argv ↔
    ¬Premature argv ∧ (options argv = none ∨ ∀ a ∈ argv, a = chars "--") := by
  have spec : Spec memory [] argv (parseArgs memory argv) := parseLoop_spec refines_malloc
  unfold Safe
  cases eq : parseArgs memory argv with
  | wild =>
    rw [eq] at spec
    exact ⟨False.elim, fun h => h.1 spec.2⟩
  | exit =>
    rw [eq] at spec
    exact ⟨fun _ => ⟨fun h => spec.2 ⟨rfl, h⟩, Or.inl spec.1⟩, fun _ => trivial⟩
  | done s =>
    rw [eq] at spec
    obtain ⟨fine, opts, parsed, R⟩ := spec
    have fine : ¬Premature argv := fun h => fine ⟨rfl, h⟩
    have R : Refines memory s (reference opts) := R
    constructor
    · rintro ⟨opts', parsed', C⟩
      rw [parsed] at parsed'
      obtain rfl := Option.some.inj parsed'
      exact ⟨fine, Or.inr ((reference_eq_nil parsed fine).mp (R.complete_iff.mp C))⟩
    · rintro ⟨_, refused | all⟩
      · rw [parsed] at refused
        cases refused
      · exact ⟨opts, parsed, R.complete_iff.mpr ((reference_eq_nil parsed fine).mpr all)⟩

/-- With `--cmd x` the monitor counts on from what was in memory, and with `--name x`
the name is that of `workers[-1]`. -/
theorem restarts_from_memory :
    (∃ s, parseArgs (fun _ => { opened [] with restartCount := 7 }) [chars "--cmd", chars "x"] =
      .done s ∧ s.count = 1 ∧ (s.entry 0).restartCount = 7) ∧
    ¬Safe (fun _ => { opened [] with restartCount := 7 }) [chars "--cmd", chars "x"] ∧
    ¬Safe (fun _ => opened []) [chars "--name", chars "x"] := by
  refine ⟨⟨_, rfl, rfl, rfl⟩, ?_, id⟩
  rintro ⟨_, _, C⟩
  exact absurd (C.written 0 Nat.zero_lt_one (by decide : .restartCount ∈ monitored)) (by decide)

end LearnC.Daemon
