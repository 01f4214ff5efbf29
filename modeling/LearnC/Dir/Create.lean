import LearnC.Machine.MakeDir
import LearnC.Machine.Strings

/-! `create_dir_recursive`, which makes a directory and those above it. -/

namespace LearnC.Dir

open Files FileTree

/-- `stat` finds the path, and a directory there. -/
def directoryExists (t : FileTree) (path : List UInt8) : Bool := (t.opendir path).isSome

/-- `mkdir(dir_path, mode)`, where it is not an error that something is there. -/
def attempt (t : FileTree) (path : List UInt8) : FileTree × Bool :=
  match t.mkdir path with
  | .ok t' => (t', true)
  | .error .exist => (t, true)
  | .error .noent => (t, false)
  | .error .notdir => (t, false)

/-- The loop, with `p` behind `front`; the slash at `p` is a zero for the time of the call. -/
def createLoop (t : FileTree) (front : List UInt8) : List UInt8 → FileTree × Bool
  | [] => (t, true)
  | c :: rest =>
    if c = slash then
      match attempt t front with
      | (t, true) => createLoop t (front ++ [c]) rest
      | (t, false) => (t, false)
    else createLoop t (front ++ [c]) rest

/-- The tree and the value that is returned; `copied` is whether `strdup` gets memory.
No result for the empty path, whose copy ends before `dir_path + 1`. -/
def createDirRecursive (copied : Bool) (t : FileTree) : List UInt8 → Option (FileTree × Int)
  | [] => none
  | first :: rest =>
    if copied then
      match createLoop t [first] rest with
      | (t, false) => some (t, -1)
      | (t, true) =>
        if first :: rest = [slash] then some (t, 0)
        else
          match attempt t (first :: rest) with
          | (t, true) => some (t, 0)
          | (t, false) => some (t, -1)
    else some (t, -1)

def Above (q path : List UInt8) : Prop := q ≠ [] ∧ q ++ [slash] <+: path

/-- Nothing that was there is changed, and what is new is a directory that a part of the
path leads to. -/
structure Extends (t t' : FileTree) (path : List UInt8) : Prop where
  kept : Grows t t'
  fresh : ∀ e ∈ t'.nodes, e ∉ t.nodes →
    e.2 = .dir ∧ ∃ q, q <+: path ∧ q ≠ [] ∧ t'.lookup q = some e.1

/-- What is returned is true: 0 says that the path and all above it are directories. -/
structure Truthful (t : FileTree) (path : List UInt8) (out : FileTree × Int) : Prop where
  dirs : out.2 = 0 → ∀ q, q = path ∨ Above q path → directoryExists out.1 q = true
  rest : Extends t out.1 path

/-- A file stands where the path goes on with another name. -/
def Blocked (t : FileTree) (path : List UInt8) : Prop :=
  ∃ q rest, path = q ++ slash :: rest ∧ q ≠ [] ∧ (∃ c ∈ rest, c ≠ slash) ∧
    (resolve q, .file) ∈ t.nodes

variable {t t' t₀ : FileTree} {path front q rest : List UInt8} {p : Place} {c : UInt8} {k : Kind}
  {done : Bool}

/-- What has been done of the path up to `front`. -/
structure Progress (t₀ t : FileTree) (path front : List UInt8) : Prop
    extends Extends t₀ t path where
  there : ∀ q, Above q front → ∃ p, t.named q = some p

theorem directoryExists_iff :
    directoryExists t path = true ↔ ∃ p, t.lookup path = some p ∧ (p, .dir) ∈ t.nodes := by
  unfold directoryExists
  rw [Option.isSome_iff_exists]
  exact exists_congr fun p => opendir_iff

theorem above_concat :
    Above q (front ++ [c]) ↔ (q ≠ [] ∧ q = front ∧ c = slash) ∨ Above q front := by
  unfold Above
  rw [List.prefix_concat_iff, List.append_singleton_inj]
  constructor
  · rintro ⟨ne, ⟨same, last⟩ | le⟩
    · exact Or.inl ⟨ne, same, last.symm⟩
    · exact Or.inr ⟨ne, le⟩
  · rintro (⟨ne, same, last⟩ | ⟨ne, le⟩)
    · exact ⟨ne, Or.inl ⟨same, last.symm⟩⟩
    · exact ⟨ne, Or.inr le⟩

theorem last_component (path : List UInt8) :
    slash ∉ path ∨ ∃ q n, path = q ++ slash :: n ∧ slash ∉ n := by
  induction path using List.reverseRecOn with
  | nil => exact Or.inl (by simp)
  | append_singleton path x ih =>
    by_cases last : x = slash
    · exact Or.inr ⟨path, [], by rw [last], by simp⟩
    · cases ih with
      | inl plain => exact Or.inl (by simp [plain, Ne.symm last])
      | inr split =>
        obtain ⟨q, n, rfl, plain⟩ := split
        exact Or.inr ⟨q, n ++ [x], by simp, by simp [plain, Ne.symm last]⟩

theorem attempt_there (P : Progress t₀ t path front) (le : front <+: path) (ne : front ≠ [])
    (ret : attempt t front = (t', true)) :
    Progress t₀ t' path front ∧ ∃ p, t'.named front = some p := by
  unfold attempt at ret
  split at ret
  · next made =>
    cases ret
    obtain ⟨p, n, nodes, found⟩ := mkdir_ok made
    have grows : Grows t t' := by
      intro e mem
      rw [nodes]
      exact List.mem_cons_of_mem _ mem
    refine ⟨⟨⟨fun e mem => grows e (P.kept e mem), ?_⟩, ?_⟩, _, named_lookup found⟩
    · intro e mem new
      rw [nodes] at mem
      cases mem with
      | head => exact ⟨rfl, front, le, ne, found⟩
      | tail _ mem =>
        obtain ⟨dir, q, le, ne, found⟩ := P.fresh e mem new
        exact ⟨dir, q, le, ne, grows.lookup found⟩
    · intro q above
      obtain ⟨p, found⟩ := P.there q above
      exact ⟨p, grows.named found⟩
  · next exist =>
    cases ret
    exact ⟨P, mkdir_exist.mp exist⟩
  · cases ret
  · cases ret

theorem attempt_fails (ret : attempt t front = (t', false)) :
    t' = t ∧ ¬ ((∃ t', t.mkdir front = .ok t') ∨ t.mkdir front = .error .exist) := by
  unfold attempt at ret
  split at ret
  · cases ret
  · cases ret
  · next none =>
    cases ret
    exact ⟨rfl, by simp [none]⟩
  · next blocked =>
    cases ret
    exact ⟨rfl, by simp [blocked]⟩

/-- A call fails because of a file on the way, one that was there before. -/
theorem attempt_blocked (P : Progress t₀ t path front) (ne : front ≠ []) (text : 0 ∉ front)
    (ret : attempt t front = (t', false)) : Blocked t₀ front := by
  have fails := (attempt_fails ret).2
  cases last_component front with
  | inl plain =>
    have names : components front = [] ++ [front] := components_name plain
    exact absurd (mkdir_next names rfl t.root ne plain text) fails
  | inr split =>
    obtain ⟨q, n, rfl, plain⟩ := split
    have text' : 0 ∉ n := fun mem => text (by simp [mem])
    have names : components (q ++ slash :: n) = components q ++ [n] := by
      rw [components_append, components_name plain]
    by_cases empty : q = []
    · have start : t.walk [] (components q) = some [] := by
        rw [empty]
        exact walk_stay t.root (by decide)
      exact absurd (mkdir_next names start t.root ne plain text') fails
    · have above : Above q (q ++ slash :: n) := ⟨empty, ⟨n, by simp⟩⟩
      obtain ⟨d, found⟩ := P.there q above
      obtain ⟨k, mem⟩ := named_mem found
      cases k with
      | dir =>
        have walked := lookup_walk (lookup_named found mem)
        exact absurd (mkdir_next names walked mem ne plain text') fails
      | file =>
        by_cases last : n = []
        · have exist : t.mkdir (q ++ slash :: n) = .error .exist :=
            mkdir_exist.mpr ⟨d, by rw [last, named_slash empty, found]⟩
          exact absurd (Or.inr exist) fails
        · obtain ⟨c, cs, rfl⟩ := List.exists_cons_of_ne_nil last
          rw [List.mem_cons, not_or] at plain
          refine ⟨q, c :: cs, rfl, empty, ⟨c, List.mem_cons_self, Ne.symm plain.1⟩, ?_⟩
          rw [named_resolve found]
          by_contra new
          cases (P.fresh _ mem new).1

theorem Blocked.append (blocked : Blocked t front) (rest : List UInt8) :
    Blocked t (front ++ rest) := by
  obtain ⟨q, more, rfl, ne, ⟨c, mem, other⟩, file⟩ := blocked
  exact ⟨q, more ++ rest, by simp, ne, ⟨c, List.mem_append_left _ mem, other⟩, file⟩

theorem Progress.next (P : Progress t₀ t path front)
    (found : c = slash → ∃ p, t.named front = some p) : Progress t₀ t path (front ++ [c]) := by
  refine ⟨P.toExtends, fun q above => ?_⟩
  cases above_concat.mp above with
  | inl here =>
    rw [here.2.1]
    exact found here.2.2
  | inr before => exact P.there q before

theorem loop_done (eq : path = front ++ rest) (ne : front ≠ [])
    (P : Progress t₀ t path front) (ret : createLoop t front rest = (t', true)) :
    Progress t₀ t' path path := by
  induction rest generalizing t front with
  | nil =>
    cases ret
    rw [List.append_nil] at eq
    rwa [← eq] at P
  | cons c rest ih =>
    have eq' : path = front ++ [c] ++ rest := by rw [eq, List.append_cons]
    unfold createLoop at ret
    split at ret
    · split at ret
      · next made =>
        obtain ⟨P, found⟩ := attempt_there P ⟨c :: rest, eq.symm⟩ ne made
        exact ih eq' (by simp) (P.next fun _ => found) ret
      · cases ret
    · next other => exact ih eq' (by simp) (P.next fun same => absurd same other) ret

theorem loop_stops (eq : path = front ++ rest) (ne : front ≠ []) (text : 0 ∉ path)
    (P : Progress t₀ t path front) (ret : createLoop t front rest = (t', false)) :
    Extends t₀ t' path ∧ Blocked t₀ path := by
  induction rest generalizing t front with
  | nil => cases ret
  | cons c rest ih =>
    have eq' : path = front ++ [c] ++ rest := by rw [eq, List.append_cons]
    have le : front <+: path := ⟨c :: rest, eq.symm⟩
    unfold createLoop at ret
    split at ret
    · split at ret
      · next made =>
        obtain ⟨P, found⟩ := attempt_there P le ne made
        exact ih eq' (by simp) (P.next fun _ => found) ret
      · next failed =>
        cases ret
        have blocked := attempt_blocked P ne (fun mem => text (le.subset mem)) failed
        rw [(attempt_fails failed).1, eq]
        exact ⟨eq ▸ P.toExtends, blocked.append _⟩
    · next other => exact ih eq' (by simp) (P.next fun same => absurd same other) ret

theorem walk_dir {cs cs' : List Name} (walked : t.walk [] (cs ++ cs') = some p) (on : cs' ≠ []) :
    ∃ d, t.walk [] cs = some d ∧ (d, .dir) ∈ t.nodes := by
  rw [walk_append] at walked
  obtain ⟨d, here, on'⟩ := Option.bind_eq_some_iff.mp walked
  obtain ⟨c, cs, rfl⟩ := List.exists_cons_of_ne_nil on
  rw [walk] at on'
  split at on'
  case isTrue ok => exact ⟨d, here, ok.1⟩
  case isFalse => cases on'

theorem above_dir (found : t.lookup path = some p) (above : Above q path) :
    directoryExists t q = true := by
  obtain ⟨ne, rest, rfl⟩ := above
  have walked := lookup_walk found
  rw [List.append_assoc, List.singleton_append, components_append] at walked
  obtain ⟨d, here, dir⟩ := walk_dir walked (List.splitOn_ne_nil slash rest)
  exact directoryExists_iff.mpr ⟨d, by rw [lookup, if_neg ne, here], dir⟩

theorem no_file (R : Extends t t' path) (dir : directoryExists t' q = true) :
    (resolve q, .file) ∉ t.nodes := by
  intro file
  obtain ⟨p, found, dir⟩ := directoryExists_iff.mp dir
  rw [lookup_resolve found] at file
  cases kind_unique (R.kept _ file) dir

/-- With everything above the path there, 0 is true unless a file stands at its end. -/
theorem truthful_iff (R : Extends t t' path) (found : t'.named path = some p) :
    Truthful t path (t', 0) ↔ (resolve path, .file) ∉ t.nodes := by
  constructor
  · intro T
    exact no_file R (T.dirs rfl path (Or.inl rfl))
  · intro unfiled
    obtain ⟨k, mem⟩ := named_mem found
    cases k with
    | dir =>
      have there := lookup_named found mem
      refine ⟨fun _ q part => ?_, R⟩
      cases part with
      | inl whole => exact whole ▸ directoryExists_iff.mpr ⟨p, there, mem⟩
      | inr above => exact above_dir there above
    | file =>
      rw [named_resolve found] at unfiled
      cases (R.fresh _ mem unfiled).1

theorem not_blocked (R : Extends t t' path) (found : t'.named path = some p) :
    ¬ Blocked t path := by
  rintro ⟨q, rest, rfl, ne, on, file⟩
  obtain ⟨c, mem, other⟩ := on
  obtain ⟨trim, goes_on⟩ := trimmed_on (a := q) (component_of_byte mem other)
  have walked := named_walk found
  rw [trim] at walked
  obtain ⟨d, here, dir⟩ := walk_dir walked goes_on
  exact no_file R (directoryExists_iff.mpr ⟨d, by rw [lookup, if_neg ne, here], dir⟩) file

theorem progress_start (t : FileTree) (path : List UInt8) (c : UInt8) : Progress t t path [c] where
  kept := fun _ mem => mem
  fresh := fun _ mem new => absurd mem new
  there := by
    rintro q ⟨ne, le⟩
    have short := le.length_le
    have := List.length_pos_of_ne_nil ne
    rw [List.length_append, List.length_singleton, List.length_singleton] at short
    omega

/-- Where a file stands on the way, the call returns -1 and has made what is before it. -/
theorem truthful_fails (R : Extends t t' path) : Truthful t path (t', -1) where
  dirs := by simp
  rest := R

theorem lookup_slash (t : FileTree) : t.lookup [slash] = some [] := by
  rw [lookup, if_neg (by simp)]
  exact walk_stay t.root (by decide)

/-- `create_dir_recursive` tells the truth unless a file stands at the end of the path and
none on the way there. -/
theorem create_truthful_iff (copied : Bool) (t : FileTree) (path : List UInt8) (ne : path ≠ [])
    (text : 0 ∉ path) :
    (∃ out, createDirRecursive copied t path = some out ∧ Truthful t path out) ↔
      ¬ (copied = true ∧ (resolve path, .file) ∈ t.nodes ∧ ¬ Blocked t path) := by
  cases path with
  | nil => exact absurd rfl ne
  | cons first rest =>
    have start := progress_start t (first :: rest) first
    cases copied with
    | false => simp [createDirRecursive, truthful_fails start.toExtends]
    | true =>
      simp only [createDirRecursive, if_true, true_and]
      split
      · next stopped =>
        have ⟨R, blocked⟩ : Extends t _ (first :: rest) ∧ Blocked t (first :: rest) :=
          loop_stops rfl (by simp) text start stopped
        simp [truthful_fails R, blocked]
      · next t' done =>
        have P : Progress t t' (first :: rest) (first :: rest) := loop_done rfl (by simp) start done
        split
        · next root =>
          have found := lookup_slash t'
          rw [← root] at found
          have found := named_lookup found
          simp [truthful_iff P.toExtends found, not_blocked P.toExtends found]
        · split
          · next made =>
            obtain ⟨P, p, found⟩ := attempt_there P (List.prefix_refl _) ne made
            simp [truthful_iff P.toExtends found, not_blocked P.toExtends found]
          · next failed =>
            have blocked := attempt_blocked P ne text failed
            rw [(attempt_fails failed).1]
            simp [truthful_fails P.toExtends, blocked]

/-- A tree with one thing in it besides the root. -/
def single (k : Kind) : FileTree where
  nodes := [([chars "f"], k), ([], .dir)]
  nodup := List.nodup_cons.mpr ⟨by simp, List.nodup_singleton _⟩
  root := List.mem_cons_of_mem _ (List.mem_singleton_self _)
  parent := by
    intro m q k' mem
    cases mem with
    | head => exact List.mem_cons_of_mem _ (List.mem_singleton_self _)
    | tail _ mem => cases List.mem_singleton.mp mem
  legal := by
    intro m q k' mem
    cases mem with
    | head => exact ⟨by decide, by decide, by decide, by decide, by decide⟩
    | tail _ mem => cases List.mem_singleton.mp mem

theorem single_truthful :
    (∃ out, createDirRecursive true (single .dir) (chars "f/g") = some out ∧
      Truthful (single .dir) (chars "f/g") out) ↔
    ¬ (true = true ∧ (resolve (chars "f/g"), .file) ∈ (single .dir).nodes ∧
      ¬ Blocked (single .dir) (chars "f/g")) :=
  create_truthful_iff true (single .dir) (chars "f/g") (by decide) (by decide)

/-- A file of that name is taken for the directory. -/
theorem file_taken : createDirRecursive true (single .file) (chars "f") = some (single .file, 0) ∧
    directoryExists (single .file) (chars "f") = false := by
  constructor
  · rfl
  · rfl

/-- With a file there, 0 is returned and no directory is. -/
theorem file_untruthful : ¬ ∃ out, createDirRecursive true (single .file) (chars "f") = some out ∧
    Truthful (single .file) (chars "f") out := by
  rintro ⟨out, ret, T⟩
  rw [file_taken.1] at ret
  cases ret
  have dir := T.dirs rfl (chars "f") (Or.inl rfl)
  rw [file_taken.2] at dir
  cases dir

end LearnC.Dir
