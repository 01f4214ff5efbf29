import LearnC.Dir.Rmdir

/-! What a run of `rmdir_recursive` takes away, and by which paths: the exact condition on
which the directory goes. -/

namespace LearnC.Dir

open Files FileTree

variable {t t' t1 : FileTree} {path : List UInt8} {p q : Place} {n : Name} {k : Kind}
  {fuel : Nat} {names rest : List Name} {e : Place × Kind}

/-- The names lead to what is taken away, by a path that may be cut off. -/
structure Reached (path : List UInt8) (names : List Name) (e : Place × Kind) : Prop where
  place : resolve ((path ++ join names).take 1023) = e.1
  last : e.2 = .dir → last ((path ++ join names).take 1023) ∉ [some dot, some dotdot]

theorem fullPath_join (path : List UInt8) (n : Name) :
    fullPath path n = (path ++ join [n]).take 1023 := by
  rw [join_singleton]
  rfl

theorem Reached.cons (r : Reached (fullPath path n) rest e) : Reached path (n :: rest) e := by
  obtain ⟨place, last⟩ := r
  rw [fullPath_join, take_join] at place last
  exact ⟨place, last⟩

/-- What a loop takes away is taken away in one of its rounds. -/
theorem foldlM_lost {f : FileTree → Name × Kind → Option FileTree} {es : List (Name × Kind)}
    {P : Name × Kind → Prop}
    (steps : ∀ x ∈ es, ∀ t t', f t x = some t' → e ∈ t.nodes → e ∉ t'.nodes → P x)
    (run : es.foldlM f t = some t') (mem : e ∈ t.nodes) (lost : e ∉ t'.nodes) :
    ∃ x ∈ es, P x := by
  induction es generalizing t with
  | nil =>
    obtain rfl := Option.some.inj run
    exact absurd mem lost
  | cons x es ih =>
    obtain ⟨first, steps⟩ := List.forall_mem_cons.mp steps
    rw [List.foldlM_cons] at run
    obtain ⟨t1, eq, run⟩ := Option.bind_eq_some_iff.mp run
    by_cases still : e ∈ t1.nodes
    · obtain ⟨y, at_y, lost_at⟩ := ih steps run still
      exact ⟨y, List.mem_cons_of_mem x at_y, lost_at⟩
    · exact ⟨x, List.mem_cons_self, first t t1 eq mem still⟩

/-- What a call with this much fuel takes away. -/
def Losses (fuel : Nat) : Prop := ∀ t t' path e, rmdirRecursive fuel t path true = some t' →
  path.length ≤ 1023 → e ∈ t.nodes → e ∉ t'.nodes →
    ∃ names, (∀ n ∈ names, Legal n) ∧ Reached path names e

theorem rmdirEntry_lost (calls : Losses fuel) {x : Name × Kind}
    (run : rmdirEntry fuel path t x = some t') (mem : e ∈ t.nodes) (lost : e ∉ t'.nodes) :
    ¬(x.1 = dot ∨ x.1 = dotdot) ∧
      ∃ rest, (∀ m ∈ rest, Legal m) ∧ Reached path (x.1 :: rest) e := by
  unfold rmdirEntry at run
  split at run
  case isTrue =>
    obtain rfl := Option.some.inj run
    exact absurd mem lost
  case isFalse other =>
    refine ⟨other, ?_⟩
    split at run
    case isTrue =>
      have short : (fullPath path x.1).length ≤ 1023 := List.length_take_le _ _
      obtain ⟨rest, legal, reached⟩ := calls _ _ _ _ run short mem lost
      exact ⟨rest, legal, reached.cons⟩
    case isFalse =>
      obtain rfl := Option.some.inj run
      obtain ⟨place, file⟩ := unlink_lost mem lost
      rw [fullPath_join] at place
      refine ⟨[], by simp, place, fun dir => ?_⟩
      rw [file] at dir
      cases dir

theorem entries_lost (calls : Losses fuel)
    (run : (t.entries p).foldlM (rmdirEntry fuel path) t = some t')
    (mem : e ∈ t.nodes) (lost : e ∉ t'.nodes) : ∃ n k rest, (n :: p, k) ∈ t.nodes ∧
      (∀ m ∈ rest, Legal m) ∧ Reached path (n :: rest) e := by
  obtain ⟨⟨n, k⟩, at_n, other, rest, legal, reached⟩ :=
    foldlM_lost (fun x _ t t' eq mem lost => rmdirEntry_lost calls eq mem lost) run mem lost
  refine ⟨n, k, rest, ?_, legal, reached⟩
  rcases mem_entries.mp at_n with eq | eq | inner
  · exact absurd (Or.inl (congrArg Prod.fst eq)) other
  · exact absurd (Or.inr (congrArg Prod.fst eq)) other
  · exact inner

/-- A call on a directory is its loop, and `rmdir` behind it. -/
theorem rmdirRecursive_split (found : t.opendir path = some p)
    (run : rmdirRecursive (fuel + 1) t path true = some t') :
    ∃ t1, (t.entries p).foldlM (rmdirEntry fuel path) t = some t1 ∧ t' = t1.rmdir path := by
  rw [rmdirRecursive_eq found] at run
  obtain ⟨t1, eq, rfl⟩ := Option.map_eq_some_iff.mp run
  exact ⟨t1, eq, rfl⟩

theorem rmdirRecursive_lost (fuel : Nat) : Losses fuel := by
  induction fuel with
  | zero => exact fun t t' path e run => absurd run (by simp [rmdirRecursive])
  | succ fuel calls =>
    intro t t' path e run short mem lost
    cases found : t.opendir path with
    | none =>
      rw [rmdirRecursive, found] at run
      obtain rfl := Option.some.inj run
      exact absurd mem lost
    | some p =>
      obtain ⟨t1, loop, rfl⟩ := rmdirRecursive_split found run
      by_cases still : e ∈ t1.nodes
      · obtain ⟨found_at, ok, _⟩ := rmdir_lost still lost
        refine ⟨[], by simp, ?_⟩
        have whole : (path ++ join []).take 1023 = path := by
          rw [show path ++ join [] = path from List.append_nil path, List.take_of_length_le short]
        constructor
        · rw [whole, lookup_resolve found_at]
        · rw [whole]
          exact fun _ => ok
      · obtain ⟨n, k, rest, at_n, legal, reached⟩ := entries_lost calls loop mem still
        exact ⟨n :: rest, List.forall_mem_cons.mpr ⟨t.legal n p k at_n, legal⟩, reached⟩

/-- A place that is reached has no more bytes in its names than the buffer has room for. -/
theorem Reached.weight_le (r : Reached path (n :: rest) e) (short : path.length < 1023) :
    weight e.1 + path.length ≤ weight (resolve path) + 1023 := by
  have place := r.place
  rw [take_short short] at place
  have bytes := weight_resolve path ((n ++ join rest).take (1023 - path.length - 1))
  rw [place] at bytes
  have cut := List.length_take_le (1023 - path.length - 1) (n ++ join rest)
  omega

/-- The directory itself is still there behind the loop: a path that leads back to it is
either refused or too long to lead to anything in it. -/
theorem dir_kept (found : t.opendir path = some p)
    (loop : (t.entries p).foldlM (rmdirEntry fuel path) t = some t1) : (p, .dir) ∈ t1.nodes := by
  obtain ⟨found_at, dir⟩ := opendir_iff.mp found
  have here := lookup_resolve found_at
  by_contra lost
  obtain ⟨n, k, rest, at_n, legal, back⟩ := entries_lost (rmdirRecursive_lost fuel) loop dir lost
  have n_legal := t.legal n p k at_n
  obtain ⟨n', k', rest', _, _, inner⟩ := entries_lost (rmdirRecursive_lost fuel) loop at_n
    fun mem => lost (t1.parent n p k mem)
  rcases Nat.lt_or_ge path.length 1023 with short | long
  · have bytes := inner.weight_le short
    rw [here, weight_cons] at bytes
    have some : 0 < n.length := List.length_pos_iff.mpr n_legal.ne_nil
    have ok := back.last rfl
    have place := back.place
    rw [take_short short] at ok place
    rw [← here] at place
    exact ok (resolve_take n_legal legal (by omega) place)
  · have same := back.place.symm.trans ((congrArg resolve (take_long long _)).trans
      ((congrArg resolve (take_long long _)).symm.trans inner.place))
    exact List.cons_ne_self n p same.symm

/-- Only what the buffer has room for is reached by a path that does not go through it. -/
theorem Reached.length (r : Reached path (n :: rest) (names ++ p, k)) (here : resolve path = p)
    (ne : names ≠ []) (outside : ¬Through path p) : path.length + weight names ≤ 1023 := by
  rcases Nat.lt_or_ge path.length 1023 with short | long
  · have bytes := r.weight_le short
    rw [here, weight_append] at bytes
    omega
  · have place := r.place
    rw [take_long long] at place
    refine absurd ?_ outside
    rw [← List.take_append_drop 1023 path]
    apply through_extend
    rw [place]
    exact ⟨List.suffix_append names p, fun same => ne (List.append_left_eq_self.mp same)⟩

theorem removable_of_removed (found : t.opendir path = some p)
    (run : rmdirRecursive fuel t path true = some t') (done : Removed t t' p) :
    Removable t path p := by
  cases fuel with
  | zero => exact absurd run (by simp [rmdirRecursive])
  | succ fuel =>
    obtain ⟨t1, loop, rfl⟩ := rmdirRecursive_split found run
    have here := lookup_resolve (opendir_iff.mp found).1
    have kept := dir_kept found loop
    obtain ⟨found1, ok, leaf⟩ := rmdir_lost kept fun mem => ((done _).mp mem).2 List.suffix_rfl
    have empty {q : Place} (mem : q ∈ t1.places) : ¬Inside p q := by
      intro inside
      obtain ⟨n, k, at_n, _⟩ := inside_entry mem inside
      exact leaf_iff.mp leaf n k at_n
    have outside : ¬Through path p := by
      rintro ⟨l, le, inside⟩
      exact empty (walk_mem (lookup_walk found1) t1.root_mem le) inside
    constructor
    · rintro rfl
      exact ((done _).mp (t1.rmdir path).root).2 List.suffix_rfl
    · exact ok
    · exact outside
    · intro names ne mem
      obtain ⟨k, mem⟩ := mem_places.mp mem
      have lost : (names ++ p, k) ∉ t1.nodes := fun mem1 => empty (mem_places.mpr ⟨k, mem1⟩)
        ⟨List.suffix_append names p, fun same => ne (List.append_left_eq_self.mp same)⟩
      obtain ⟨n, _, rest, _, _, reached⟩ :=
        entries_lost (rmdirRecursive_lost fuel) loop mem lost
      rw [List.length_append, join_length, weight_reverse]
      exact reached.length here ne outside

/-- `rmdir_recursive` returns with exactly the directory gone if and only if the directory
is not the root, its path neither ends in `.` or `..` nor goes through the directory, and
the paths of all that is in it fit into the buffer. -/
theorem rmdir_iff (found : t.opendir path = some p) :
    (∃ fuel t', rmdirRecursive fuel t path true = some t' ∧ Removed t t' p) ↔
      Removable t path p := by
  constructor
  · rintro ⟨fuel, t', run, done⟩
    exact removable_of_removed found run done
  · intro R
    obtain ⟨fuel, S⟩ := shallow_exists t p
    exact ⟨fuel, rmdirRecursive_removes fuel t path p found R S⟩

/-- `my_directory/dir1/dir2`, as `main` makes it. -/
def made : FileTree := chain [chars "dir2", chars "dir1", chars "my_directory"]
  (List.forall_iff_forall_mem.mp (by decide))

theorem made_removed : ∃ fuel t', rmdirRecursive fuel made (chars "my_directory") true = some t' ∧
    Removed made t' [chars "my_directory"] := by
  refine (rmdir_iff (by decide)).mpr ⟨by decide, by decide, not_through_name (by decide), ?_⟩
  intro names _ mem
  have le := weight_suffix (suffix_of_mem_chain mem)
  rw [weight_append] at le
  rw [List.length_append, join_length, weight_reverse]
  change _ + _ ≤ 23 at le
  change 12 + _ ≤ 1023
  omega

/-! ## A path that fills the buffer -/

theorem foldlM_stops {f : FileTree → Name × Kind → Option FileTree} {es : List (Name × Kind)}
    {x : Name × Kind} (rounds : ∀ x ∈ es, f t x = some t ∨ f t x = none) (mem : x ∈ es)
    (stop : f t x = none) : es.foldlM f t = none := by
  induction es with
  | nil => cases mem
  | cons y es ih =>
    obtain ⟨first, rounds⟩ := List.forall_mem_cons.mp rounds
    rw [List.foldlM_cons]
    rcases first with stays | ends
    · rw [stays]
      rcases List.mem_cons.mp mem with rfl | mem
      · rw [stop] at stays
        cases stays
      · exact ih rounds mem
    · rw [ends]
      rfl

/-- Below a path of 1023 bytes the call is made on the same path again and again. -/
theorem never_returns (found : t.opendir path = some p) (full : path.length = 1023)
    (dir : (n :: p, .dir) ∈ t.nodes) (fuel : Nat) : rmdirRecursive fuel t path true = none := by
  have legal := t.legal n p .dir dir
  have same (m : Name) : fullPath path m = path := by
    rw [fullPath_join, take_long (Nat.le_of_eq full.symm), List.take_of_length_le (by omega)]
  induction fuel with
  | zero => rfl
  | succ fuel ih =>
    have rounds (x : Name × Kind) : rmdirEntry fuel path t x = some t ∨
        rmdirEntry fuel path t x = none := by
      unfold rmdirEntry
      rw [same, ih, unlink_dir found]
      split
      · exact Or.inl rfl
      · split
        · exact Or.inr rfl
        · exact Or.inl rfl
    have stop : rmdirEntry fuel path t (n, .dir) = none := by
      rw [rmdirEntry, if_neg (not_or.mpr ⟨legal.ne_dot, legal.ne_dotdot⟩), if_pos rfl, same, ih]
    rw [rmdirRecursive_eq found, foldlM_stops (fun x _ => rounds x)
      (mem_entries.mpr (Or.inr (Or.inr dir))) stop]
    rfl

/-- A name of 255 bytes, four times: with the slashes between them this fills the buffer. -/
def long : Name := List.replicate 255 120

theorem long_length : long.length = 255 := List.length_replicate

theorem legal_long : Legal long where
  ne_nil := List.cons_ne_nil _ _
  slash := fun mem => absurd (List.eq_of_mem_replicate mem) (by decide)
  nul := fun mem => absurd (List.eq_of_mem_replicate mem) (by decide)
  ne_dot := fun eq => absurd (long_length.symm.trans (congrArg List.length eq)) (by decide)
  ne_dotdot := fun eq => absurd (long_length.symm.trans (congrArg List.length eq)) (by decide)

def deep : FileTree := chain [chars "a", long, long, long, long]
  (List.forall_iff_forall_mem.mp ⟨by decide, legal_long, legal_long, legal_long, legal_long⟩)

theorem deep_never_returns : deep.opendir (long ++ join [long, long, long]) =
      some [long, long, long, long] ∧
    ∀ fuel, rmdirRecursive fuel deep (long ++ join [long, long, long]) true = none := by
  have dir {q : Place} (le : q <:+ [chars "a", long, long, long, long]) :
    (q, .dir) ∈ deep.nodes := mem_chain le
  have four := dir (List.suffix_cons _ _)
  have found : deep.opendir (long ++ join [long, long, long]) = some [long, long, long, long] :=
    opendir_iff.mpr ⟨lookup_join (lookup_first (dir ⟨[chars "a", long, long, long], rfl⟩))
      (mem_places.mpr ⟨_, four⟩), four⟩
  refine ⟨found, never_returns found ?_ (dir List.suffix_rfl)⟩
  rw [List.length_append, join_length, weight_cons, weight_cons, weight_cons, long_length]
  rfl

end LearnC.Dir
