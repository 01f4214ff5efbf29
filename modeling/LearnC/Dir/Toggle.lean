import LearnC.Dir.Create
import LearnC.Dir.Rmdir

/-! `main` of `dir.c`: what `create_dir_recursive` has made, `rmdir_recursive` takes away. -/

namespace LearnC.Dir

open Files FileTree

/-- Directories below each other have come to `p`. -/
def Deeper (t t' : FileTree) (p : Place) (names : List Name) : Prop :=
  ∀ e, e ∈ t'.nodes ↔ e ∈ t.nodes ∨ ∃ l, l ≠ [] ∧ l <+: names ∧ e = (l.reverse ++ p, .dir)

variable {t t' t'' : FileTree} {p : Place} {n m : Name} {names : List Name}
  {path front rest : List UInt8}

theorem Deeper.none (t : FileTree) (p : Place) : Deeper t t p [] := by
  intro e
  constructor
  · exact Or.inl
  · rintro (mem | ⟨l, ne, le, _⟩)
    · exact mem
    · exact absurd (List.prefix_nil.mp le) ne

theorem Deeper.cons (first : t'.nodes = (n :: p, .dir) :: t.nodes)
    (D : Deeper t' t'' (n :: p) names) : Deeper t t'' p (n :: names) := by
  intro e
  rw [D e, first, List.mem_cons]
  constructor
  · rintro ((rfl | mem) | ⟨l, _, le, rfl⟩)
    · exact .inr ⟨[n], by simp, by simp, rfl⟩
    · exact .inl mem
    · exact .inr ⟨n :: l, by simp, List.cons_prefix_cons.mpr ⟨rfl, le⟩, by simp⟩
  · rintro (mem | ⟨l, ne, le, rfl⟩)
    · exact .inl (.inr mem)
    · rcases List.prefix_cons_iff.mp le with rfl | ⟨l, rfl, le'⟩
      · exact absurd rfl ne
      · by_cases nil : l = []
        · subst nil
          exact .inl (.inl rfl)
        · exact .inr ⟨l, nil, le', by simp⟩

theorem attempt_new {cs : List Name} (eq : components path = cs ++ [n])
    (found : t.walk [] cs = some p) (dir : (p, .dir) ∈ t.nodes) (ne : path ≠ [])
    (legal : Legal n) (new : n :: p ∉ t.places) : ∃ t', attempt t path = (t', true) ∧
      t'.nodes = (n :: p, .dir) :: t.nodes ∧ t'.lookup path = some (n :: p) := by
  have leads : resolve path = n :: p := by
    rw [resolve, eq, List.foldl_append, walk_eq found, List.foldl_cons, List.foldl_nil, legal.enter]
  rcases mkdir_next eq found dir ne legal.slash legal.nul with ⟨t', made⟩ | exist
  · obtain ⟨q, m, nodes, there⟩ := mkdir_ok made
    have same : m :: q = n :: p := (lookup_resolve there).symm.trans leads
    rw [same] at nodes there
    exact ⟨t', by rw [attempt, made], nodes, there⟩
  · obtain ⟨q, there⟩ := mkdir_exist.mp exist
    obtain ⟨k, mem⟩ := named_mem there
    rw [← named_resolve there, leads] at mem
    exact absurd (mem_places.mpr ⟨k, mem⟩) new

theorem loop_name (plain : slash ∉ n) :
    createLoop t front (n ++ rest) = createLoop t (front ++ n) rest := by
  induction n generalizing front with
  | nil => simp
  | cons c n ih =>
    rw [List.mem_cons, not_or] at plain
    rw [List.cons_append, createLoop, if_neg (Ne.symm plain.1), ih plain.2]
    simp

/-- The loop and the call behind it make one directory for each name. -/
theorem loop_makes {cs : List Name} (eq : components front = cs ++ [n])
    (found : t.walk [] cs = some p) (dir : (p, .dir) ∈ t.nodes) (ne : front ≠ [])
    (legal : Legal n) (others : ∀ m ∈ names, Legal m) (new : n :: p ∉ t.places) :
    ∃ t₁ t', createLoop t front (join names) = (t₁, true) ∧
      attempt t₁ (front ++ join names) = (t', true) ∧ Deeper t t' p (n :: names) := by
  induction names generalizing t front n p cs with
  | nil =>
    obtain ⟨t', made, nodes, _⟩ := attempt_new eq found dir ne legal new
    refine ⟨t, t', rfl, ?_, (Deeper.none t' _).cons nodes⟩
    rwa [join, List.flatMap_nil, List.append_nil]
  | cons m names ih =>
    obtain ⟨next, others⟩ := List.forall_mem_cons.mp others
    obtain ⟨t₁, made, nodes, there⟩ := attempt_new eq found dir ne legal new
    have inside : (n :: p, .dir) ∈ t₁.nodes := by
      rw [nodes]
      exact List.mem_cons_self
    have new' : m :: n :: p ∉ t₁.places := by
      intro mem
      obtain ⟨k, mem⟩ := mem_places.mp mem
      rw [nodes, List.mem_cons] at mem
      rcases mem with same | mem
      · exact absurd (congrArg List.length (congrArg Prod.fst same)) (by simp)
      · exact new (mem_places.mpr ⟨_, t.parent m _ k mem⟩)
    have parts : components (front ++ slash :: m) = components front ++ [m] :=
      components_concat next
    obtain ⟨t₂, t', loop, last, D⟩ := ih parts (lookup_walk there) inside (by simp) next others new'
    refine ⟨t₂, t', ?_, ?_, D.cons nodes⟩
    · rw [join_cons, createLoop, if_pos rfl, made]
      simp only
      rw [loop_name next.slash, List.append_assoc, List.singleton_append, loop]
    · rw [join_cons]
      rwa [List.append_assoc, List.cons_append] at last

theorem create_makes (legal : Legal n) (others : ∀ m ∈ names, Legal m) (new : [n] ∉ t.places) :
    ∃ t', createDirRecursive true t (n ++ join names) = some (t', 0) ∧
      Deeper t t' [] (n :: names) := by
  have parts : components n = [] ++ [n] := components_name legal.slash
  obtain ⟨t₁, t', loop, made, D⟩ :=
    loop_makes parts rfl t.root legal.ne_nil legal others new
  refine ⟨t', ?_, D⟩
  obtain ⟨c, rest, rfl⟩ := List.exists_cons_of_ne_nil legal.ne_nil
  have plain := legal.slash
  rw [List.mem_cons, not_or] at plain
  have other : c :: (rest ++ join names) ≠ [slash] := fun same =>
    plain.1 (List.cons.inj same).1.symm
  rw [List.cons_append, createDirRecursive, if_pos rfl, loop_name plain.2, List.singleton_append,
    loop]
  simp only [if_neg other]
  rw [List.cons_append] at made
  rw [made]

/-- Where nothing has the first of the names, the directories that `create_dir_recursive` makes
of them are all there, and `rmdir_recursive` of the first one leaves the tree as it was. -/
theorem made_and_removed (t : FileTree) (n : Name) (names : List Name)
    (legal : ∀ m ∈ n :: names, Legal m) (new : [n] ∉ t.places)
    (fits : (n ++ join names).length ≤ 1023) : ∃ t₁ t₂ fuel,
      createDirRecursive true t (n ++ join names) = some (t₁, 0) ∧
      Deeper t t₁ [] (n :: names) ∧ rmdirRecursive fuel t₁ n true = some t₂ ∧
      ∀ e, e ∈ t₂.nodes ↔ e ∈ t.nodes := by
  obtain ⟨first, others⟩ := List.forall_mem_cons.mp legal
  obtain ⟨t₁, made, D⟩ := create_makes first others new
  have here : ([n], .dir) ∈ t₁.nodes := (D _).mpr (.inr ⟨[n], by simp, by simp, rfl⟩)
  have found : t₁.opendir n = some [n] := opendir_iff.mpr ⟨lookup_first here, here⟩
  -- Only what has been made stands below the first name.
  have inside {q : Place} (mem : q ∈ t₁.places) (le : [n] <:+ q) :
      ∃ l, l <+: n :: names ∧ q = l.reverse := by
    obtain ⟨k, mem⟩ := mem_places.mp mem
    rcases (D _).mp mem with old | ⟨l, _, pre, eq⟩
    · rcases mem_of_suffix (mem_places.mpr ⟨k, old⟩) le with rfl | up
      · exact absurd (mem_places.mpr ⟨k, old⟩) new
      · exact absurd (mem_places.mpr ⟨_, up⟩) new
    · exact ⟨l, pre, by simpa using congrArg Prod.fst eq⟩
  have R : Removable t₁ n [n] := by
    constructor
    · simp
    · have parts : components n = [] ++ [n] := components_name first.slash
      rw [last_eq parts first.ne_nil]
      simp [first.ne_dot, first.ne_dotdot]
    · exact not_through_name first
    · intro above _ mem
      obtain ⟨l, pre, eq⟩ := inside mem (List.suffix_append ..)
      have le := weight_suffix (List.reverse_suffix.mpr pre)
      rw [← eq, weight_append, weight_reverse, weight_cons, weight_cons] at le
      rw [List.length_append, join_length] at fits ⊢
      rw [weight_reverse]
      change _ + (_ + 0) ≤ _ at le
      omega
  obtain ⟨fuel, S⟩ := shallow_exists t₁ [n]
  obtain ⟨t₂, removed, C⟩ := rmdirRecursive_removes fuel t₁ n [n] found R S
  refine ⟨t₁, t₂, fuel, made, D, removed, fun e => ?_⟩
  rw [C e, D e]
  constructor
  · rintro ⟨old | ⟨l, ne, pre, rfl⟩, out⟩
    · exact old
    · obtain ⟨m, l, rfl⟩ := List.exists_cons_of_ne_nil ne
      obtain rfl := (List.cons_prefix_cons.mp pre).1
      exact absurd (by simp) out
  · intro old
    refine ⟨.inl old, fun le => new ?_⟩
    have mem : e.1 ∈ t.places := List.mem_map_of_mem old
    rcases mem_of_suffix mem le with same | up
    · rw [same]
      exact mem
    · exact mem_places.mpr ⟨_, up⟩

/-- Two runs of `main`, beside a file of another name. -/
theorem my_directory_toggles : ∃ t₁ t₂ fuel,
    createDirRecursive true (single .file) (chars "my_directory/dir1/dir2") = some (t₁, 0) ∧
    Deeper (single .file) t₁ [] [chars "my_directory", chars "dir1", chars "dir2"] ∧
    rmdirRecursive fuel t₁ (chars "my_directory") true = some t₂ ∧
    ∀ e, e ∈ t₂.nodes ↔ e ∈ (single .file).nodes :=
  made_and_removed (single .file) (chars "my_directory") [chars "dir1", chars "dir2"] (by decide)
    (by decide) (by decide)

end LearnC.Dir
