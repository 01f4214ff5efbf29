import Mathlib.Data.List.Infix

/-! Paths: strings that are followed from the root of a tree, name by name. -/

namespace LearnC.Files

/-- What stands between the slashes of a path. -/
abbrev Name := List UInt8

/-- A place in a tree, by its names from the innermost outwards. -/
abbrev Place := List Name

def slash : UInt8 := 47
def dot : Name := [46]
def dotdot : Name := [46, 46]

/-- A name that something in a directory can have. -/
structure Legal (n : Name) : Prop where
  ne_nil : n ≠ []
  slash : slash ∉ n
  nul : 0 ∉ n
  ne_dot : n ≠ dot
  ne_dotdot : n ≠ dotdot

instance (n : Name) : Decidable (Legal n) :=
  decidable_of_iff (n ≠ [] ∧ Files.slash ∉ n ∧ 0 ∉ n ∧ n ≠ dot ∧ n ≠ dotdot)
    ⟨fun ⟨ne, plain, nul, no_dot, no_dotdot⟩ => ⟨ne, plain, nul, no_dot, no_dotdot⟩,
      fun legal => ⟨legal.1, legal.2, legal.3, legal.4, legal.5⟩⟩

/-- Where a component leads; the root is its own parent. -/
def enter (p : Place) (c : Name) : Place :=
  if c = [] ∨ c = dot then p else if c = dotdot then p.tail else c :: p

def components (path : List UInt8) : List Name := path.splitOn slash

/-- The place that a path names, if there is one. -/
def resolve (path : List UInt8) : Place := (components path).foldl enter []

/-- The last component, slashes at the end apart. -/
def last (path : List UInt8) : Option Name := ((components path).filter (· ≠ [])).getLast?

/-- The names behind a path, each with a slash before it. -/
def join (names : List Name) : List UInt8 := names.flatMap (slash :: ·)

/-- The bytes that names take in a path. -/
def weight : List Name → Nat
  | [] => 0
  | n :: names => n.length + 1 + weight names

section
variable {p d : Place} {c n : Name} {cs names rest : List Name} {path a b : List UInt8} {k : Nat}

theorem enter_stay (stay : c = [] ∨ c = dot) : enter p c = p := if_pos stay

theorem enter_dotdot : enter p dotdot = p.tail := by
  rw [enter, if_neg (by decide), if_pos rfl]

theorem enter_name (ne : c ≠ []) (no_dot : c ≠ dot) (no_dotdot : c ≠ dotdot) :
    enter p c = c :: p := by
  rw [enter, if_neg (not_or.mpr ⟨ne, no_dot⟩), if_neg no_dotdot]

theorem Legal.enter (legal : Legal n) : enter p n = n :: p :=
  enter_name legal.ne_nil legal.ne_dot legal.ne_dotdot

theorem components_append (a b : List UInt8) :
    components (a ++ slash :: b) = components a ++ components b :=
  List.splitOn_append_cons_self a b

theorem components_name (plain : slash ∉ n) : components n = [n] := List.splitOn_eq_singleton plain

theorem components_concat (legal : Legal n) :
    components (a ++ slash :: n) = components a ++ [n] := by
  rw [components_append, components_name legal.slash]

theorem last_eq (eq : components path = cs ++ [c]) (ne : c ≠ []) : last path = some c := by
  rw [last, eq, List.filter_append, List.filter_singleton, decide_eq_true ne,
    cond_true, List.getLast?_concat]

theorem resolve_append (a b : List UInt8) :
    resolve (a ++ slash :: b) = (components b).foldl enter (resolve a) := by
  rw [resolve, components_append, List.foldl_append]
  rfl

theorem join_cons (n : Name) (names : List Name) : join (n :: names) = slash :: (n ++ join names) :=
  rfl

theorem join_singleton (n : Name) : join [n] = slash :: n := List.append_nil (slash :: n)

theorem join_append (names rest : List Name) : join (names ++ rest) = join names ++ join rest :=
  List.flatMap_append

theorem weight_cons (n : Name) (names : List Name) :
    weight (n :: names) = n.length + 1 + weight names := rfl

theorem weight_append (names rest : List Name) :
    weight (names ++ rest) = weight names + weight rest := by
  induction names with
  | nil => exact (Nat.zero_add _).symm
  | cons n names ih =>
    rw [List.cons_append, weight_cons, ih, weight_cons]
    exact (Nat.add_assoc _ _ _).symm

theorem weight_suffix (le : names <:+ rest) : weight names ≤ weight rest := by
  obtain ⟨more, rfl⟩ := le
  rw [weight_append]
  exact Nat.le_add_left _ _

theorem weight_reverse (names : List Name) : weight names.reverse = weight names := by
  induction names with
  | nil => rfl
  | cons n names ih =>
    rw [List.reverse_cons, weight_append, ih, weight_cons, weight_cons]
    exact Nat.add_comm _ _

theorem join_length (names : List Name) : (join names).length = weight names := by
  induction names with
  | nil => rfl
  | cons n names ih =>
    rw [join_cons, List.length_cons, List.length_append, ih, weight_cons]
    omega

/-- A component adds no more to a place than it takes in the path. -/
theorem weight_enter (p : Place) (c : Name) : weight (enter p c) ≤ weight p + (c.length + 1) := by
  unfold enter
  split
  · omega
  · split
    · cases p with
      | nil => exact Nat.zero_le _
      | cons n p =>
        rw [List.tail_cons, weight_cons]
        omega
    · rw [weight_cons]
      omega

theorem weight_foldl (p : Place) (cs : List Name) :
    weight (cs.foldl enter p) ≤ weight p + weight cs := by
  induction cs generalizing p with
  | nil => exact Nat.le_refl _
  | cons c cs ih =>
    have := ih (enter p c)
    have := weight_enter p c
    rw [List.foldl_cons, weight_cons]
    omega

theorem weight_components (path : List UInt8) : weight (components path) = path.length + 1 := by
  induction path with
  | nil => rfl
  | cons x path ih =>
    unfold components at ih ⊢
    rw [List.splitOn_cons_eq_if_modifyHead]
    split
    · rw [weight_cons, ih, List.length_cons, List.length_nil]
      omega
    · obtain ⟨c, cs, eq⟩ := List.exists_cons_of_ne_nil (List.splitOn_ne_nil slash path)
      rw [eq] at ih ⊢
      rw [List.modifyHead_cons, weight_cons, List.length_cons, List.length_cons, ← ih, weight_cons]
      omega

/-- Going on from a place takes as many bytes as the names that are gained. -/
theorem weight_resolve (a b : List UInt8) :
    weight (resolve (a ++ slash :: b)) ≤ weight (resolve a) + (b.length + 1) := by
  have := weight_foldl (resolve a) (components b)
  rw [weight_components] at this
  rw [resolve_append]
  exact this

/-! ## Paths that are cut off -/

/-- What is behind the cut makes no difference. -/
theorem take_join (path : List UInt8) (names rest : List Name) (k : Nat) :
    ((path ++ join names).take k ++ join rest).take k =
      (path ++ join (names ++ rest)).take k := by
  have whole : (path ++ join names ++ join rest).take k = (path ++ join names).take k ++
      (join rest).take (k - (path ++ join names).length) := List.take_append
  rw [join_append, ← List.append_assoc, whole, List.take_append, List.take_take, Nat.min_self,
    List.length_take]
  rcases Nat.le_total k (path ++ join names).length with le | le
  · rw [Nat.min_eq_left le, Nat.sub_self, Nat.sub_eq_zero_of_le le]
  · rw [Nat.min_eq_right le]

/-- Behind a path that is long enough nothing is left of the names. -/
theorem take_long (long : k ≤ path.length) (names : List Name) :
    (path ++ join names).take k = path.take k := List.take_append_of_le_length long

theorem take_short (short : path.length < k) : (path ++ join (n :: names)).take k =
    path ++ slash :: (n ++ join names).take (k - path.length - 1) := by
  obtain ⟨j, eq⟩ : ∃ j, k - path.length = j + 1 := ⟨k - path.length - 1, by omega⟩
  rw [List.take_append, List.take_of_length_le (Nat.le_of_lt short), eq, join_cons,
    List.take_succ_cons]
  rfl

/-- A path of names that is cut off has one component that may be something else. -/
theorem components_take (legal : Legal n) (others : ∀ m ∈ names, Legal m) (pos : 0 < k) :
    ∃ ns c, components ((n ++ join names).take k) = ns ++ [c] ∧ (∀ m ∈ ns, Legal m) ∧
      (c = [] → ns ≠ []) := by
  induction names generalizing n k with
  | nil =>
    have plain : slash ∉ (n ++ join []).take k := fun mem =>
      legal.slash (by simpa [join] using List.mem_of_mem_take mem)
    refine ⟨[], (n ++ join []).take k, components_name plain, by simp, ?_⟩
    rw [List.take_eq_nil_iff]
    rintro (rfl | nil)
    · exact absurd pos (Nat.lt_irrefl 0)
    · exact absurd (List.append_eq_nil_iff.mp nil).1 legal.ne_nil
  | cons m names ih =>
    rw [join_cons, List.take_append]
    obtain ⟨m_legal, others⟩ := List.forall_mem_cons.mp others
    rcases Nat.lt_or_ge n.length k with lt | le
    · obtain ⟨j, eq⟩ : ∃ j, k - n.length = j + 1 := ⟨k - n.length - 1, by omega⟩
      rw [List.take_of_length_le (Nat.le_of_lt lt), eq, List.take_succ_cons, components_append,
        components_name legal.slash]
      cases j with
      | zero => exact ⟨[n], [], rfl, List.forall_mem_singleton.mpr legal, fun _ => by simp⟩
      | succ j =>
        obtain ⟨ns, c, eq, all, _⟩ := ih m_legal others (Nat.succ_pos j)
        rw [eq]
        exact ⟨n :: ns, c, rfl, List.forall_mem_cons.mpr ⟨legal, all⟩, fun _ => by simp⟩
    · rw [Nat.sub_eq_zero_of_le le, List.take_zero, List.append_nil]
      have plain : slash ∉ n.take k := fun mem => legal.slash (List.mem_of_mem_take mem)
      refine ⟨[], n.take k, components_name plain, by simp, ?_⟩
      rw [List.take_eq_nil_iff]
      rintro (rfl | nil)
      · exact absurd pos (Nat.lt_irrefl 0)
      · exact absurd nil legal.ne_nil

theorem foldl_legal (all : ∀ n ∈ names, Legal n) : names.foldl enter p = names.reverse ++ p := by
  induction names generalizing p with
  | nil => rfl
  | cons n names ih =>
    obtain ⟨legal, all⟩ := List.forall_mem_cons.mp all
    rw [List.foldl_cons, legal.enter, ih all, List.reverse_cons, List.append_assoc]
    rfl

/-- The names of a path that is cut off lead on from where they start, unless the last of
them is one that nothing can be removed by. -/
theorem resolve_take (legal : Legal n) (others : ∀ m ∈ names, Legal m) (pos : 0 < k)
    (back : resolve (a ++ slash :: (n ++ join names).take k) = resolve a) :
    last (a ++ slash :: (n ++ join names).take k) ∈ [some dot, some dotdot] := by
  obtain ⟨ns, c, eq, all, some⟩ := components_take legal others pos
  rw [resolve_append, eq, List.foldl_append, foldl_legal all, List.foldl_cons,
    List.foldl_nil] at back
  have whole : components (a ++ slash :: (n ++ join names).take k) =
      components a ++ ns ++ [c] := by
    rw [components_append, eq, List.append_assoc]
  have longer : (ns.reverse ++ resolve a).length = ns.length + (resolve a).length := by
    rw [List.length_append, List.length_reverse]
  by_cases nil : c = []
  · rw [enter_stay (Or.inl nil)] at back
    rw [back] at longer
    exact absurd (List.length_eq_zero_iff.mp (by omega)) (some nil)
  by_cases is_dot : c = dot
  · rw [last_eq whole nil, is_dot]
    exact List.mem_cons_self
  by_cases is_dotdot : c = dotdot
  · rw [last_eq whole nil, is_dotdot]
    exact List.mem_cons_of_mem _ List.mem_cons_self
  · rw [enter_name nil is_dot is_dotdot] at back
    have := congrArg List.length back
    rw [List.length_cons] at this
    omega

theorem components_extend (a b : List UInt8) : ∃ cs c c' rest, components a = cs ++ [c] ∧
    components (a ++ b) = cs ++ (c ++ c') :: rest := by
  induction a with
  | nil =>
    obtain ⟨c', rest, eq⟩ := List.exists_cons_of_ne_nil (List.splitOn_ne_nil slash b)
    exact ⟨[], [], c', rest, rfl, eq⟩
  | cons x a ih =>
    obtain ⟨cs, c, c', rest, eq, eq'⟩ := ih
    unfold components at eq eq' ⊢
    rw [List.cons_append, List.splitOn_cons_eq_if_modifyHead, List.splitOn_cons_eq_if_modifyHead,
      eq, eq']
    split
    · exact ⟨[] :: cs, c, c', rest, rfl, rfl⟩
    · cases cs with
      | nil => exact ⟨[], x :: c, c', rest, rfl, rfl⟩
      | cons d cs => exact ⟨(x :: d) :: cs, c, c', rest, rfl, rfl⟩

/-- Properly below a place. -/
def Inside (d q : Place) : Prop := d <:+ q ∧ q ≠ d

/-- The path goes through places below `d`. -/
def Through (path : List UInt8) (d : Place) : Prop :=
  ∃ cs, cs <+: components path ∧ Inside d (cs.foldl enter [])

/-- One name alone goes through nothing. -/
theorem not_through_name (legal : Legal n) : ¬Through n [n] := by
  rintro ⟨l, le, inside⟩
  rw [components_name legal.slash] at le
  rcases List.prefix_cons_iff.mp le with rfl | ⟨l, rfl, le'⟩
  · exact absurd (List.suffix_nil.mp inside.1) (List.cons_ne_nil n [])
  · obtain rfl := List.prefix_nil.mp le'
    rw [List.foldl_cons, List.foldl_nil, legal.enter] at inside
    exact inside.2 rfl

theorem inside_tail (inside : Inside d p.tail) : Inside d p := by
  obtain ⟨le, ne⟩ := inside
  refine ⟨le.trans (List.tail_suffix p), ?_⟩
  rintro rfl
  have := le.length_le
  rw [List.length_tail] at this
  cases p with
  | nil => exact ne rfl
  | cons n p =>
    rw [List.length_cons] at this
    omega

/-- A name stays one when something is put behind it. -/
theorem enter_extend (ne : c ≠ []) (no_dot : c ≠ dot) (no_dotdot : c ≠ dotdot) (c' : Name) :
    enter p (c ++ c') = (c ++ c') :: p := by
  apply enter_name
  · exact fun nil => ne (List.append_eq_nil_iff.mp nil).1
  · intro eq
    have start := (List.mem_inits c dot).mpr ⟨c', eq⟩
    rw [show dot.inits = [[], dot] from rfl] at start
    simp [ne, no_dot] at start
  · intro eq
    have start := (List.mem_inits c dotdot).mpr ⟨c', eq⟩
    rw [show dotdot.inits = [[], dot, dotdot] from rfl] at start
    simp [ne, no_dot, no_dotdot] at start

/-- Where a path leads below `d` up to a cut, the whole path goes through places below `d`,
also where the cut was inside a component. -/
theorem through_extend (inside : Inside d (resolve a)) : Through (a ++ b) d := by
  obtain ⟨cs, c, c', rest, eq, eq'⟩ := components_extend a b
  rw [resolve, eq, List.foldl_append, List.foldl_cons, List.foldl_nil] at inside
  have stays (inside : Inside d (cs.foldl enter [])) : Through (a ++ b) d :=
    ⟨cs, by rw [eq']; exact List.prefix_append _ _, inside⟩
  by_cases stay : c = [] ∨ c = dot
  · rw [enter_stay stay] at inside
    exact stays inside
  obtain ⟨ne, no_dot⟩ := not_or.mp stay
  by_cases is_dotdot : c = dotdot
  · rw [is_dotdot, enter_dotdot] at inside
    exact stays (inside_tail inside)
  rw [enter_name ne no_dot is_dotdot] at inside
  rcases List.suffix_cons_iff.mp inside.1 with same | le
  · exact absurd same.symm inside.2
  by_cases here : cs.foldl enter [] = d
  · refine ⟨cs ++ [c ++ c'], ?_, ?_⟩
    · rw [eq', List.append_cons cs (c ++ c') rest]
      exact List.prefix_append _ _
    · rw [List.foldl_append, List.foldl_cons, List.foldl_nil, here,
        enter_extend ne no_dot is_dotdot]
      exact ⟨List.suffix_cons _ _, List.cons_ne_self _ _⟩
  · exact stays ⟨le, here⟩

end

end LearnC.Files
