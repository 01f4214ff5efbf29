import LearnC.Machine.Paths
import Mathlib.Data.List.DropRight
import Mathlib.Data.List.Nodup

/-! A tree of directories and files, with the calls that follow a path in it. -/

namespace LearnC.Files

inductive Kind where
  | file
  | dir
  deriving DecidableEq

/-- The errors of `mkdir`. -/
inductive Errno where
  | exist
  | noent
  | notdir
  deriving DecidableEq

/-- What stands at each place, in the order in which the directories list it. -/
structure FileTree where
  nodes : List (Place × Kind)
  nodup : (nodes.map Prod.fst).Nodup
  root : ([], .dir) ∈ nodes
  parent : ∀ n p k, (n :: p, k) ∈ nodes → (p, .dir) ∈ nodes
  legal : ∀ n p k, (n :: p, k) ∈ nodes → Legal n

namespace FileTree

def places (t : FileTree) : List Place := t.nodes.map Prod.fst

/-- Nothing is in it. -/
def Leaf (t : FileTree) (p : Place) : Prop := ∀ e ∈ t.nodes, e.1 ≠ [] → e.1.tail ≠ p

instance (t : FileTree) (p : Place) : Decidable (t.Leaf p) :=
  inferInstanceAs (Decidable (∀ e ∈ t.nodes, e.1 ≠ [] → e.1.tail ≠ p))

/-- What stands at a place is an entry of the directory above it. -/
def entryIn (p : Place) : Place × Kind → Option (Name × Kind)
  | (n :: q, k) => if q = p then some (n, k) else none
  | ([], _) => none

/-- The entries that `readdir` returns of a directory, as they are when it is opened. -/
def entries (t : FileTree) (p : Place) : List (Name × Kind) :=
  (dot, .dir) :: (dotdot, .dir) :: t.nodes.filterMap (entryIn p)

/-- Following components needs a directory before each of them. -/
def walk (t : FileTree) : Place → List Name → Option Place
  | p, [] => some p
  | p, c :: cs =>
    if (p, .dir) ∈ t.nodes ∧ enter p c ∈ t.places then t.walk (enter p c) cs else none

/-- Paths start at the root, with or without a slash in front; the empty one names nothing. -/
def lookup (t : FileTree) (path : List UInt8) : Option Place :=
  if path = [] then none else t.walk [] (components path)

/-- `opendir`, which is for directories only. -/
def opendir (t : FileTree) (path : List UInt8) : Option Place :=
  match t.lookup path with
  | some p => if (p, .dir) ∈ t.nodes then some p else none
  | none => none

/-- The tree without one place that nothing is in. -/
def remove (t : FileTree) (p : Place) (ne : p ≠ []) (leaf : t.Leaf p) : FileTree where
  nodes := t.nodes.filter (·.1 ≠ p)
  nodup := t.nodup.sublist ((List.filter_sublist (p := (·.1 ≠ p))).map Prod.fst)
  root := List.mem_filter.mpr ⟨t.root, decide_eq_true ne.symm⟩
  parent := by
    intro n q k mem
    have mem := (List.mem_filter.mp mem).1
    exact List.mem_filter.mpr ⟨t.parent n q k mem,
      decide_eq_true (leaf (n :: q, k) mem (List.cons_ne_nil n q))⟩
  legal := fun n q k mem => t.legal n q k (List.mem_filter.mp mem).1

variable {t t' t'' : FileTree} {p q d : Place} {n : Name} {k k' : Kind} {cs : List Name}
  {path : List UInt8} {gone gone' : Place → Prop}

theorem kind_unique (mem : (p, k) ∈ t.nodes) (mem' : (p, k') ∈ t.nodes) : k = k' :=
  congrArg Prod.snd (List.inj_on_of_nodup_map t.nodup mem mem' rfl)

/-- A file has nothing in it. -/
theorem file_leaf (mem : (p, .file) ∈ t.nodes) : p ≠ [] ∧ t.Leaf p := by
  constructor
  · rintro rfl
    cases kind_unique mem t.root
  · rintro ⟨q, k⟩ mem' ne eq
    obtain ⟨n, q, rfl⟩ := List.exists_cons_of_ne_nil ne
    obtain rfl : q = p := eq
    cases kind_unique mem (t.parent n q k mem')

def unlink (t : FileTree) (path : List UInt8) : FileTree :=
  match t.lookup path with
  | some p =>
    if file : (p, .file) ∈ t.nodes then t.remove p (file_leaf file).1 (file_leaf file).2 else t
  | none => t

/-- `rmdir` refuses the root, a path that ends in `.` or `..`, and what is not empty. -/
def rmdir (t : FileTree) (path : List UInt8) : FileTree :=
  match t.lookup path with
  | some p =>
    if empty : (p, .dir) ∈ t.nodes ∧ last path ∉ [some dot, some dotdot] ∧ p ≠ [] ∧ t.Leaf p then
      t.remove p empty.2.2.1 empty.2.2.2
    else t
  | none => t

/-- Where components lead, or why they lead nowhere. -/
def follow (t : FileTree) : Place → List Name → Except Errno Place
  | p, [] => .ok p
  | p, c :: cs =>
    if (p, .dir) ∈ t.nodes then
      if enter p c ∈ t.places then t.follow (enter p c) cs else .error .noent
    else .error .notdir

/-- The tree with a new directory in one of its directories. -/
def add (t : FileTree) (p : Place) (n : Name) (dir : (p, .dir) ∈ t.nodes)
    (new : n :: p ∉ t.places) (legal : Legal n) : FileTree where
  nodes := (n :: p, .dir) :: t.nodes
  nodup := List.nodup_cons.mpr ⟨new, t.nodup⟩
  root := List.mem_cons_of_mem _ t.root
  parent := by
    intro m q k mem
    cases mem with
    | head => exact List.mem_cons_of_mem _ dir
    | tail _ mem => exact List.mem_cons_of_mem _ (t.parent m q k mem)
  legal := by
    intro m q k mem
    cases mem with
    | head => exact legal
    | tail _ mem => exact t.legal m q k mem

/-- The components of a path, without the slashes behind its last name. -/
def trimmed (path : List UInt8) : List Name := (components path).rdropWhile (· = [])

/-- What is there for `mkdir`. Slashes behind the last name do not count, even where that is
the name of a file. -/
def named (t : FileTree) (path : List UInt8) : Option Place :=
  if path = [] then none else t.walk [] (trimmed path)

def mkdir (t : FileTree) (path : List UInt8) : Except Errno FileTree :=
  if (t.named path).isSome then .error .exist
  else
    match t.follow [] (trimmed path).dropLast, (trimmed path).getLast? with
    | .error e, _ => .error e
    | .ok _, none => .error .noent
    | .ok p, some n =>
      if ok : (p, .dir) ∈ t.nodes ∧ n :: p ∉ t.places ∧ Legal n then
        .ok (t.add p n ok.1 ok.2.1 ok.2.2)
      else .error .notdir

/-! ## What is in a tree -/

theorem mem_places : p ∈ t.places ↔ ∃ k, (p, k) ∈ t.nodes := by
  unfold places
  rw [List.mem_map]
  constructor
  · rintro ⟨⟨q, k⟩, mem, rfl⟩
    exact ⟨k, mem⟩
  · rintro ⟨k, mem⟩
    exact ⟨(p, k), mem, rfl⟩

/-- What is above a place in the tree is a directory of it. -/
theorem mem_of_suffix (mem : q ∈ t.places) (le : p <:+ q) : p = q ∨ (p, .dir) ∈ t.nodes := by
  induction q with
  | nil => exact Or.inl (List.suffix_nil.mp le)
  | cons n q ih =>
    rcases List.suffix_cons_iff.mp le with rfl | le
    · exact Or.inl rfl
    · obtain ⟨k, mem⟩ := mem_places.mp mem
      have up := t.parent n q k mem
      rcases ih (mem_places.mpr ⟨_, up⟩) le with rfl | above
      · exact Or.inr up
      · exact Or.inr above

theorem entryIn_iff {e : Place × Kind} : entryIn p e = some (n, k) ↔ e = (n :: p, k) := by
  obtain ⟨_ | ⟨m, q⟩, k'⟩ := e
  · simp [entryIn]
  · rw [entryIn]
    split
    case isTrue same => simp [same]
    case isFalse other => simp [other]

theorem mem_entries : (n, k) ∈ t.entries p ↔
    (n, k) = (dot, .dir) ∨ (n, k) = (dotdot, .dir) ∨ (n :: p, k) ∈ t.nodes := by
  unfold entries
  rw [List.mem_cons, List.mem_cons, List.mem_filterMap]
  simp only [entryIn_iff, exists_eq_right]

/-- The entries of a directory have different names. -/
theorem entries_pairwise (t : FileTree) (p : Place) :
    (t.entries p).Pairwise fun e e' => e.1 ≠ e'.1 := by
  have legal : ∀ e ∈ t.nodes.filterMap (entryIn p), Legal e.1 := by
    intro e mem
    obtain ⟨x, mem, eq⟩ := List.mem_filterMap.mp mem
    rw [entryIn_iff.mp eq] at mem
    exact t.legal e.1 p e.2 mem
  unfold entries
  refine List.pairwise_cons.mpr ⟨?_, List.pairwise_cons.mpr ⟨?_, ?_⟩⟩
  · exact List.forall_mem_cons.mpr ⟨by decide, fun e mem => (legal e mem).ne_dot.symm⟩
  · exact fun e mem => (legal e mem).ne_dotdot.symm
  · apply (List.pairwise_map.mp t.nodup).filterMap
    intro x x' differ e eq e' eq' same
    apply differ
    rw [entryIn_iff.mp eq, entryIn_iff.mp eq', same]

theorem leaf_iff : t.Leaf p ↔ ∀ n k, (n :: p, k) ∉ t.nodes := by
  constructor
  · exact fun leaf n k mem => leaf _ mem (List.cons_ne_nil n p) rfl
  · rintro none ⟨q, k⟩ mem ne rfl
    obtain ⟨n, q, rfl⟩ := List.exists_cons_of_ne_nil ne
    exact none n k mem

/-- Below a place is what is below one of its entries. -/
theorem inside_entry (mem : q ∈ t.places) (inside : Inside p q) :
    ∃ n k, (n :: p, k) ∈ t.nodes ∧ n :: p <:+ q := by
  obtain ⟨⟨names, rfl⟩, ne⟩ := inside
  induction names using List.reverseRecOn with
  | nil => exact absurd rfl ne
  | append_singleton names n =>
    have le : n :: p <:+ names ++ [n] ++ p := by
      rw [List.append_assoc]
      exact List.suffix_append _ _
    rcases mem_of_suffix mem le with same | up
    · rw [← same] at mem
      obtain ⟨k, mem⟩ := mem_places.mp mem
      exact ⟨n, k, mem, le⟩
    · exact ⟨n, .dir, up, le⟩

/-! ## Removal -/

/-- The second tree is the first one without the places that are gone. -/
def Cut (t t' : FileTree) (gone : Place → Prop) : Prop :=
  ∀ e, e ∈ t'.nodes ↔ e ∈ t.nodes ∧ ¬gone e.1

theorem Cut.refl (none : ∀ p, ¬gone p) : Cut t t gone :=
  fun e => ⟨fun mem => ⟨mem, none e.1⟩, fun h => h.1⟩

theorem Cut.trans (C : Cut t t' gone) (C' : Cut t' t'' gone') :
    Cut t t'' fun p => gone p ∨ gone' p := by
  intro e
  rw [C' e, C e, not_or, and_assoc]

theorem Cut.congr (C : Cut t t' gone) (same : ∀ p ∈ t.places, gone p ↔ gone' p) :
    Cut t t' gone' := by
  intro e
  rw [C e]
  exact and_congr_right fun mem => not_congr (same e.1 (List.mem_map_of_mem mem))

theorem Cut.places (C : Cut t t' gone) : p ∈ t'.places ↔ p ∈ t.places ∧ ¬gone p := by
  rw [mem_places, mem_places, ← exists_and_right]
  exact exists_congr fun k => C (p, k)

/-- A path that leads through nothing that is gone leads where it did. -/
theorem Cut.walk (C : Cut t t' gone) (stays : ∀ l, l <+: cs → ¬gone (l.foldl enter p)) :
    t'.walk p cs = t.walk p cs := by
  induction cs generalizing p with
  | nil => rfl
  | cons c cs ih =>
    have here : ¬gone p := stays [] List.nil_prefix
    have next : ¬gone (enter p c) := stays [c] ⟨cs, rfl⟩
    have rest := ih fun l le => stays (c :: l) (List.cons_prefix_cons.mpr ⟨rfl, le⟩)
    unfold FileTree.walk
    rw [rest]
    apply if_congr _ rfl rfl
    rw [C (p, .dir), C.places]
    exact and_congr (and_iff_left here) (and_iff_left next)

theorem Cut.lookup (C : Cut t t' gone)
    (stays : ∀ l, l <+: components path → ¬gone (l.foldl enter [])) :
    t'.lookup path = t.lookup path := by
  unfold FileTree.lookup
  rw [C.walk stays]

theorem walk_eq (found : t.walk p cs = some q) : cs.foldl enter p = q := by
  induction cs generalizing p with
  | nil => exact Option.some.inj found
  | cons c cs ih =>
    unfold walk at found
    split at found
    · exact ih found
    · cases found

/-- What a walk goes through is in the tree. -/
theorem walk_mem (found : t.walk p cs = some q) (mem : p ∈ t.places) {l : List Name}
    (le : l <+: cs) : l.foldl enter p ∈ t.places := by
  induction cs generalizing p l with
  | nil =>
    obtain rfl := List.prefix_nil.mp le
    exact mem
  | cons c cs ih =>
    unfold walk at found
    split at found
    case isTrue ok =>
      rcases List.prefix_cons_iff.mp le with rfl | ⟨l, rfl, le'⟩
      · exact mem
      · exact ih found ok.2 le'
    case isFalse => cases found

theorem walk_concat (found : t.walk p cs = some q) (dir : (q, .dir) ∈ t.nodes) {c : Name}
    (mem : enter q c ∈ t.places) : t.walk p (cs ++ [c]) = some (enter q c) := by
  induction cs generalizing p with
  | nil =>
    obtain rfl := Option.some.inj found
    exact if_pos ⟨dir, mem⟩
  | cons c' cs ih =>
    unfold walk at found
    split at found
    case isTrue ok => exact (if_pos ok).trans (ih found)
    case isFalse => cases found

theorem root_mem (t : FileTree) : [] ∈ t.places := mem_places.mpr ⟨_, t.root⟩

theorem lookup_walk (found : t.lookup path = some p) : t.walk [] (components path) = some p := by
  unfold lookup at found
  split at found
  · cases found
  · exact found

theorem lookup_resolve (found : t.lookup path = some p) : resolve path = p :=
  walk_eq (lookup_walk found)

theorem lookup_name (found : t.lookup path = some p) (dir : (p, .dir) ∈ t.nodes)
    (mem : (n :: p, k) ∈ t.nodes) : t.lookup (path ++ slash :: n) = some (n :: p) := by
  have legal := t.legal n p k mem
  have next : enter p n ∈ t.places := by
    rw [legal.enter]
    exact mem_places.mpr ⟨k, mem⟩
  have walked := walk_concat (lookup_walk found) dir next
  rw [legal.enter] at walked
  rw [lookup, if_neg (by simp), components_concat legal]
  exact walked

theorem lookup_first (mem : ([n], k) ∈ t.nodes) : t.lookup n = some [n] := by
  have legal := t.legal n [] k mem
  rw [lookup, if_neg legal.ne_nil, components_name legal.slash]
  have next : enter [] n ∈ t.places := by
    rw [legal.enter]
    exact mem_places.mpr ⟨k, mem⟩
  rw [walk, if_pos ⟨t.root, next⟩, legal.enter]
  rfl

/-- Names of the tree behind a path lead where they say. -/
theorem lookup_join {names : List Name} (found : t.lookup path = some p)
    (mem : names.reverse ++ p ∈ t.places) :
    t.lookup (path ++ join names) = some (names.reverse ++ p) := by
  induction names generalizing path p with
  | nil => exact (congrArg t.lookup (List.append_nil path)).trans found
  | cons n names ih =>
    rw [List.reverse_cons, ← List.append_cons] at mem ⊢
    have le : n :: p <:+ names.reverse ++ n :: p := List.suffix_append _ _
    have entry : ∃ k, (n :: p, k) ∈ t.nodes := by
      rcases mem_of_suffix mem le with same | dir
      · rw [← same] at mem
        exact mem_places.mp mem
      · exact ⟨_, dir⟩
    obtain ⟨k, at_n⟩ := entry
    have next := ih (lookup_name found (t.parent n p k at_n) at_n) mem
    rw [List.append_assoc] at next
    exact next

theorem opendir_iff : t.opendir path = some p ↔
    t.lookup path = some p ∧ (p, .dir) ∈ t.nodes := by
  unfold opendir
  cases t.lookup path with
  | none => simp
  | some q =>
    constructor
    · intro eq
      simp only at eq
      split at eq
      case isTrue dir =>
        obtain rfl := Option.some.inj eq
        exact ⟨rfl, dir⟩
      case isFalse => cases eq
    · rintro ⟨eq, dir⟩
      obtain rfl := Option.some.inj eq
      exact if_pos dir

theorem Cut.opendir (C : Cut t t' gone) (found : t.opendir path = some p)
    (stays : ∀ l, l <+: components path → ¬gone (l.foldl enter [])) :
    t'.opendir path = some p := by
  obtain ⟨found, dir⟩ := opendir_iff.mp found
  have here : ¬gone (resolve path) := stays _ (List.prefix_refl _)
  rw [lookup_resolve found] at here
  exact opendir_iff.mpr ⟨(C.lookup stays).trans found, (C (p, .dir)).mpr ⟨dir, here⟩⟩

theorem remove_cut (ne : p ≠ []) (leaf : t.Leaf p) : Cut t (t.remove p ne leaf) (· = p) := by
  intro e
  exact List.mem_filter.trans (and_congr_right fun _ => decide_eq_true_iff)

theorem unlink_cut (found : t.lookup path = some p) (file : (p, .file) ∈ t.nodes) :
    Cut t (t.unlink path) (· = p) := by
  unfold unlink
  rw [found]
  simp only [file, ↓reduceDIte]
  exact remove_cut _ _

theorem rmdir_cut (found : t.lookup path = some p) (dir : (p, .dir) ∈ t.nodes)
    (ok : last path ∉ [some dot, some dotdot]) (ne : p ≠ []) (leaf : t.Leaf p) :
    Cut t (t.rmdir path) (· = p) := by
  unfold rmdir
  rw [found]
  simp only [dir, ok, ne, leaf, ne_eq, not_false_eq_true, and_self, ↓reduceDIte]
  exact remove_cut _ _

/-- What `unlink` takes away. -/
theorem unlink_lost {e : Place × Kind} (mem : e ∈ t.nodes) (lost : e ∉ (t.unlink path).nodes) :
    resolve path = e.1 ∧ e.2 = .file := by
  unfold unlink at lost
  split at lost
  case h_1 p found =>
    split at lost
    case isTrue file =>
      rw [remove_cut, not_and_not_right] at lost
      obtain rfl := lost mem
      exact ⟨lookup_resolve found, kind_unique mem file⟩
    case isFalse => exact absurd mem lost
  case h_2 => exact absurd mem lost

/-- What `rmdir` takes away. -/
theorem rmdir_lost {e : Place × Kind} (mem : e ∈ t.nodes) (lost : e ∉ (t.rmdir path).nodes) :
    t.lookup path = some e.1 ∧ last path ∉ [some dot, some dotdot] ∧ t.Leaf e.1 := by
  unfold rmdir at lost
  split at lost
  case h_1 p found =>
    split at lost
    case isTrue ok =>
      rw [remove_cut, not_and_not_right] at lost
      obtain rfl := lost mem
      exact ⟨found, ok.2.1, ok.2.2.2⟩
    case isFalse => exact absurd mem lost
  case h_2 => exact absurd mem lost

theorem unlink_dir (found : t.opendir path = some p) : t.unlink path = t := by
  obtain ⟨found, dir⟩ := opendir_iff.mp found
  unfold unlink
  rw [found]
  refine dif_neg fun file => ?_
  cases kind_unique dir file

theorem nodup_tails (p : Place) : p.tails.Nodup := by
  induction p with
  | nil => exact List.nodup_singleton []
  | cons n p ih =>
    refine List.nodup_cons.mpr ⟨fun mem => ?_, ih⟩
    have := ((List.mem_tails _ _).mp mem).length_le
    rw [List.length_cons] at this
    omega

/-- A place with nothing but the directories above it. -/
def chain (p : Place) (legal : ∀ n ∈ p, Legal n) : FileTree where
  nodes := p.tails.map (·, .dir)
  nodup := by
    rw [List.map_map]
    exact (nodup_tails p).map fun q q' eq => eq
  root := List.mem_map_of_mem ((List.mem_tails _ _).mpr List.nil_suffix)
  parent := by
    intro n q k mem
    obtain ⟨_, below, eq⟩ := List.mem_map.mp mem
    cases eq
    exact List.mem_map_of_mem ((List.mem_tails _ _).mpr
      ((List.suffix_cons n q).trans ((List.mem_tails _ _).mp below)))
  legal := by
    intro n q k mem
    obtain ⟨_, below, eq⟩ := List.mem_map.mp mem
    cases eq
    exact legal n (((List.mem_tails _ _).mp below).subset List.mem_cons_self)

theorem mem_chain {legal : ∀ n ∈ p, Legal n} (le : q <:+ p) : (q, .dir) ∈ (chain p legal).nodes :=
  List.mem_map_of_mem ((List.mem_tails q p).mpr le)

theorem suffix_of_mem_chain {legal : ∀ n ∈ p, Legal n} (mem : q ∈ (chain p legal).places) :
    q <:+ p := by
  obtain ⟨k, mem⟩ := mem_places.mp mem
  obtain ⟨_, below, eq⟩ := List.mem_map.mp mem
  cases eq
  exact (List.mem_tails _ _).mp below

end FileTree

end LearnC.Files
