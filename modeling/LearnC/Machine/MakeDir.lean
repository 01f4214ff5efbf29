import LearnC.Machine.FileTree

/-! Trees that grow: when `mkdir` fails, and what a path leads to afterwards. -/

namespace LearnC.Files.FileTree

/-- Whatever stands in the first tree stands in the second. -/
def Grows (t t' : FileTree) : Prop := ∀ e ∈ t.nodes, e ∈ t'.nodes

variable {t t' : FileTree} {p q d : Place} {c n : Name} {k : Kind} {cs : List Name}
  {path a b : List UInt8} {e : Errno}

theorem Grows.places (G : Grows t t') (mem : p ∈ t.places) : p ∈ t'.places := by
  obtain ⟨k, mem⟩ := mem_places.mp mem
  exact mem_places.mpr ⟨k, G _ mem⟩

/-- A path still leads where it did. -/
theorem Grows.walk (G : Grows t t') (found : t.walk p cs = some q) : t'.walk p cs = some q := by
  induction cs generalizing p with
  | nil => exact found
  | cons c cs ih =>
    unfold FileTree.walk at found ⊢
    split at found
    case isTrue ok => rw [if_pos ⟨G _ ok.1, G.places ok.2⟩, ih found]
    case isFalse => cases found

theorem Grows.lookup (G : Grows t t') (found : t.lookup path = some p) :
    t'.lookup path = some p := by
  unfold FileTree.lookup at found ⊢
  split at found
  · cases found
  · next ne => rw [if_neg ne, G.walk found]

theorem follow_iff : t.follow p cs = .ok q ↔ t.walk p cs = some q := by
  induction cs generalizing p with
  | nil => simp [follow, walk]
  | cons c cs ih =>
    unfold follow walk
    by_cases dir : (p, .dir) ∈ t.nodes
    · by_cases mem : enter p c ∈ t.places
      · simp [dir, mem, ih]
      · simp [dir, mem]
    · simp [dir]

theorem follow_ne_exist : t.follow p cs ≠ .error .exist := by
  induction cs generalizing p with
  | nil => simp [follow]
  | cons c cs ih =>
    unfold follow
    split
    · split
      · exact ih
      · simp
    · simp

theorem walk_append {cs' : List Name} :
    t.walk p (cs ++ cs') = (t.walk p cs).bind fun q => t.walk q cs' := by
  induction cs generalizing p with
  | nil => rfl
  | cons c cs ih =>
    rw [List.cons_append, walk, walk]
    split
    · exact ih
    · rfl

theorem foldl_stay (stay : ∀ c ∈ cs, c = []) : cs.foldl enter p = p := by
  induction cs with
  | nil => rfl
  | cons c cs ih =>
    rw [List.forall_mem_cons] at stay
    rw [List.foldl_cons, enter_stay (Or.inl stay.1), ih stay.2]

/-- Slashes behind a directory lead nowhere else. -/
theorem walk_stay (dir : (p, .dir) ∈ t.nodes) (stay : ∀ c ∈ cs, c = []) :
    t.walk p cs = some p := by
  induction cs with
  | nil => rfl
  | cons c cs ih =>
    rw [List.forall_mem_cons] at stay
    have here : enter p c = p := enter_stay (Or.inl stay.1)
    unfold walk
    rw [here, if_pos ⟨dir, mem_places.mpr ⟨_, dir⟩⟩, ih stay.2]

/-! ## Slashes at the end -/

theorem components_trimmed (path : List UInt8) :
    ∃ slashes, components path = trimmed path ++ slashes ∧ ∀ c ∈ slashes, c = [] := by
  refine ⟨_, List.rdropWhile_append_rtakeWhile.symm, fun c mem => ?_⟩
  simpa using List.mem_rtakeWhile_imp mem

theorem trimmed_name (eq : components path = cs ++ [n]) (ne : n ≠ []) :
    trimmed path = cs ++ [n] := by
  rw [trimmed, eq, List.rdropWhile_concat_neg]
  simpa using ne

theorem trimmed_slash (path : List UInt8) : trimmed (path ++ [slash]) = trimmed path := by
  have last : components (path ++ [slash]) = components path ++ [[]] :=
    components_append path []
  rw [trimmed, last, List.rdropWhile_concat_pos _ _ _ (by simp), trimmed]

theorem rdropWhile_append {cs' : List Name} (on : ∃ n ∈ cs', n ≠ []) :
    (cs ++ cs').rdropWhile (· = []) = cs ++ cs'.rdropWhile (· = []) := by
  induction cs' using List.reverseRecOn with
  | nil => simp at on
  | append_singleton front c ih =>
    by_cases slash : c = []
    · have on : ∃ n ∈ front, n ≠ [] := by simpa [slash] using on
      rw [← List.append_assoc, List.rdropWhile_concat_pos _ _ _ (by simp [slash]),
        List.rdropWhile_concat_pos _ _ _ (by simp [slash]), ih on]
    · rw [← List.append_assoc, List.rdropWhile_concat_neg _ _ _ (by simp [slash]),
        List.rdropWhile_concat_neg _ _ _ (by simp [slash]), List.append_assoc]

/-- A byte that is not a slash belongs to a name. -/
theorem component_of_byte {c : UInt8} (mem : c ∈ path) (other : c ≠ slash) :
    ∃ n ∈ components path, n ≠ [] := by
  induction path with
  | nil => cases mem
  | cons x path ih =>
    rw [components, List.splitOn_cons_eq_if_modifyHead]
    split
    · next last =>
      cases mem with
      | head => exact absurd (beq_iff_eq.mp last) other
      | tail _ mem =>
        obtain ⟨n, mem, ne⟩ := ih mem
        exact ⟨n, List.mem_cons_of_mem _ mem, ne⟩
    · obtain ⟨n, rest, eq⟩ := List.exists_cons_of_ne_nil (List.splitOn_ne_nil slash path)
      exact ⟨x :: n, by simp [eq], by simp⟩

/-- Where a path goes on with another name, everything before it counts. -/
theorem trimmed_on (on : ∃ n ∈ components b, n ≠ []) :
    trimmed (a ++ slash :: b) = components a ++ trimmed b ∧ trimmed b ≠ [] := by
  refine ⟨by rw [trimmed, components_append, rdropWhile_append on, trimmed], fun none => ?_⟩
  obtain ⟨n, mem, ne⟩ := on
  have := List.rdropWhile_eq_nil_iff.mp none n mem
  simp [ne] at this

theorem named_lookup (found : t.lookup path = some p) : t.named path = some p := by
  unfold lookup at found
  unfold named
  split at found
  · cases found
  · next ne =>
    rw [if_neg ne]
    obtain ⟨slashes, eq, stay⟩ := components_trimmed path
    rw [eq, walk_append] at found
    obtain ⟨q, trim, rest⟩ := Option.bind_eq_some_iff.mp found
    rw [trim, ← walk_eq rest, foldl_stay stay]

/-- A directory is found with the slashes behind its name as well. -/
theorem lookup_named (found : t.named path = some p) (dir : (p, .dir) ∈ t.nodes) :
    t.lookup path = some p := by
  unfold named at found
  unfold lookup
  split at found
  · cases found
  · next ne =>
    obtain ⟨slashes, eq, stay⟩ := components_trimmed path
    rw [if_neg ne, eq, walk_append, found, Option.bind_some, walk_stay dir stay]

theorem named_walk (found : t.named path = some p) : t.walk [] (trimmed path) = some p := by
  unfold named at found
  split at found
  · cases found
  · exact found

theorem named_resolve (found : t.named path = some p) : resolve path = p := by
  obtain ⟨slashes, eq, stay⟩ := components_trimmed path
  rw [resolve, eq, List.foldl_append, walk_eq (named_walk found), foldl_stay stay]

/-- Something stands where a path names it. -/
theorem named_mem (found : t.named path = some p) : ∃ k, (p, k) ∈ t.nodes := by
  have walked := named_walk found
  have mem := walk_mem walked t.root_mem (List.prefix_refl _)
  rw [walk_eq walked] at mem
  exact mem_places.mp mem

theorem named_slash (ne : path ≠ []) : t.named (path ++ [slash]) = t.named path := by
  rw [named, named, if_neg (by simp), if_neg ne, trimmed_slash]

theorem Grows.named (G : Grows t t') (found : t.named path = some p) :
    t'.named path = some p := by
  unfold FileTree.named at found ⊢
  split at found
  · cases found
  · next ne => rw [if_neg ne, G.walk found]

/-! ## Making a directory -/

theorem mkdir_exist : t.mkdir path = .error .exist ↔ ∃ p, t.named path = some p := by
  rw [← Option.isSome_iff_exists]
  unfold mkdir
  split
  · next found => simp [found]
  · next lost =>
    simp only [lost, iff_false, Bool.false_eq_true]
    split
    · next e leads =>
      intro exist
      cases exist
      exact follow_ne_exist leads
    · simp
    · split
      · simp
      · simp

/-- A directory that is made is a new one, and the path leads to it. -/
theorem mkdir_ok (made : t.mkdir path = .ok t') :
    ∃ p n, t'.nodes = (n :: p, .dir) :: t.nodes ∧ t'.lookup path = some (n :: p) := by
  unfold mkdir at made
  split at made
  · cases made
  · split at made
    · cases made
    · cases made
    · next p n leads last =>
      split at made
      · next ok =>
        cases made
        refine ⟨p, n, rfl, ?_⟩
        have grows : Grows t (t.add p n ok.1 ok.2.1 ok.2.2) :=
          fun e mem => List.mem_cons_of_mem _ mem
        have here : (n :: p, .dir) ∈ (t.add p n ok.1 ok.2.1 ok.2.2).nodes := List.mem_cons_self
        have ne : path ≠ [] := by
          rintro rfl
          simp [trimmed, components, List.rdropWhile] at last
        have next := walk_concat (grows.walk (follow_iff.mp leads)) (grows _ ok.1) (c := n)
          (by rw [ok.2.2.enter]; exact mem_places.mpr ⟨_, here⟩)
        rw [ok.2.2.enter, List.dropLast_append_getLast? n last] at next
        exact lookup_named (by rw [named, if_neg ne, next]) here
      · cases made

/-- In a directory that a path leads to, one more component is there or can be made. -/
theorem mkdir_next (eq : components path = cs ++ [n]) (found : t.walk [] cs = some d)
    (dir : (d, .dir) ∈ t.nodes) (ne : path ≠ []) (plain : slash ∉ n) (text : 0 ∉ n) :
    (∃ t', t.mkdir path = .ok t') ∨ t.mkdir path = .error .exist := by
  by_cases mem : enter d n ∈ t.places
  · refine Or.inr (mkdir_exist.mpr ⟨enter d n, named_lookup ?_⟩)
    rw [lookup, if_neg ne, eq, walk_concat found dir mem]
  · have here : d ∈ t.places := mem_places.mpr ⟨_, dir⟩
    have legal : Legal n := by
      refine ⟨?_, plain, text, ?_, ?_⟩
      · rintro rfl
        exact mem (by rwa [enter_stay (Or.inl rfl)])
      · rintro rfl
        exact mem (by rwa [enter_stay (Or.inr rfl)])
      · rintro rfl
        rw [enter_dotdot] at mem
        cases mem_of_suffix here (List.tail_suffix d) with
        | inl same =>
          rw [same] at mem
          exact mem here
        | inr up => exact mem (mem_places.mpr ⟨_, up⟩)
    rw [legal.enter] at mem
    have names := trimmed_name eq legal.ne_nil
    have lost : (t.named path).isSome = false := by
      by_contra some
      rw [Bool.not_eq_false] at some
      obtain ⟨q, found'⟩ := Option.isSome_iff_exists.mp some
      have walked := named_walk found'
      rw [names, walk_append, found, Option.bind_some, walk, legal.enter] at walked
      simp [mem] at walked
    refine Or.inl ⟨t.add d n dir mem legal, ?_⟩
    rw [mkdir, lost]
    simp only [Bool.false_eq_true, ↓reduceIte, names, List.dropLast_concat, follow_iff.mpr found,
      List.getLast?_concat]
    simp [dir, mem, legal]

end LearnC.Files.FileTree
