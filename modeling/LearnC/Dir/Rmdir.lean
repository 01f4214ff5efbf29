import LearnC.Machine.FileTree
import LearnC.Machine.Strings

/-! `rmdir_recursive`, which removes a directory and everything in it. -/

namespace LearnC.Dir

open Files FileTree

/-- What `snprintf` leaves of the path of an entry in `char full_path[1024]`. -/
def fullPath (path : List UInt8) (name : Name) : List UInt8 := (path ++ slash :: name).take 1023

/-- With the depth of the stack as fuel; `none` when it is used up. -/
def rmdirRecursive : Nat → FileTree → List UInt8 → Bool → Option FileTree
  | 0, _, _, _ => none
  | fuel + 1, t, path, removeTopDir =>
    match t.opendir path with
    | none => some t
    | some p => do
      let t ← (t.entries p).foldlM (fun t entry =>
        if entry.1 = dot ∨ entry.1 = dotdot then some t
        else if entry.2 = .dir then rmdirRecursive fuel t (fullPath path entry.1) true
        else some (t.unlink (fullPath path entry.1))) t
      some (if removeTopDir then t.rmdir path else t)

/-- Everything at the place and below it is gone, and the rest is as it was. -/
def Removed (t t' : FileTree) (p : Place) : Prop := Cut t t' (p <:+ ·)

/-- When the directory `p` can be removed by this path. -/
structure Removable (t : FileTree) (path : List UInt8) (p : Place) : Prop where
  ne_root : p ≠ []
  last : last path ∉ [some dot, some dotdot]
  outside : ¬Through path p
  /-- The paths of what is in it fit into the buffer. -/
  fits : ∀ names, names ≠ [] → names ++ p ∈ t.places → (path ++ join names.reverse).length ≤ 1023

variable {t t' : FileTree} {path : List UInt8} {p q : Place} {n : Name} {k : Kind} {fuel : Nat}
  {gone : Place → Prop}

/-- What is done with one entry. -/
def rmdirEntry (fuel : Nat) (path : List UInt8) (t : FileTree) (entry : Name × Kind) :
    Option FileTree :=
  if entry.1 = dot ∨ entry.1 = dotdot then some t
  else if entry.2 = .dir then rmdirRecursive fuel t (fullPath path entry.1) true
  else some (t.unlink (fullPath path entry.1))

theorem rmdirRecursive_eq (opened : t.opendir path = some p) :
    rmdirRecursive (fuel + 1) t path true =
      ((t.entries p).foldlM (rmdirEntry fuel path) t).map (·.rmdir path) := by
  rw [rmdirRecursive, opened]
  change ((t.entries p).foldlM (rmdirEntry fuel path) t).bind _ = _
  rw [Option.map_eq_bind]
  rfl

theorem inside_entry_path (le : n :: p <:+ q) : Inside p q := by
  refine ⟨(List.suffix_cons n p).trans le, ?_⟩
  rintro rfl
  have := le.length_le
  rw [List.length_cons] at this
  omega

/-- The path of an entry of a removable directory is not cut off. -/
theorem Removable.fullPath_eq (R : Removable t path p) (mem : (n :: p, k) ∈ t.nodes) :
    fullPath path n = path ++ slash :: n := by
  have short := R.fits [n] (List.cons_ne_nil n []) (mem_places.mpr ⟨k, mem⟩)
  rw [List.reverse_singleton, join_singleton] at short
  exact List.take_of_length_le short

/-- An entry that is a directory is removable, too. -/
theorem Removable.entry (R : Removable t path p) (mem : (n :: p, k) ∈ t.nodes)
    (found : t.opendir path = some p) : Removable t (fullPath path n) (n :: p) := by
  have legal := t.legal n p k mem
  have here : resolve path = p := lookup_resolve (opendir_iff.mp found).1
  rw [R.fullPath_eq mem]
  constructor
  · exact List.cons_ne_nil n p
  · rw [last_eq (components_concat legal) legal.ne_nil]
    simp [legal.ne_dot, legal.ne_dotdot]
  · rintro ⟨l, le, inside⟩
    rw [components_concat legal] at le
    rcases List.prefix_concat_iff.mp le with rfl | le
    · rw [List.foldl_append, ← resolve, here, List.foldl_cons, List.foldl_nil,
        legal.enter] at inside
      exact inside.2 rfl
    · exact R.outside ⟨l, le, inside_entry_path inside.1⟩
  · intro names ne at_names
    have short := R.fits (names ++ [n]) (List.concat_ne_nil n names) (by
      rw [List.append_assoc]
      exact at_names)
    rw [List.reverse_append, join_append, List.reverse_singleton, join_singleton,
      ← List.append_assoc] at short
    exact short

theorem Removable.mono (R : Removable t path p) (C : Cut t t' gone) : Removable t' path p where
  ne_root := R.ne_root
  last := R.last
  outside := R.outside
  fits := fun names ne mem => R.fits names ne (C.places.mp mem).1

/-- Nothing of the tree is deeper below `p` than the stack can go. -/
def Shallow (fuel : Nat) (t : FileTree) (p : Place) : Prop :=
  ∀ q ∈ t.places, q.length < p.length + fuel

theorem Shallow.mono (S : Shallow fuel t p) (C : Cut t t' gone) : Shallow fuel t' p :=
  fun q mem => S q (C.places.mp mem).1

theorem Shallow.entry (S : Shallow (fuel + 1) t p) : Shallow fuel t (n :: p) := by
  intro q mem
  have := S q mem
  rw [List.length_cons]
  omega

theorem shallow_exists (t : FileTree) (p : Place) : ∃ fuel, Shallow fuel t p := by
  unfold Shallow
  induction t.places with
  | nil => exact ⟨0, by simp⟩
  | cons q places ih =>
    obtain ⟨fuel, all⟩ := ih
    refine ⟨fuel + q.length + 1, List.forall_mem_cons.mpr ⟨by omega, fun q' mem => ?_⟩⟩
    have := all q' mem
    omega

/-- What a call with this much fuel does to a directory that can be removed. -/
def Removes (fuel : Nat) : Prop := ∀ t path p, t.opendir path = some p → Removable t path p →
  Shallow fuel t p → ∃ t', rmdirRecursive fuel t path true = some t' ∧ Removed t t' p

/-- One entry is removed with everything in it. -/
theorem rmdirEntry_removes (calls : Removes fuel) (found : t.opendir path = some p)
    (R : Removable t path p) (S : Shallow (fuel + 1) t p) (mem : (n :: p, k) ∈ t.nodes) :
    ∃ t', rmdirEntry fuel path t (n, k) = some t' ∧ Removed t t' (n :: p) := by
  have legal := t.legal n p k mem
  obtain ⟨found_at, dir⟩ := opendir_iff.mp found
  have at_entry := lookup_name found_at dir mem
  rw [← R.fullPath_eq mem] at at_entry
  rw [rmdirEntry, if_neg (not_or.mpr ⟨legal.ne_dot, legal.ne_dotdot⟩)]
  cases k with
  | dir => exact calls t _ _ (opendir_iff.mpr ⟨at_entry, mem⟩) (R.entry mem found) S.entry
  | file =>
    refine ⟨_, rfl, (unlink_cut at_entry mem).congr fun q at_q => ?_⟩
    constructor
    · rintro rfl
      exact List.suffix_rfl
    · intro le
      rcases mem_of_suffix at_q le with same | up
      · exact same.symm
      · cases kind_unique mem up

/-- One entry of the list is left out or removed. -/
theorem rmdirEntry_cut (calls : Removes fuel) (found : t.opendir path = some p)
    (R : Removable t path p) (S : Shallow (fuel + 1) t p) {e : Name × Kind}
    (mem : e.1 = dot ∨ e.1 = dotdot ∨ (e.1 :: p, e.2) ∈ t.nodes) :
    ∃ t', rmdirEntry fuel path t e = some t' ∧ Cut t t' fun q => Legal e.1 ∧ e.1 :: p <:+ q := by
  by_cases dots : e.1 = dot ∨ e.1 = dotdot
  · refine ⟨t, if_pos dots, Cut.refl fun q h => ?_⟩
    exact dots.elim h.1.ne_dot h.1.ne_dotdot
  · have mem := (or_assoc.mpr mem).resolve_left dots
    obtain ⟨t', eq, C⟩ := rmdirEntry_removes calls found R S mem
    exact ⟨t', eq, C.congr fun q _ => (and_iff_right (t.legal _ _ _ mem)).symm⟩

theorem entries_removed (calls : Removes fuel) (found : t.opendir path = some p)
    (R : Removable t path p) (S : Shallow (fuel + 1) t p) (es : List (Name × Kind))
    (distinct : es.Pairwise fun e e' => e.1 ≠ e'.1)
    (mem : ∀ e ∈ es, e.1 = dot ∨ e.1 = dotdot ∨ (e.1 :: p, e.2) ∈ t.nodes) :
    ∃ t', es.foldlM (rmdirEntry fuel path) t = some t' ∧
      Cut t t' fun q => ∃ e ∈ es, Legal e.1 ∧ e.1 :: p <:+ q := by
  induction es generalizing t with
  | nil => exact ⟨t, rfl, Cut.refl fun q h => by simp at h⟩
  | cons e es ih =>
    obtain ⟨first, distinct⟩ := List.pairwise_cons.mp distinct
    obtain ⟨here, mem⟩ := List.forall_mem_cons.mp mem
    obtain ⟨t1, eq, C⟩ := rmdirEntry_cut calls found R S here
    have found1 := C.opendir found fun l le gone => R.outside ⟨l, le, inside_entry_path gone.2⟩
    have mem1 : ∀ e ∈ es, e.1 = dot ∨ e.1 = dotdot ∨ (e.1 :: p, e.2) ∈ t1.nodes := by
      intro e' at_e'
      refine (mem e' at_e').imp_right (Or.imp_right fun mem => (C _).mpr ⟨mem, ?_⟩)
      rintro ⟨_, le⟩
      exact first e' at_e' (List.cons.inj (le.eq_of_length rfl)).1
    obtain ⟨t2, eq2, C2⟩ := ih found1 (R.mono C) (S.mono C) distinct mem1
    refine ⟨t2, ?_, (C.trans C2).congr fun q _ => ?_⟩
    · rw [List.foldlM_cons, eq]
      exact eq2
    · exact (List.exists_mem_cons_iff (fun e => Legal e.1 ∧ e.1 :: p <:+ q) e es).symm

theorem rmdirRecursive_removes (fuel : Nat) : Removes fuel := by
  induction fuel with
  | zero =>
    intro t path p found _ S
    exact absurd (S p (mem_places.mpr ⟨_, (opendir_iff.mp found).2⟩)) (Nat.lt_irrefl _)
  | succ fuel calls =>
    intro t path p found R S
    obtain ⟨found_at, dir⟩ := opendir_iff.mp found
    have listed : ∀ e ∈ t.entries p, e.1 = dot ∨ e.1 = dotdot ∨ (e.1 :: p, e.2) ∈ t.nodes := by
      rintro ⟨n, k⟩ mem
      exact (mem_entries.mp mem).imp (congrArg Prod.fst) (Or.imp_left (congrArg Prod.fst))
    obtain ⟨t1, eq, C⟩ := entries_removed calls found R S _ (entries_pairwise t p) listed
    have gone_iff {q : Place} (mem : q ∈ t.places) :
        (∃ e ∈ t.entries p, Legal e.1 ∧ e.1 :: p <:+ q) ↔ Inside p q := by
      constructor
      · rintro ⟨e, _, _, le⟩
        exact inside_entry_path le
      · intro inside
        obtain ⟨n, k, at_n, le⟩ := inside_entry mem inside
        exact ⟨(n, k), mem_entries.mpr (Or.inr (Or.inr at_n)), t.legal n p k at_n, le⟩
    have C := C.congr fun q mem => gone_iff mem
    have stays := C.opendir found fun l le inside => R.outside ⟨l, le, inside⟩
    obtain ⟨found1, dir1⟩ := opendir_iff.mp stays
    have leaf : t1.Leaf p := leaf_iff.mpr fun n k mem =>
      ((C _).mp mem).2 (inside_entry_path List.suffix_rfl)
    refine ⟨t1.rmdir path, ?_, ?_⟩
    · rw [rmdirRecursive_eq found, eq]
      rfl
    · refine (C.trans (rmdir_cut found1 dir1 R.last R.ne_root leaf)).congr fun q _ => ?_
      constructor
      · rintro (inside | rfl)
        · exact inside.1
        · exact List.suffix_rfl
      · intro le
        by_cases same : q = p
        · exact Or.inr same
        · exact Or.inl ⟨le, same⟩

end LearnC.Dir
