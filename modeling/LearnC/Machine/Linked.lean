import Mathlib.Data.List.Nodup
import LearnC.Machine.Chain

/-! Doubly linked lists in memory, with the two pointer updates of an
intrusive list: push in front, and unlink a node wherever it stands. -/

namespace LearnC

section
variable {α : Type} {next next' prev prev' : α → Option α} {head pred : Option α}
  {xs ys zs : List α} {a b : α}

/-- Every `prev` of the visited nodes points at the node visited before,
starting from `pred`. -/
def Back (prev : α → Option α) : Option α → List α → Prop
  | _, [] => True
  | pred, a :: xs => prev a = pred ∧ Back prev (some a) xs

theorem Back.congr (h : Back prev pred xs) (same : ∀ a ∈ xs, prev' a = prev a) :
    Back prev' pred xs := by
  induction xs generalizing pred with
  | nil => trivial
  | cons a xs ih =>
    exact ⟨(same a List.mem_cons_self).trans h.1,
      ih h.2 fun b hb => same b (List.mem_cons_of_mem a hb)⟩

/-- The first node answers to a new predecessor. -/
theorem Back.repoint {pred' : Option α} (h : Back prev pred (a :: xs)) (first : prev' a = pred')
    (same : ∀ b ∈ xs, prev' b = prev b) : Back prev' pred' (a :: xs) :=
  ⟨first, h.2.congr same⟩

/-- The list from `head` ends, its `prev` fields invert its `next` fields, the
first node has no predecessor, and it visits exactly the nodes in `P`, each once. -/
def Linked (next prev : α → Option α) (head : Option α) (P : α → Prop) : Prop :=
  ∃ xs, Chain next head xs ∧ Back prev none xs ∧ xs.Nodup ∧ ∀ a, a ∈ xs ↔ P a

variable {P Q : α → Prop}

theorem Linked.holds (h : Linked next prev head P) : Holds next head P := by
  obtain ⟨xs, hc, _, _, hm⟩ := h
  exact ⟨xs, hc, hm⟩

theorem Linked.head_mem (h : Linked next prev (some a) P) : P a := h.holds.head_mem

theorem linked_none (h : ∀ a, ¬ P a) : Linked next prev none P :=
  ⟨[], rfl, trivial, List.nodup_nil, fun a => ⟨fun ha => by simp at ha, fun ha => absurd ha (h a)⟩⟩

theorem Linked.congr (h : Linked next prev head P) (sameNext : ∀ a, P a → next' a = next a)
    (samePrev : ∀ a, P a → prev' a = prev a) (iff : ∀ a, P a ↔ Q a) :
    Linked next' prev' head Q := by
  obtain ⟨xs, hc, hb, hn, hm⟩ := h
  exact ⟨xs, hc.congr fun a ha => sameNext a ((hm a).mp ha),
    hb.congr fun a ha => samePrev a ((hm a).mp ha), hn, fun a => (hm a).trans (iff a)⟩

/-- What stands on either side of a visited node. -/
theorem linked_mid (hc : Chain next head (ys ++ a :: zs)) (hb : Back prev pred (ys ++ a :: zs)) :
    next a = zs.head? ∧ prev a = (ys.getLast?).or pred := by
  induction ys generalizing head pred with
  | nil =>
    refine ⟨?_, hb.1⟩
    cases zs with
    | nil => exact hc.2
    | cons z zs => exact hc.2.1
  | cons y ys ih =>
    obtain ⟨hn, hp⟩ := ih hc.2 hb.2
    refine ⟨hn, hp.trans ?_⟩
    cases ys with
    | nil => rfl
    | cons x xs => simp [List.getLast?_eq_some_getLast]

theorem Linked.next_mem (h : Linked next prev head P) (ha : P a) (hn : next a = some b) : P b := by
  obtain ⟨xs, hc, hb, _, hm⟩ := h
  obtain ⟨ys, zs, rfl⟩ := List.append_of_mem ((hm a).mpr ha)
  have mid := (linked_mid hc hb).1
  rw [hn] at mid
  rw [← hm]
  exact List.mem_append_right _ (List.mem_cons_of_mem _ (List.mem_of_mem_head? mid.symm))

theorem Linked.prev_mem (h : Linked next prev head P) (ha : P a) (hp : prev a = some b) : P b := by
  obtain ⟨xs, hc, hb, _, hm⟩ := h
  obtain ⟨ys, zs, rfl⟩ := List.append_of_mem ((hm a).mpr ha)
  have mid := (linked_mid hc hb).2
  rw [hp, Option.or_none] at mid
  rw [← hm]
  exact List.mem_append_left _ (List.mem_of_getLast? mid.symm)

/-- Push `a` in front: the old head answers to `a`. -/
theorem Linked.push (h : Linked next prev head P) (new : ¬ P a) (link : next' a = head)
    (first : prev' a = none) (second : ∀ b, head = some b → prev' b = some a)
    (sameNext : ∀ b, P b → next' b = next b)
    (samePrev : ∀ b, P b → head ≠ some b → prev' b = prev b)
    (iff : ∀ b, Q b ↔ b = a ∨ P b) : Linked next' prev' (some a) Q := by
  obtain ⟨xs, hc, hb, hn, hm⟩ := h
  have nodup : (a :: xs).Nodup := List.nodup_cons.mpr ⟨fun ha => new ((hm a).mp ha), hn⟩
  refine ⟨a :: xs, ⟨rfl, ?_⟩, ⟨first, ?_⟩, nodup, ?_⟩
  · rw [link]
    exact hc.congr fun b hb => sameNext b ((hm b).mp hb)
  · cases xs with
    | nil => trivial
    | cons x xs =>
      apply hb.repoint (second x hc.1)
      intro b hbx
      apply samePrev b ((hm b).mp (List.mem_cons_of_mem x hbx))
      intro e
      have eq : x = b := Option.some.inj (hc.1.symm.trans e)
      exact (List.nodup_cons.mp hn).1 (eq ▸ hbx)
  · intro b
    rw [iff, List.mem_cons, hm]

variable [DecidableEq α]

/-- The links around a node taken out of the middle of a list. -/
theorem unlink_mid (hc : Chain next head (ys ++ a :: zs)) (hb : Back prev pred (ys ++ a :: zs))
    (hn : (ys ++ a :: zs).Nodup)
    (hnext : ∀ c ∈ ys ++ zs, next' c = if prev a = some c then next a else next c)
    (hprev : ∀ c ∈ ys ++ zs, prev' c = if next a = some c then prev a else prev c)
    (fresh : ∀ c, pred = some c → c ∉ ys ++ a :: zs) :
    Chain next' (if ys = [] then next a else head) (ys ++ zs) ∧ Back prev' pred (ys ++ zs) := by
  induction ys generalizing head pred with
  | nil =>
    simp only [List.nil_append, ↓reduceIte] at *
    obtain ⟨rfl, hc⟩ := hc
    obtain ⟨hp, hb⟩ := hb
    have hnz := (List.nodup_cons.mp hn).2
    refine ⟨hc.congr ?_, ?_⟩
    · intro c hcz
      rw [hnext c hcz, if_neg]
      rw [hp]
      exact fun e => fresh c e (List.mem_cons_of_mem a hcz)
    · cases zs with
      | nil => trivial
      | cons z zs =>
        have first := hprev z List.mem_cons_self
        rw [if_pos hc.1, hp] at first
        apply hb.repoint first
        intro c hcz
        rw [hprev c (List.mem_cons_of_mem z hcz), if_neg]
        rw [hc.1]
        rintro e
        cases e
        exact (List.nodup_cons.mp hnz).1 hcz
  | cons y ys ih =>
    obtain ⟨rfl, hc⟩ := hc
    obtain ⟨hy, hb⟩ := hb
    have hyn : y ∉ ys ++ a :: zs := (List.nodup_cons.mp hn).1
    have hyz : y ∉ zs := fun h => hyn (by simp [h])
    have mid := linked_mid hc hb
    obtain ⟨ihc, ihb⟩ := ih hc hb (List.nodup_cons.mp hn).2
      (fun c hcm => hnext c (List.mem_cons_of_mem y hcm))
      (fun c hcm => hprev c (List.mem_cons_of_mem y hcm))
      (fun c e hcm => by cases e; exact hyn hcm)
    have hpy : prev' y = pred := by
      rw [hprev y List.mem_cons_self, if_neg, hy]
      rw [mid.1]
      exact fun e => hyz (List.mem_of_mem_head? e)
    refine ⟨?_, hpy, ihb⟩
    simp only [List.cons_append, reduceCtorEq, ↓reduceIte, chain_cons, true_and]
    have hny := hnext y List.mem_cons_self
    cases ys with
    | nil =>
      have hp : prev a = some y := mid.2
      rw [if_pos hp] at hny
      simpa [hny] using ihc
    | cons x xs =>
      rw [if_neg] at hny
      · simpa [hny] using ihc
      · intro e
        rw [mid.2] at e
        have last : (x :: xs).getLast? = some y := by
          simpa [List.getLast?_eq_some_getLast] using e
        exact hyn (List.mem_append_left _ (List.mem_of_getLast? last))

/-- Unlink `a`: its neighbours, where it has them, answer to each other. -/
theorem Linked.unlink (h : Linked next prev head P) (ha : P a)
    (hnext : ∀ c, P c → c ≠ a → next' c = if prev a = some c then next a else next c)
    (hprev : ∀ c, P c → c ≠ a → prev' c = if next a = some c then prev a else prev c)
    (iff : ∀ c, Q c ↔ c ≠ a ∧ P c) :
    Linked next' prev' (if head = some a then next a else head) Q := by
  obtain ⟨xs, hc, hb, hn, hm⟩ := h
  obtain ⟨ys, zs, rfl⟩ := List.append_of_mem ((hm a).mpr ha)
  have rest : ∀ c, c ∈ ys ++ zs ↔ c ≠ a ∧ P c := by
    intro c
    rw [← hm]
    have hn' := List.nodup_middle.mp hn
    constructor
    · intro hcm
      exact ⟨fun e => (List.nodup_cons.mp hn').1 (e ▸ hcm), by
        rcases List.mem_append.mp hcm with hc | hc <;> simp [hc]⟩
    · rintro ⟨hne, hcm⟩
      rcases List.mem_append.mp hcm with hc | hc
      · exact List.mem_append_left _ hc
      · rcases List.mem_cons.mp hc with rfl | hc
        · exact absurd rfl hne
        · exact List.mem_append_right _ hc
  have out := unlink_mid hc hb hn
    (fun c hcm => hnext c ((rest c).mp hcm).2 ((rest c).mp hcm).1)
    (fun c hcm => hprev c ((rest c).mp hcm).2 ((rest c).mp hcm).1) (by simp)
  have first : head = some a ↔ ys = [] := by
    cases ys with
    | nil => simp [hc.1]
    | cons y ys =>
      rw [hc.1]
      simp only [Option.some.injEq, reduceCtorEq, iff_false]
      rintro rfl
      simp at hn
  refine ⟨ys ++ zs, ?_, out.2, (List.nodup_cons.mp (List.nodup_middle.mp hn)).2,
    fun c => (rest c).trans (iff c).symm⟩
  by_cases he : ys = []
  · simpa [first.mpr he, he] using out.1
  · simpa [mt first.mp he, he] using out.1

end

end LearnC
