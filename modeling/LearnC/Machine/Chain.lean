import Mathlib.Logic.Function.Iterate

/-! Linked lists in memory: what following a `next` field from a head pointer
visits, and what the pointer updates of a list do to it. -/

namespace LearnC

section
variable {α : Type} {next next' : α → Option α} {head : Option α} {xs ys zs : List α} {a b p : α}

/-- The nodes that following `next` from `head` visits before it reaches the
end of the list. -/
def Chain (next : α → Option α) : Option α → List α → Prop
  | head, [] => head = none
  | head, a :: xs => head = some a ∧ Chain next (next a) xs

@[simp] theorem chain_nil : Chain next head [] ↔ head = none := Iff.rfl

@[simp] theorem chain_cons : Chain next head (a :: xs) ↔ head = some a ∧ Chain next (next a) xs :=
  Iff.rfl

theorem chain_none (h : Chain next none xs) : xs = [] := by
  cases xs with
  | nil => rfl
  | cons a xs => cases h.1

theorem Chain.unique (hx : Chain next head xs) (hy : Chain next head ys) : xs = ys := by
  induction xs generalizing head ys with
  | nil =>
    rw [chain_nil.mp hx] at hy
    exact (chain_none hy).symm
  | cons a xs ih =>
    obtain ⟨rfl, hx⟩ := hx
    cases ys with
    | nil => cases hy
    | cons b ys =>
      obtain ⟨hb, hy⟩ := hy
      cases hb
      rw [ih hx hy]

theorem Chain.at_mid (h : Chain next head (ys ++ a :: zs)) : Chain next (next a) zs := by
  induction ys generalizing head with
  | nil => exact h.2
  | cons b ys ih => exact ih h.2

/-- A list that ends is acyclic: it visits no node twice. -/
theorem Chain.nodup (h : Chain next head xs) : xs.Nodup := by
  induction xs generalizing head with
  | nil => exact List.nodup_nil
  | cons a xs ih =>
    refine List.nodup_cons.mpr ⟨?_, ih h.2⟩
    intro ha
    obtain ⟨ys, zs, rfl⟩ := List.append_of_mem ha
    -- The same node would start a list and a proper suffix of that list.
    have same := Chain.unique h.2 h.2.at_mid
    have := congrArg List.length same
    simp at this
    omega

/-- Only the links of the visited nodes matter. -/
theorem Chain.congr (h : Chain next head xs) (same : ∀ a ∈ xs, next' a = next a) :
    Chain next' head xs := by
  induction xs generalizing head with
  | nil => exact h
  | cons a xs ih =>
    refine ⟨h.1, ?_⟩
    rw [same a List.mem_cons_self]
    exact ih h.2 fun b hb => same b (List.mem_cons_of_mem a hb)

/-- Redirecting the link of `p` past its successor takes that successor out. -/
theorem Chain.skip (h : Chain next head (ys ++ p :: a :: zs)) (hp : next' p = next a)
    (same : ∀ b ∈ ys ++ zs, next' b = next b) : Chain next' head (ys ++ p :: zs) := by
  induction ys generalizing head with
  | nil =>
    refine ⟨h.1, ?_⟩
    rw [hp]
    exact h.2.2.congr same
  | cons b ys ih =>
    refine ⟨h.1, ?_⟩
    rw [same b List.mem_cons_self]
    exact ih h.2 fun c hc => same c (List.mem_cons_of_mem b hc)

theorem Chain.append_last (h : Chain next head (ys ++ [p])) (link : next' p = some a)
    (last : next' a = none) (same : ∀ b ∈ ys, next' b = next b) :
    Chain next' head (ys ++ [p, a]) := by
  induction ys generalizing head with
  | nil =>
    refine ⟨h.1, ?_⟩
    rw [link]
    exact ⟨rfl, last⟩
  | cons b ys ih =>
    refine ⟨h.1, ?_⟩
    rw [same b List.mem_cons_self]
    exact ih h.2 fun c hc => same c (List.mem_cons_of_mem b hc)

theorem Chain.walk (h : Chain next head xs) :
    (fun curr : Option α => curr.bind next)^[xs.length] head = none := by
  induction xs generalizing head with
  | nil => exact h
  | cons a xs ih =>
    obtain ⟨rfl, h⟩ := h
    exact ih h

/-- The loop that follows `next` to the first node that `p` accepts; no result when
`fuel` runs out before the list ends. -/
def chainFind (next : α → Option α) (p : α → Bool) : Nat → Option α → Option (Option α)
  | _, none => some none
  | 0, some _ => none
  | fuel + 1, some a => if p a then some (some a) else chainFind next p fuel (next a)

/-- With enough fuel the loop over a list that ends returns its first accepted node. -/
theorem Chain.find (h : Chain next head xs) {p : α → Bool} {fuel : Nat}
    (hf : xs.length ≤ fuel) : chainFind next p fuel head = some (xs.find? p) := by
  induction xs generalizing head fuel with
  | nil =>
    rw [chain_nil.mp h]
    cases fuel <;> rfl
  | cons a xs ih =>
    obtain ⟨rfl, h⟩ := h
    cases fuel with
    | zero => simp at hf
    | succ fuel =>
      cases hp : p a with
      | true => simp [chainFind, hp]
      | false =>
        simp only [chainFind, hp, Bool.false_eq_true, ↓reduceIte, List.find?_cons_of_neg,
          not_false_eq_true]
        exact ih h (by simpa using hf)

theorem Chain.found (h : Chain next head xs) {p : α → Bool} {fuel : Nat} {r : Option α}
    (ret : chainFind next p fuel head = some r) : r = xs.find? p := by
  induction xs generalizing head fuel with
  | nil =>
    rw [chain_nil.mp h] at ret
    cases fuel <;> exact (Option.some.inj ret).symm
  | cons a xs ih =>
    obtain ⟨rfl, h⟩ := h
    cases fuel with
    | zero => cases ret
    | succ fuel =>
      simp only [chainFind] at ret
      cases hp : p a with
      | true => simpa [hp, eq_comm] using ret
      | false =>
        rw [List.find?_cons_of_neg (by simp [hp])]
        exact ih h (by simpa [hp] using ret)

/-- The node that the loop returns lies behind the pointers it follows. -/
theorem chainFind_some {S : α → Prop} (step : ∀ a b, S a → next a = some b → S b)
    (start : ∀ a, head = some a → S a) {p : α → Bool} {fuel : Nat}
    (ret : chainFind next p fuel head = some (some b)) : S b ∧ p b = true := by
  induction fuel generalizing head with
  | zero => cases head <;> simp [chainFind] at ret
  | succ fuel ih =>
    cases head with
    | none => simp [chainFind] at ret
    | some a =>
      have ha := start a rfl
      simp only [chainFind] at ret
      split at ret
      · next accepted =>
        cases ret
        exact ⟨ha, accepted⟩
      · exact ih (fun b e => step a b ha e) ret

theorem chainFind_unique {p : α → Bool} {fuel fuel' : Nat} {r r' : Option α}
    (ret : chainFind next p fuel head = some r) (ret' : chainFind next p fuel' head = some r') :
    r = r' := by
  induction fuel generalizing head fuel' with
  | zero =>
    cases head with
    | none => cases fuel' <;> exact Option.some.inj (ret.symm.trans ret')
    | some a => cases ret
  | succ fuel ih =>
    cases head with
    | none => cases fuel' <;> exact Option.some.inj (ret.symm.trans ret')
    | some a =>
      cases fuel' with
      | zero => cases ret'
      | succ fuel' =>
        simp only [chainFind] at ret ret'
        cases hp : p a with
        | true =>
          simp only [hp, ↓reduceIte] at ret ret'
          exact Option.some.inj (ret.symm.trans ret')
        | false =>
          simp only [hp, Bool.false_eq_true, ↓reduceIte] at ret ret'
          exact ih ret ret'

theorem chainFind_walk {p : α → Bool} {fuel : Nat} {r : Option α}
    (ret : chainFind next p fuel head = some r) :
    ∃ n, (fun curr : Option α => curr.bind next)^[n] head = r := by
  induction fuel generalizing head with
  | zero =>
    cases head with
    | none => exact ⟨0, Option.some.inj ret⟩
    | some a => cases ret
  | succ fuel ih =>
    cases head with
    | none => exact ⟨0, Option.some.inj ret⟩
    | some a =>
      simp only [chainFind] at ret
      split at ret
      · exact ⟨0, Option.some.inj ret⟩
      · obtain ⟨n, walk⟩ := ih ret
        exact ⟨n + 1, walk⟩

/-- With fuel for the walk to the end the loop returns. -/
theorem chainFind_ends {p : α → Bool} {fuel n : Nat} (hn : n ≤ fuel)
    (walk : (fun curr : Option α => curr.bind next)^[n] head = none) :
    ∃ r, chainFind next p fuel head = some r := by
  induction n generalizing head fuel with
  | zero =>
    have hnone : head = none := walk
    subst hnone
    cases fuel <;> exact ⟨none, rfl⟩
  | succ n ih =>
    obtain ⟨fuel, rfl⟩ : ∃ m, fuel = m + 1 := ⟨fuel - 1, by omega⟩
    cases head with
    | none => exact ⟨none, rfl⟩
    | some a =>
      simp only [chainFind]
      split
      · exact ⟨some a, rfl⟩
      · exact ih (by omega) walk

theorem chainFind_reaches {p : α → Bool} {fuel n : Nat} (hn : n < fuel)
    (walk : (fun curr : Option α => curr.bind next)^[n] head = some a) (ha : p a = true) :
    ∃ b, chainFind next p fuel head = some (some b) := by
  induction n generalizing head fuel with
  | zero =>
    have first : head = some a := walk
    subst first
    obtain ⟨fuel, rfl⟩ : ∃ m, fuel = m + 1 := ⟨fuel - 1, by omega⟩
    exact ⟨a, by simp [chainFind, ha]⟩
  | succ n ih =>
    obtain ⟨fuel, rfl⟩ : ∃ m, fuel = m + 1 := ⟨fuel - 1, by omega⟩
    cases head with
    | none =>
      have stays (m : Nat) : (fun curr : Option α => curr.bind next)^[m] none = none := by
        induction m with
        | zero => rfl
        | succ m ih' => exact ih'
      cases (stays (n + 1)).symm.trans walk
    | some b =>
      simp only [chainFind]
      split
      · exact ⟨b, rfl⟩
      · exact ih (by omega) walk

/-- A loop round nodes that are all passed over never returns. -/
theorem chainFind_never {S : α → Prop} {p : α → Bool}
    (step : ∀ a, S a → p a = false ∧ ∃ b, next a = some b ∧ S b) (ha : S a) (fuel : Nat) :
    chainFind next p fuel (some a) = none := by
  induction fuel generalizing a with
  | zero => rfl
  | succ fuel ih =>
    obtain ⟨passed, b, hb, hs⟩ := step a ha
    simp only [chainFind, passed, Bool.false_eq_true, ↓reduceIte, hb]
    exact ih hs

/-- A walk inside a set of nodes that all have a successor in the set never ends. -/
theorem walk_never_ends {S : α → Prop} (step : ∀ a, S a → ∃ b, next a = some b ∧ S b) (ha : S a)
    (n : Nat) : ∃ b, (fun curr : Option α => curr.bind next)^[n] (some a) = some b ∧ S b := by
  induction n generalizing a with
  | zero => exact ⟨a, rfl, ha⟩
  | succ n ih =>
    obtain ⟨b, hb, hs⟩ := step a ha
    obtain ⟨c, hc, hs'⟩ := ih hs
    refine ⟨c, ?_, hs'⟩
    rw [Function.iterate_succ_apply, Option.bind_some, hb]
    exact hc

/-- The list from `head` ends, and visits exactly the nodes in `P`, each once. -/
def Holds (next : α → Option α) (head : Option α) (P : α → Prop) : Prop :=
  ∃ xs, Chain next head xs ∧ ∀ a, a ∈ xs ↔ P a

variable {P Q : α → Prop}

theorem holds_none (h : ∀ a, ¬ P a) : Holds next none P :=
  ⟨[], rfl, fun a => ⟨fun ha => by simp at ha, fun ha => absurd ha (h a)⟩⟩

theorem Holds.congr (h : Holds next head P) (same : ∀ a, P a → next' a = next a)
    (iff : ∀ a, P a ↔ Q a) : Holds next' head Q := by
  obtain ⟨xs, hc, hm⟩ := h
  exact ⟨xs, hc.congr fun a ha => same a ((hm a).mp ha), fun a => (hm a).trans (iff a)⟩

theorem Holds.head_mem (h : Holds next (some a) P) : P a := by
  obtain ⟨xs, hc, hm⟩ := h
  cases xs with
  | nil => cases hc
  | cons b xs =>
    cases hc.1
    exact (hm a).mp List.mem_cons_self

theorem Holds.push (h : Holds next head P) (link : next' a = head)
    (same : ∀ b, P b → next' b = next b) (iff : ∀ b, Q b ↔ b = a ∨ P b) :
    Holds next' (some a) Q := by
  obtain ⟨xs, hc, hm⟩ := h
  refine ⟨a :: xs, ⟨rfl, ?_⟩, ?_⟩
  · rw [link]
    exact hc.congr fun b hb => same b ((hm b).mp hb)
  · intro b
    rw [iff, List.mem_cons, hm]

theorem Holds.pop (h : Holds next (some a) P) (same : ∀ b, P b → b ≠ a → next' b = next b)
    (iff : ∀ b, Q b ↔ b ≠ a ∧ P b) : Holds next' (next a) Q := by
  obtain ⟨xs, hc, hm⟩ := h
  cases xs with
  | nil => cases hc
  | cons b xs =>
    have hn := hc.nodup
    obtain ⟨hb, hc⟩ := hc
    cases hb
    have away : ∀ b ∈ xs, b ≠ a := fun b hb e => (List.nodup_cons.mp hn).1 (e ▸ hb)
    refine ⟨xs, hc.congr fun b hb => same b ((hm b).mp (List.mem_cons_of_mem a hb)) (away b hb), ?_⟩
    intro b
    rw [iff, ← hm, List.mem_cons]
    constructor
    · exact fun hb => ⟨away b hb, Or.inr hb⟩
    · rintro ⟨hne, rfl | hb⟩
      · exact absurd rfl hne
      · exact hb

end

end LearnC
