import LearnC.Machine.Memory

/-! Objects that own one live buffer each, and all the live buffers between them. -/

namespace LearnC

section
variable {α : Type} {m m' : Memory} {base base' : α → Option Addr} {b : α} {a : Addr}

/-- `base` gives each object the address of its buffer. -/
structure Owns (m : Memory) (base : α → Option Addr) : Prop where
  live : ∀ b a, base b = some a → a ∈ m
  one : ∀ b c a, base b = some a → base c = some a → b = c
  all : ∀ a, a ∈ m → ∃ b, base b = some a

theorem Owns.congr (h : Owns m base) (mem : ∀ a, a ∈ m' ↔ a ∈ m) (same : ∀ b, base' b = base b) :
    Owns m' base' := by
  constructor
  · intro b a hb
    rw [mem]
    exact h.live b a (same b ▸ hb)
  · intro b c a hb hc
    exact h.one b c a (same b ▸ hb) (same c ▸ hc)
  · intro a ha
    obtain ⟨b, hb⟩ := h.all a ((mem a).mp ha)
    exact ⟨b, (same b).trans hb⟩

/-- A new buffer for an object that had none. -/
theorem Owns.malloc (h : Owns m base) (new : a ∉ m) (own : base' b = some a)
    (none : base b = none) (same : ∀ c, c ≠ b → base' c = base c)
    (mem : ∀ c, c ∈ m' ↔ c = a ∨ c ∈ m) : Owns m' base' := by
  have other {c : α} {e : Addr} (hc : base' c = some e) (ne : c ≠ b) : base c = some e :=
    same c ne ▸ hc
  constructor
  · intro c e hc
    rw [mem]
    by_cases ne : c = b
    · subst ne
      exact Or.inl (Option.some.inj (hc.symm.trans own))
    · exact Or.inr (h.live c e (other hc ne))
  · intro c d e hc hd
    by_cases nc : c = b <;> by_cases nd : d = b
    · rw [nc, nd]
    · subst nc
      cases own.symm.trans hc
      exact absurd (h.live d a (other hd nd)) new
    · subst nd
      cases own.symm.trans hd
      exact absurd (h.live c a (other hc nc)) new
    · exact h.one c d e (other hc nc) (other hd nd)
  · intro e he
    rcases (mem e).mp he with rfl | he
    · exact ⟨b, own⟩
    · obtain ⟨c, hc⟩ := h.all e he
      have ne : c ≠ b := by
        rintro rfl
        cases none.symm.trans hc
      exact ⟨c, (same c ne).trans hc⟩

/-- An object goes, and its buffer with it. -/
theorem Owns.free (h : Owns m base) (own : base b = some a) (gone : base' b = none)
    (same : ∀ c, c ≠ b → base' c = base c) (mem : ∀ c, c ∈ m' ↔ c ≠ a ∧ c ∈ m) :
    Owns m' base' := by
  have other {c : α} {e : Addr} (hc : base' c = some e) : c ≠ b ∧ base c = some e := by
    have ne : c ≠ b := by
      rintro rfl
      cases gone.symm.trans hc
    exact ⟨ne, same c ne ▸ hc⟩
  constructor
  · intro c e hc
    obtain ⟨ne, hc⟩ := other hc
    refine (mem e).mpr ⟨?_, h.live c e hc⟩
    rintro rfl
    exact ne (h.one c b e hc own)
  · intro c d e hc hd
    exact h.one c d e (other hc).2 (other hd).2
  · intro e he
    obtain ⟨ne, he⟩ := (mem e).mp he
    obtain ⟨c, hc⟩ := h.all e he
    have nb : c ≠ b := by
      rintro rfl
      exact ne (Option.some.inj (hc.symm.trans own))
    exact ⟨c, (same c nb).trans hc⟩

end

end LearnC
