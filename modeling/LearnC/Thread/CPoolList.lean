import LearnC.Thread.CPool

/-! What the sections under `queue_lock` do to the list. -/

namespace LearnC.Thread.CPool

namespace Pool

section
variable {p : Pool} {xs : List Addr} {a b : Addr} {w : CThreadWorker}

theorem node_ok (h : p.heap.lookup a = some w) : p.node a = .ok w := by simp [node, h]

theorem mem_lookup (h : a ∈ p.heap) : ∃ w, p.heap.lookup a = some w := Finmap.mem_iff.mp h

/-- Writing a link changes that link only. -/
theorem setNext_spec (next : Option Addr) (live : a ∈ p.heap) : ∃ p', p.setNext a next = .ok p' ∧
    p'.queueHead = p.queueHead ∧ p'.curQueueSize = p.curQueueSize ∧
    p'.shutdown = p.shutdown ∧ p'.next a = next ∧ (∀ b, b ≠ a → p'.next b = p.next b) ∧
    (∀ b, p'.task b = p.task b) ∧ ∀ b, b ∈ p'.heap ↔ b ∈ p.heap := by
  obtain ⟨w, hw⟩ := mem_lookup live
  have ret : p.setNext a next =
      .ok { p with heap := p.heap.insert a { w with next := next } } := by
    rw [setNext, node_ok hw]
    rfl
  refine ⟨_, ret, rfl, rfl, rfl, ?_, ?_, ?_, ?_⟩
  · simp [Pool.next]
  · intro b hb
    simp [Pool.next, Finmap.lookup_insert_of_ne _ hb]
  · intro b
    by_cases hb : b = a
    · subst hb
      simp [task, hw]
    · simp [task, Finmap.lookup_insert_of_ne _ hb]
  · intro b
    rw [Finmap.mem_insert]
    exact or_iff_right_of_imp fun e => e ▸ live

/-- The loop comes to the last member. -/
theorem last_eq {ys : List Addr} {fuel : Nat} (chain : Chain p.next (some a) (ys ++ [b]))
    (live : ∀ c ∈ ys ++ [b], c ∈ p.heap) (enough : (ys ++ [b]).length ≤ fuel) :
    p.last fuel a = .ok b := by
  induction ys generalizing a fuel with
  | nil =>
    obtain ⟨fuel, rfl⟩ := Nat.exists_eq_add_of_le' enough
    obtain ⟨w, hw⟩ := mem_lookup (live b List.mem_cons_self)
    obtain ⟨e, last⟩ := chain
    cases e
    have none : w.next = none := by simpa [Pool.next, hw] using last
    simp [Pool.last, node_ok hw, none, bind, Except.bind]
  | cons c ys ih =>
    obtain ⟨fuel, rfl⟩ := Nat.exists_eq_add_of_le' (Nat.le_trans (Nat.le_add_left 1 _) enough)
    obtain ⟨w, hw⟩ := mem_lookup (live c List.mem_cons_self)
    obtain ⟨e, rest⟩ := chain
    cases e
    obtain ⟨d, hd⟩ : ∃ d, p.next c = some d := by
      cases ys with
      | nil => exact ⟨b, rest.1⟩
      | cons d ys => exact ⟨d, rest.1⟩
    have some : w.next = some d := by simpa [Pool.next, hw] using hd
    have later := ih (hd ▸ rest) (fun e he => live e (List.mem_cons_of_mem c he))
      (Nat.le_of_succ_le_succ enough)
    simp [Pool.last, node_ok hw, some, bind, Except.bind, later]

/-- The list with a node behind the others, and nothing else changed but the counter. -/
structure Appended (p p' : Pool) (xs : List Addr) (a : Addr) : Prop where
  chain : Chain p'.next p'.queueHead (xs ++ [a])
  size : p'.curQueueSize = p.curQueueSize + 1
  shutdown : p'.shutdown = p.shutdown
  task : ∀ b, p'.task b = p.task b
  mem : ∀ b, b ∈ p'.heap ↔ b ∈ p.heap
  next : ∀ b, b ∉ xs → p'.next b = p.next b

theorem append_spec (chain : Chain p.next p.queueHead xs) (live : ∀ b ∈ xs, b ∈ p.heap)
    (out : a ∉ xs) (last : p.next a = none) :
    if p.curQueueSize + 1 < 2 ^ 31 then ∃ p', p.append a = .ok p' ∧ Appended p p' xs a
    else p.append a = .error .overflow := by
  have linked : ∃ p₁, p.link a = .ok p₁ ∧ Appended p { p₁ with
      curQueueSize := p.curQueueSize + 1 } xs a ∧ p₁.curQueueSize = p.curQueueSize ∧
      p₁.queueHead ≠ none := by
    rcases List.eq_nil_or_concat xs with rfl | ⟨ys, b, rfl⟩
    · have head : p.queueHead = none := chain
      refine ⟨{ p with queueHead := some a }, by simp [link, head], ?_, rfl, by simp⟩
      exact ⟨⟨rfl, last⟩, rfl, rfl, fun _ => rfl, fun _ => Iff.rfl, fun _ _ => rfl⟩
    · rw [List.concat_eq_append] at *
      obtain ⟨h, head⟩ : ∃ h, p.queueHead = some h := by
        cases ys with
        | nil => exact ⟨b, chain.1⟩
        | cons c ys => exact ⟨c, chain.1⟩
      have enough : (ys ++ [b]).length ≤ p.fuel := length_le_keys chain.nodup live
      have walked := last_eq (head ▸ chain) live enough
      obtain ⟨p₁, ret, same, size, shutdown, set, other, task, mem⟩ :=
        setNext_spec (some a) (live b (by simp))
      have apart : a ≠ b := fun e => out (e ▸ List.mem_append_right _ List.mem_cons_self)
      have new : Chain p₁.next p.queueHead (ys ++ [b, a]) := by
        apply chain.append_last set
        · rw [other a apart, last]
        · intro c hc
          apply other
          rintro rfl
          exact List.disjoint_of_nodup_append chain.nodup hc List.mem_cons_self
      refine ⟨p₁, ?_, ?_, size, by simp [same, head]⟩
      · simp only [link, head, walked, bind, Except.bind]
        exact ret
      · refine ⟨?_, rfl, shutdown, task, mem, ?_⟩
        · rw [List.append_assoc]
          exact same ▸ new
        · intro c hc
          apply other
          rintro rfl
          exact hc (List.mem_append_right _ List.mem_cons_self)
  obtain ⟨p₁, ret, done, size, head⟩ := linked
  have eq : p.append a = if p.curQueueSize + 1 < 2 ^ 31 then
      .ok { p₁ with curQueueSize := p.curQueueSize + 1 } else .error .overflow := by
    simp only [append, ret, bind, Except.bind, head, size, ↓reduceIte]
  rw [eq]
  split
  · exact ⟨_, rfl, done⟩
  · rfl

theorem take_spec (chain : Chain p.next p.queueHead (a :: xs)) (live : a ∈ p.heap)
    (size : p.curQueueSize ≠ 0) :
    p.take = .ok ({ p with curQueueSize := p.curQueueSize - 1, queueHead := p.next a }, a) := by
  obtain ⟨w, hw⟩ := mem_lookup live
  have link : p.next a = w.next := by simp [Pool.next, hw]
  simp only [take, size, ↓reduceIte, chain.1, node_ok hw, bind, Except.bind, link]

theorem free_spec (live : a ∈ p.heap) :
    p.free a = .ok { p with heap := p.heap.erase a } := by simp [free, live]

theorem drop_spec {t : Task} (live : a ∈ p.heap) (task : p.task a = some t) : p.drop a =
    .ok ({ p with heap := p.heap.erase a, queueHead := p.next a }, t) := by
  obtain ⟨w, hw⟩ := mem_lookup live
  have link : p.next a = w.next := by simp [Pool.next, hw]
  have same : w.task = t := by simpa [Pool.task, hw] using task
  simp [drop, node_ok hw, bind, Except.bind, free, live, link, same]

end

end Pool

end LearnC.Thread.CPool
