/-! Labelled transition systems: runs, invariants and runs under a condition. -/

namespace LearnC

section
variable {State State' Label : Type}

/-- A run: the labels of its steps in order and the state it ends in. -/
inductive Run (Step : State → Label → State → Prop) (start : State) : List Label → State → Prop
  | nil : Run Step start [] start
  | snoc {ls : List Label} {s t : State} {l : Label} :
      Run Step start ls s → Step s l t → Run Step start (ls ++ [l]) t

variable {Step : State → Label → State → Prop} {start s t : State} {ls ms : List Label}

/-- What holds at the start and is kept by every step holds throughout. -/
theorem Run.invariant {I : State → Prop} (init : I start)
    (keep : ∀ s l t, I s → Step s l t → I t) (h : Run Step start ls s) : I s := by
  induction h with
  | nil => exact init
  | snoc _ step ih => exact keep _ _ _ ih step

theorem Run.append (h : Run Step start ls s) (h' : Run Step s ms t) :
    Run Step start (ls ++ ms) t := by
  induction h' with
  | nil => simpa using h
  | snoc _ step ih => simpa using ih.snoc step

/-- Under `f` each step from a state with `J` is a step of the other system. -/
theorem Run.simulate {Step' : State' → Label → State' → Prop} {f : State → State'}
    {J : State → Prop} (init : J start)
    (sim : ∀ s l t, J s → Step s l t → Step' (f s) l (f t) ∧ J t) (h : Run Step start ls s) :
    Run Step' (f start) ls (f s) ∧ J s := by
  induction h with
  | nil => exact ⟨.nil, init⟩
  | snoc _ step ih =>
    obtain ⟨step', hj⟩ := sim _ _ _ ih.2 step
    exact ⟨ih.1.snoc step', hj⟩

/-- The calls of a list one after another, while each is answered. -/
def execute (call : State → Label → Option State) (s : State) : List Label → Option State
  | [] => some s
  | l :: ls => (call s l).bind fun s => execute call s ls

theorem execute_snoc {call : State → Label → Option State} {l : Label} :
    execute call s (ls ++ [l]) = (execute call s ls).bind fun t => call t l := by
  induction ls generalizing s with
  | nil => simp [execute]
  | cons first ls ih =>
    simp only [List.cons_append, execute, Option.bind_assoc]
    congr 1
    funext t
    exact ih

theorem execute_run {call : State → Label → Option State}
    (sound : ∀ s l t, call s l = some t → Step s l t) (h : execute call s ls = some t) :
    Run Step s ls t := by
  induction ls generalizing s with
  | nil =>
    cases h
    exact .nil
  | cons l ls ih =>
    obtain ⟨v, hv, h⟩ := Option.bind_eq_some_iff.mp h
    exact (Run.nil.snoc (sound _ _ _ hv)).append (ih h)

/-- The steps of a system that may also be started anew; `none` is the label of that. -/
def Cycle (Step : State → Label → State → Prop) (restart : State → Option State) :
    State → Option Label → State → Prop
  | s, some l, t => Step s l t
  | s, none, t => restart s = some t

theorem Run.cycle {restart : State → Option State} (h : Run Step start ls s) :
    Run (Cycle Step restart) start (ls.map some) s := by
  induction h with
  | nil => exact .nil
  | snoc _ step ih =>
    rw [List.map_append]
    exact ih.snoc step

/-- The steps taken from a state and label that meet `C`. -/
def When (C : State → Label → Prop) (Step : State → Label → State → Prop) :
    State → Label → State → Prop :=
  fun s l t => C s l ∧ Step s l t

theorem Run.of_when {C : State → Label → Prop} (h : Run (When C Step) start ls s) :
    Run Step start ls s := by
  induction h with
  | nil => exact .nil
  | snoc _ step ih => exact ih.snoc step.2

theorem Run.when_labels {C : Label → Prop} (h : Run Step start ls s) (all : ∀ l ∈ ls, C l) :
    Run (When (fun _ => C) Step) start ls s := by
  induction h with
  | nil => exact .nil
  | snoc _ step ih =>
    rw [List.forall_mem_append] at all
    exact (ih all.1).snoc ⟨all.2 _ (List.mem_singleton_self _), step⟩

/-- The steps that end in a state with `I`. -/
def Into (I : State → Prop) (Step : State → Label → State → Prop) : State → Label → State → Prop :=
  fun s l t => Step s l t ∧ I t

theorem run_when_invariant {C : State → Label → Prop} {I : State → Prop} (init : I start)
    (keep : ∀ s l t, I s → C s l → Step s l t → I t) (h : Run (When C Step) start ls s) : I s :=
  h.invariant init fun s l t hs step => keep s l t hs step.1 step.2

/-- The runs through states with `I` only are the runs all of whose steps meet `C`,
where `K` holds at the start, is kept by the steps that meet `C`, and lets no other
step end in a state with `I`. -/
theorem run_when_iff_kept {C : State → Label → Prop} {I K : State → Prop} (init : K start)
    (keep : ∀ s l t, K s → Step s l t → C s l → K t ∧ I t)
    (meet : ∀ s l t, K s → Step s l t → I t → C s l) :
    Run (When C Step) start ls s ↔ Run (Into I Step) start ls s := by
  constructor
  · intro h
    induction h with
    | nil => exact .nil
    | snoc run step ih =>
      have hk := run_when_invariant init (fun s l t hs hc st => (keep s l t hs st hc).1) run
      exact ih.snoc ⟨step.2, (keep _ _ _ hk step.2 step.1).2⟩
  · intro h
    induction h with
    | nil => exact .nil
    | snoc run step ih =>
      have hk := run.invariant init fun s l t hs st =>
        (keep s l t hs st.1 (meet s l t hs st.1 st.2)).1
      exact ih.snoc ⟨meet _ _ _ hk step.1 step.2, step.1⟩

/-- Where a step keeps `I` exactly when it meets `C`, given what holds in every
run, the runs through states with `I` only are the runs all of whose steps meet `C`. -/
theorem run_when_iff_into {C : State → Label → Prop} {I J : State → Prop} (initJ : J start)
    (keepJ : ∀ s l t, J s → Step s l t → J t) (initI : I start)
    (iff : ∀ s l t, J s → I s → Step s l t → (C s l ↔ I t)) :
    Run (When C Step) start ls s ↔ Run (Into I Step) start ls s := by
  apply run_when_iff_kept (K := fun s => J s ∧ I s)
  · exact ⟨initJ, initI⟩
  · intro s l t hs step hc
    have hi := (iff s l t hs.1 hs.2 step).mp hc
    exact ⟨⟨keepJ s l t hs.1 step, hi⟩, hi⟩
  · intro s l t hs step
    exact (iff s l t hs.1 hs.2 step).mpr

end

theorem concat_split {Event : Type} {log before behind : List Event} {e x : Event}
    (eq : log ++ [e] = before ++ x :: behind) : log = before ∧ e = x ∧ behind = [] ∨
      ∃ front, log = before ++ x :: front ∧ behind = front ++ [e] := by
  rcases List.eq_nil_or_concat behind with rfl | ⟨front, last, rfl⟩
  · obtain ⟨same, last⟩ := List.append_inj' eq rfl
    exact Or.inl ⟨same, (List.cons.inj last).1, rfl⟩
  · rw [List.concat_eq_append] at eq ⊢
    rw [← List.cons_append, ← List.append_assoc] at eq
    obtain ⟨same, last⟩ := List.append_inj' eq rfl
    exact Or.inr ⟨front, same, by rw [(List.cons.inj last).1]⟩

end LearnC
