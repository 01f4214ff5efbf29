import Mathlib.Data.List.Nodup
import Mathlib.Logic.Function.Basic

/-! What becomes of tasks: submitted by one of several callers, put into one queue, and
from there taken by one of several workers and executed, or discarded. -/

namespace LearnC

/-- What has happened to tasks, each list in the order of the events. -/
structure TaskLog (α : Type) where
  submitted : List α
  enqueued : List α
  dequeued : List α
  executed : List α
  discarded : List α

namespace TaskLog

variable {α : Type}

def empty : TaskLog α := ⟨[], [], [], [], []⟩

def submit (log : TaskLog α) (t : α) : TaskLog α := { log with submitted := log.submitted ++ [t] }
def enqueue (log : TaskLog α) (t : α) : TaskLog α := { log with enqueued := log.enqueued ++ [t] }
def dequeue (log : TaskLog α) (t : α) : TaskLog α := { log with dequeued := log.dequeued ++ [t] }
def execute (log : TaskLog α) (t : α) : TaskLog α := { log with executed := log.executed ++ [t] }
def discard (log : TaskLog α) (t : α) : TaskLog α := { log with discarded := log.discarded ++ [t] }

end TaskLog

/-- The entries of `before` come to `after` one by one, and those that have not yet come
are held, each by one holder. -/
structure Between {H α : Type} (holds : H → Option α) (before after : List α) : Prop where
  once : after.Nodup
  sub : ∀ t ∈ after, t ∈ before
  held : ∀ h t, holds h = some t → t ∈ before ∧ t ∉ after
  one : ∀ h h' t, holds h = some t → holds h' = some t → h = h'
  all : ∀ t ∈ before, t ∈ after ∨ ∃ h, holds h = some t

theorem nodup_concat {α : Type} {xs : List α} {t : α} (nodup : xs.Nodup) (new : t ∉ xs) :
    (xs ++ [t]).Nodup := by
  rw [← List.concat_eq_append]
  exact nodup.concat new

namespace Between

section
variable {H α : Type} {holds : H → Option α} {before after : List α} {h : H} {t : α}

theorem start : Between (fun _ : H => (none : Option α)) [] [] := by
  constructor <;> simp

variable [DecidableEq H]

theorem enter (B : Between holds before after) (idle : holds h = none) (new : t ∉ before) :
    Between (Function.update holds h (some t)) (before ++ [t]) after := by
  constructor
  · exact B.once
  · exact fun u hu => List.mem_append_left _ (B.sub u hu)
  · intro h' u hu
    simp only [Function.update_apply] at hu
    split at hu
    · cases hu
      exact ⟨List.mem_append_right _ List.mem_cons_self, fun ha => new (B.sub t ha)⟩
    · exact ⟨List.mem_append_left _ (B.held h' u hu).1, (B.held h' u hu).2⟩
  · intro h₁ h₂ u hu₁ hu₂
    simp only [Function.update_apply] at hu₁ hu₂
    split at hu₁ <;> split at hu₂
    · simp_all
    · cases hu₁
      exact absurd (B.held h₂ t hu₂).1 new
    · cases hu₂
      exact absurd (B.held h₁ t hu₁).1 new
    · exact B.one h₁ h₂ u hu₁ hu₂
  · intro u hu
    rcases List.mem_append.mp hu with hu | hu
    · rcases B.all u hu with ha | ⟨h', hh⟩
      · exact .inl ha
      · have ne : h' ≠ h := by
          rintro rfl
          cases idle.symm.trans hh
        exact .inr ⟨h', (Function.update_of_ne ne ..).trans hh⟩
    · rw [List.mem_singleton] at hu
      exact .inr ⟨h, hu ▸ Function.update_self ..⟩

theorem leave (B : Between holds before after) (has : holds h = some t) :
    Between (Function.update holds h none) before (after ++ [t]) := by
  obtain ⟨mem, new⟩ := B.held h t has
  constructor
  · exact nodup_concat B.once new
  · intro u hu
    rcases List.mem_append.mp hu with hu | hu
    · exact B.sub u hu
    · rw [List.mem_singleton] at hu
      exact hu ▸ mem
  · intro h' u hu
    simp only [Function.update_apply] at hu
    split at hu
    · cases hu
    · next ne =>
      refine ⟨(B.held h' u hu).1, ?_⟩
      rw [List.mem_append, List.mem_singleton]
      rintro (ha | rfl)
      · exact (B.held h' u hu).2 ha
      · exact ne (B.one h' h u hu has)
  · intro h₁ h₂ u hu₁ hu₂
    simp only [Function.update_apply] at hu₁ hu₂
    split at hu₁ <;> split at hu₂ <;> first | cases hu₁ | cases hu₂ | exact B.one h₁ h₂ u hu₁ hu₂
  · intro u hu
    rcases B.all u hu with ha | ⟨h', hh⟩
    · exact .inl (List.mem_append_left _ ha)
    · by_cases eq : h' = h
      · subst eq
        cases has.symm.trans hh
        exact .inl (List.mem_append_right _ List.mem_cons_self)
      · exact .inr ⟨h', (Function.update_of_ne eq ..).trans hh⟩

end

/-- With nothing held everything has come. -/
theorem settled {H α : Type} {holds : H → Option α} {before after : List α}
    (B : Between holds before after) (none : ∀ h, holds h = none) :
    ∀ t ∈ before, t ∈ after := by
  intro t ht
  rcases B.all t ht with ha | ⟨h, hh⟩
  · exact ha
  · rw [none] at hh
    cases hh

end Between

/-- Besides the log: the task that a caller has not yet put into the queue, the queue, and
the task that a worker has not yet executed. -/
@[ext] structure TaskQueue (C W α : Type) where
  log : TaskLog α
  pending : C → Option α
  queue : List α
  taken : W → Option α

namespace TaskQueue

section
variable {C W α : Type} {g g' : TaskQueue C W α}

/-- What may happen to a task. Nothing is dequeued once the queue is being discarded. -/
inductive Move [DecidableEq C] [DecidableEq W] (g : TaskQueue C W α) : TaskQueue C W α → Prop
  | submit {c : C} {t : α} (idle : g.pending c = none) (new : t ∉ g.log.submitted) :
      Move g { g with log := g.log.submit t, pending := Function.update g.pending c (some t) }
  | enqueue {c : C} {t : α} (has : g.pending c = some t) :
      Move g { g with
        log := g.log.enqueue t
        pending := Function.update g.pending c none
        queue := g.queue ++ [t] }
  | dequeue {w : W} {t : α} {rest : List α} (first : g.queue = t :: rest)
      (idle : g.taken w = none) (kept : g.log.discarded = []) :
      Move g { g with
        log := g.log.dequeue t
        queue := rest
        taken := Function.update g.taken w (some t) }
  | execute {w : W} {t : α} (has : g.taken w = some t) :
      Move g { g with log := g.log.execute t, taken := Function.update g.taken w none }
  | discard {t : α} {rest : List α} (first : g.queue = t :: rest) :
      Move g { g with log := g.log.discard t, queue := rest }

/-- Each task is in one place, and has come to it by one way. -/
structure Valid (g : TaskQueue C W α) : Prop where
  distinct : g.log.submitted.Nodup
  entering : Between g.pending g.log.submitted g.log.enqueued
  order : g.log.enqueued = g.log.dequeued ++ g.log.discarded ++ g.queue
  serving : Between g.taken g.log.dequeued g.log.executed

theorem valid_start : Valid (⟨.empty, fun _ => none, [], fun _ => none⟩ : TaskQueue C W α) :=
  ⟨List.nodup_nil, .start, rfl, .start⟩

theorem Valid.move [DecidableEq C] [DecidableEq W] (V : Valid g) (move : Move g g') :
    Valid g' := by
  obtain ⟨distinct, entering, order, serving⟩ := V
  cases move with
  | submit idle new => exact ⟨nodup_concat distinct new, entering.enter idle new, order, serving⟩
  | enqueue has =>
    refine ⟨distinct, entering.leave has, ?_, serving⟩
    simp [TaskLog.enqueue, order]
  | dequeue first idle kept =>
    rw [first, kept, List.append_nil] at order
    refine ⟨distinct, entering, ?_, serving.enter idle ?_⟩
    · simp [TaskLog.dequeue, order, kept]
    · have once := entering.once
      rw [order] at once
      exact fun h => List.disjoint_of_nodup_append once h List.mem_cons_self
  | execute has => exact ⟨distinct, entering, order, serving.leave has⟩
  | discard first =>
    refine ⟨distinct, entering, ?_, serving⟩
    simp [TaskLog.discard, order, first]

/-- Tasks are dequeued in the order in which they were enqueued. -/
theorem Valid.fifo (V : Valid g) : g.log.dequeued <+: g.log.enqueued :=
  ⟨g.log.discarded ++ g.queue, by rw [V.order, List.append_assoc]⟩

/-- No task is executed twice, discarded twice, or both. -/
theorem Valid.once (V : Valid g) : (g.log.executed ++ g.log.discarded).Nodup := by
  have once := V.entering.once
  rw [V.order] at once
  obtain ⟨_, discarded, apart⟩ := List.nodup_append.mp (List.nodup_append.mp once).1
  exact List.nodup_append.mpr ⟨V.serving.once, discarded, fun t ht => apart t (V.serving.sub t ht)⟩

/-- With nothing pending, nothing taken and the queue empty, each task has been executed
once or discarded once. -/
theorem Valid.settled [DecidableEq α] (V : Valid g) (none : ∀ c, g.pending c = none)
    (empty : g.queue = []) (idle : ∀ w, g.taken w = Option.none) :
    ∀ t ∈ g.log.submitted, g.log.executed.count t + g.log.discarded.count t = 1 := by
  intro t ht
  have entered := V.entering.settled none t ht
  have once := V.entering.once
  rw [V.order, empty, List.append_nil] at entered once
  have apart := List.disjoint_of_nodup_append once
  rcases List.mem_append.mp entered with out | out
  · rw [List.count_eq_one_of_mem V.serving.once (V.serving.settled idle t out),
      List.count_eq_zero_of_not_mem (apart out)]
  · have not : t ∉ g.log.executed := fun h => apart (V.serving.sub t h) out
    rw [List.count_eq_zero_of_not_mem not,
      List.count_eq_one_of_mem (List.nodup_append.mp once).2.1 out]

end

end TaskQueue

end LearnC
