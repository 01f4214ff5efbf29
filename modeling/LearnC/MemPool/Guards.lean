import LearnC.MemPool.Upgrade

/-! When a free reports a corrupted block: what the owner wrote over the tail
guard, and what the protection switch was when the block was handed out. -/

namespace LearnC.MemPool

/-- The owner's last stores leave the eight bytes that end the rounded size as the
tail guard has them. -/
def Request.Spares (q : Request) : Prop :=
  ∀ k b, k < sizeofGuard → q.written (roundUp classSizes q.size - sizeofGuard + k) = some b →
    tailMagic[k]? = some b

def Reports {S : Type} (ptr : Addr) (r : Except Stop S) : Prop :=
  ∃ label, r = .error (.underrun ptr label) ∨ r = .error (.overflow ptr label)

section
variable {s : Pool} {owner : Addr → Option Request} {loc : Addr → Loc Unit} {a p : Addr}
  {q : Request} {garbage : Addr → MemBlk} {ops : List Op}

theorem reports_map {S S' : Type} {f : S → S'} {r : Except Stop S} :
    Reports p (r.map f) ↔ Reports p r := by
  cases r <;> simp [Reports, Except.map]

theorem Request.spares_iff :
    q.Spares ↔ ∀ k, k < sizeofGuard → q.tailByte k = tailMagic[k]? := by
  constructor
  · intro spares k hk
    cases h : q.written (roundUp classSizes q.size - sizeofGuard + k) with
    | none => simp [Request.tailByte, h]
    | some b => simp [Request.tailByte, h, spares k b hk h]
  · intro all k b hk h
    have := all k hk
    simp only [Request.tailByte, h] at this
    exact this.symm

theorem guarded_iff (made : Made s a) (kept : Kept s a q) :
    Guarded s a ↔ q.protect = true ∧ q.Spares := by
  have tail : s.mem.load a (Pool.tailOffset (s.hdr a).size) sizeofGuard = some tailMagic ↔
      ∀ k, k < sizeofGuard →
        s.mem.byte a (Pool.tailOffset (s.hdr a).size + k) = tailMagic[k]? := by
    have inside : s.mem.Inside a (Pool.tailOffset (s.hdr a).size) tailMagic.length :=
      made.tail_inside
    exact Memory.load_eq_iff inside
  rw [Guarded, tail, kept.head]
  cases on : q.protect with
  | false => simp [protectMagic]
  | true =>
    rw [Request.spares_iff]
    simp only [↓reduceIte, true_and]
    exact forall_congr' fun k => imp_congr_right fun hk => by rw [kept.tail on k hk]

theorem Agrees.free_iff (A : Agrees s owner loc) (out : owner p = some q) :
    ((∃ s', s.memPoolFree (some p) = .ok s') ↔
      (s.protectMode = true → q.protect = true ∧ q.Spares)) ∧
    (Reports p (s.memPoolFree (some p)) ↔
      ¬ (s.protectMode = true → q.protect = true ∧ q.Spares)) := by
  obtain ⟨a, rfl, ha, kept⟩ := A.active out
  have guarded := guarded_iff (A.layout.inUse a ha).1 kept
  rw [← guarded]
  by_cases guards : s.protectMode = true → Guarded s a
  · obtain ⟨s', ret, _⟩ := A.free ha guards
    rw [ret]
    simpa [Reports] using guards
  · obtain ⟨on, broken⟩ := Classical.not_imp.mp guards
    rcases A.abort ha on broken with ret | ret
    · rw [ret]
      simp [on, broken, Reports]
    · rw [ret]
      simp [on, broken, Reports]

/-- Protection is on and every outstanding block was handed out under it. -/
def Protected (w : World Pool) : Prop :=
  w.state.protectMode = true ∧ ∀ p q, w.owner p = some q → q.protect = true

theorem step_protected {w w' : World Pool} {op : Op} (A : Agrees w.state w.owner loc)
    (h : Protected w) (fixed : op.switches = false) (step : Step server w op w') :
    Protected w' := by
  refine ⟨((step_follows A step).mode fixed).trans h.1, ?_⟩
  intro p q hq
  cases step with
  | @alloc size label env s ptr =>
    by_cases hp : p = ptr
    · subst hp
      simp only [Function.update_self, Option.some.injEq] at hq
      subst hq
      exact h.1
    · exact h.2 p q (by simpa [hp] using hq)
  | @free ptr =>
    by_cases hp : p = ptr
    · subst hp
      simp at hq
    · exact h.2 p q (by simpa [hp] using hq)
  | @write ptr q' off byte s out =>
    by_cases hp : p = ptr
    · subst hp
      simp only [Function.update_self, Option.some.injEq] at hq
      subst hq
      exact h.2 p q' out
    · exact h.2 p q (by simpa [hp] using hq)
  | setProtection => cases fixed
  | allocNull | freeNull | setDebug => exact h.2 p q hq

def Fixed {S : Type} (prog : Program S) : World S → Op → World S → Prop :=
  When (fun _ op => op.switches = false) (Step prog)

theorem run_protected {w : World Pool}
    (run : Run (Fixed server) (World.start (Pool.memPoolInit garbage)) ops w) :
    (∃ loc, Agrees w.state w.owner loc) ∧ Protected w := by
  apply run.invariant (I := fun w => (∃ loc, Agrees w.state w.owner loc) ∧ Protected w)
  · exact ⟨⟨_, start_agrees⟩, rfl, by simp [World.start]⟩
  · rintro w op w' ⟨⟨_, A⟩, h⟩ ⟨fixed, step⟩
    exact ⟨(step_follows A step).agrees, step_protected A h fixed step⟩

/-- With the protection left on, a free of an outstanding pointer reports a
corrupted block exactly when its owner changed the bytes that end the rounded
size: the guard stands in them, and they belong to the owner where the request
comes within eight bytes of its class, or is above every class. -/
theorem free_reports_iff (garbage : Addr → MemBlk) (ops : List Op) :
    (∀ w, Run (Fixed server) (World.start (Pool.memPoolInit garbage)) ops w →
      ∀ p q, w.owner p = some q → (¬ Reports p (w.state.memPoolFree (some p)) ↔ q.Spares)) ∧
    (∀ w, Run (Fixed upgrade) (World.start (.memPoolInit (.static garbage))) ops w →
      ∀ p q, w.owner p = some q → (¬ Reports p (w.state.memPoolFree (some p)) ↔ q.Spares)) := by
  have onServer : ∀ w, Run (Fixed server) (World.start (Pool.memPoolInit garbage)) ops w →
      ∀ p q, w.owner p = some q → (¬ Reports p (w.state.memPoolFree (some p)) ↔ q.Spares) := by
    intro w run p q out
    obtain ⟨⟨_, A⟩, on, protect⟩ := run_protected run
    rw [(A.free_iff out).2, on, protect p q out]
    simp
  refine ⟨onServer, ?_⟩
  intro w run p q out
  obtain ⟨run', twin⟩ := upgrade_run run
  obtain ⟨⟨_, A⟩, _⟩ := run_protected run'
  rw [memPoolFree_eq twin A out, reports_map]
  exact onServer _ run' p q out

/-- One byte written to the 8 bytes asked for: the guard stood in them. -/
theorem first_byte_reported : ∃ w,
    Run (Fixed server) (World.start (Pool.memPoolInit fun _ => blank))
      [.alloc 8 none (fresh 4096), .write 4312 0 0x41] w ∧
    (w.owner 4312).isSome ∧ Reports 4312 (w.state.memPoolFree (some 4312)) :=
  ⟨World.after [.alloc 8 none (fresh 4096), .write 4312 0 0x41],
    (after_run (by decide)).when_labels (by decide), by decide,
    Pool.unknownLabel, Or.inr (stops_with (by decide))⟩

theorem untouched_block_returns :
    ¬ Reports 4312 ((World.after [.alloc 8 none (fresh 4096)]).state.memPoolFree (some 4312)) :=
  ((free_reports_iff (fun _ => blank) [.alloc 8 none (fresh 4096)]).1 _
    ((after_run (by decide)).when_labels (by decide)) 4312 ⟨8, true, fun _ => none⟩ rfl).mpr
    (by intro k b _ h; cases h)

/-- A free of an outstanding block returns exactly when the protection is off, or was on
as the block was handed out: a guard that was written then is taken to be spared. -/
theorem free_returns_iff (garbage : Addr → MemBlk) (ops : List Op) (w : World Pool)
    (run : Run (Step server) (World.start (Pool.memPoolInit garbage)) ops w) (p : Addr)
    (q : Request) (out : w.owner p = some q) (spares : q.protect = true → q.Spares) :
    (∃ s, w.state.memPoolFree (some p) = .ok s) ↔
      (w.state.protectMode = true → q.protect = true) := by
  obtain ⟨_, A⟩ := run_agrees run
  rw [(A.free_iff out).1]
  exact imp_congr_right fun _ => ⟨And.left, fun guarded => ⟨guarded, spares guarded⟩⟩

/-- Handed out with the protection off and freed with it on: nobody wrote anything. -/
theorem switched_on_reported : ∃ w,
    Run (Step server) (World.start (Pool.memPoolInit fun _ => blank))
      [.setProtection 0, .alloc 8 none (fresh 4096), .setProtection 1] w ∧
    (∃ q, w.owner 4312 = some q ∧ q.Spares) ∧
    w.state.memPoolFree (some 4312) = .error (.underrun 4312 Pool.unknownLabel) :=
  ⟨World.after [.setProtection 0, .alloc 8 none (fresh 4096), .setProtection 1],
    after_run (by decide), ⟨_, rfl, by intro k b _ h; cases h⟩,
    stops_with (by decide)⟩

/-- A block handed out with the protection off, its last byte written, and freed. -/
theorem switched_off_returns : ∃ s,
    (World.after [.setProtection 0, .alloc 32 none (fresh 4096),
      .write 4312 31 0x41]).state.memPoolFree (some 4312) = .ok s :=
  (free_returns_iff (fun _ => blank) _ _ (after_run (by decide)) 4312
    ⟨32, false, Function.update (fun _ => none) 31 (some 0x41)⟩ rfl nofun).mpr (by decide)

end

end LearnC.MemPool
