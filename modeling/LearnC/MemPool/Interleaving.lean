import LearnC.MemPool.Guards
import LearnC.MemPool.Threads

/-! What the threads and the pool agree on, kept by every step of every thread. -/

namespace LearnC.MemPool.Threads

/-- What a thread knows of the block it is working on. -/
def Order.Fits (o : Order) : Prop :=
  o.actual = roundUp classSizes o.size ∧ sizeofMemBlk + o.actual ≤ o.total

def Asked (size : Nat) : Request := ⟨size, true, fun _ => none⟩

theorem asked_spares (size : Nat) : (Asked size).Spares := by
  intro k b _ h
  cases h

def Knows (s : Pool) : Pc → Prop
  | .idle => True
  | .chosen i o => o.Fits ∧ classOf classSizes o.size = some i
  | .dry o => o.Fits
  | .raw a o => o.Fits ∧ s.mem.Inside a 0 (sizeofMemBlk + o.actual)
  | .ready a o => Made s a ∧ (s.hdr a).freed = false ∧ Kept s a (Asked o.size)
  | .freeing _ _ => True
  | .unlinked a => Made s a ∧ (s.hdr a).freed = true

theorem enter_knows {s : Pool} (sizes : s.blockSizes = classSizes) {size : Nat}
    (fits : sizeofMemBlk + size + sizeofGuard < 2 ^ 64) (label : Option (List UInt8)) :
    (enter s size label).holds = none ∧ (enter s size label).begun = [] ∧
      Knows s (enter s size label) := by
  have actual := actualSize_eq sizes size
  have total : sizeofMemBlk + roundUp classSizes size ≤
      s.totalSize (roundUp classSizes size) := by
    apply totalSize_le
    unfold Pool.Fits
    split <;> omega
  unfold enter
  rw [findSlabIndex_eq sizes]
  cases cls : classOf classSizes size with
  | none => exact ⟨rfl, rfl, cls ▸ actual, by simpa [cls ▸ actual] using total⟩
  | some i => exact ⟨rfl, rfl, ⟨cls ▸ actual, by simpa [cls ▸ actual] using total⟩, cls⟩

section
variable {T : Type}

/-- The threads and the pool agree on where the blocks are and on whose they are. -/
structure Inv (σ : Sys T) (loc : Addr → Loc T) : Prop where
  layout : Layout σ.pool loc
  mode : σ.pool.protectMode = true
  held : ∀ t a, loc a = .held t ↔ (σ.pc t).holds = some a
  knows : ∀ t, Knows σ.pool (σ.pc t)
  owned : ∀ t p n, (p, n) ∈ σ.has t →
    ∃ a, p = a + sizeofMemBlk ∧ loc a = .active ∧ Kept σ.pool a (Asked n)
  active : ∀ a, loc a = .active → ∃ t n, (a + sizeofMemBlk, n) ∈ σ.has t
  once : ∀ t, ((σ.has t).map Prod.fst).Nodup
  apart : ∀ t t' p n n', (p, n) ∈ σ.has t → (p, n') ∈ σ.has t' → t = t'

theorem Knows.of_view {s s' : Pool} {pc : Pc} (k : Knows s pc)
    (same : ∀ a, pc.holds = some a → s'.view a = s.view a) : Knows s' pc := by
  cases pc with
  | raw a o =>
    have look := (view_fields (same a rfl)).2.2.2.2
    exact ⟨k.1, (inside_of_lookup look).mpr k.2⟩
  | ready a o =>
    have freed := (view_fields (same a rfl)).2.1
    exact ⟨k.1.of_view (same a rfl), freed.trans k.2.1, k.2.2.of_view (same a rfl)⟩
  | unlinked a =>
    have freed := (view_fields (same a rfl)).2.1
    exact ⟨k.1.of_view (same a rfl), freed.trans k.2⟩
  | _ => exact k

theorem start_inv {garbage : Addr → MemBlk} {debug : Int} :
    Inv (start (T := T) garbage debug) fun _ => .gone := by
  have L : Layout (start (T := T) garbage debug).pool fun _ => (.gone : Loc T) :=
    (init_layout garbage).switched (debug != 0) true
  constructor
  · exact L
  all_goals simp [start, Pc.holds, Knows, Sys.has, Pc.begun, Pool.memPoolSetDebug, Pool.memPoolInit]

theorem Inv.partition {σ : Sys T} {loc : Addr → Loc T} (I : Inv σ loc) : Partition σ loc := by
  constructor
  · exact I.layout.live
  · obtain ⟨xs, chain, hxs⟩ := I.layout.active
    exact ⟨xs, chain, chain.nodup, hxs⟩
  · intro i
    obtain ⟨xs, chain, hxs⟩ := I.layout.slab i
    exact ⟨xs, chain, chain.nodup, hxs⟩
  · exact fun t a => (I.held t a).symm
  · intro a
    constructor
    · exact I.active a
    · rintro ⟨t, n, hp⟩
      obtain ⟨b, e, hb, _⟩ := I.owned t _ n hp
      exact Nat.add_right_cancel e ▸ hb
  · exact I.once
  · exact I.apart

theorem Inv.settled {σ : Sys T} {loc : Addr → Loc T} (I : Inv σ loc) (quiet : σ.Quiet) :
    Settled σ := by
  have has (t : T) : σ.has t = σ.owned t := by simp [Sys.has, quiet t, Pc.begun]
  have settled (a : Addr) (t : T) : loc a ≠ .held t := by
    intro h
    have := (I.held t a).mp h
    simp [quiet t, Pc.holds] at this
  constructor
  · obtain ⟨xs, chain, hxs, stats⟩ := dumpStats_spec I.layout
    refine ⟨xs, chain, chain.nodup, ?_, stats⟩
    intro a
    rw [hxs, I.partition.owned]
    simp only [has]
  · intro t p n hp
    obtain ⟨a, rfl, _, kept⟩ := I.owned t p n (has t ▸ hp)
    exact ⟨a, rfl, kept.size⟩
  · intro a ha
    cases h : loc a with
    | gone => exact absurd h ((I.layout.live a).mp ha)
    | active => exact (I.layout.inUse a h).1.self
    | slab i => exact (I.layout.idle a i h).1.self
    | held t => exact absurd h (settled a t)
  · obtain ⟨s, freed, leaks, ret, nodup, all, _⟩ := memPoolDestroy_spec I.layout settled
    exact ⟨s, freed, leaks, ret, nodup, all⟩

/-- A step of thread `t` that touches no block. -/
theorem Inv.turn {σ σ' : Sys T} {loc : Addr → Loc T} (I : Inv σ loc) (t : T)
    (pool : σ'.pool = σ.pool) (other : ∀ t', t' ≠ t → σ'.pc t' = σ.pc t' ∧ σ'.owned t' = σ.owned t')
    (before : (σ.pc t).holds = none) (after : (σ'.pc t).holds = none)
    (knows : Knows σ.pool (σ'.pc t)) (same : (σ'.has t).Perm (σ.has t)) : Inv σ' loc := by
  have has (t' : T) : (σ'.has t').Perm (σ.has t') := by
    by_cases h : t' = t
    · exact h ▸ same
    · obtain ⟨pc, owned⟩ := other t' h
      rw [Sys.has, Sys.has, pc, owned]
  constructor
  · exact pool ▸ I.layout
  · exact pool ▸ I.mode
  · intro t' a
    rw [I.held]
    by_cases h : t' = t
    · subst h
      simp [before, after]
    · rw [(other t' h).1]
  · intro t'
    rw [pool]
    by_cases h : t' = t
    · exact h ▸ knows
    · exact (other t' h).1 ▸ I.knows t'
  · intro t' p n hp
    rw [pool]
    exact I.owned t' p n ((has t').mem_iff.mp hp)
  · intro a ha
    obtain ⟨t', n, hp⟩ := I.active a ha
    exact ⟨t', n, (has t').mem_iff.mpr hp⟩
  · intro t'
    exact ((has t').map Prod.fst).nodup_iff.mpr (I.once t')
  · intro t₁ t₂ p n n' h₁ h₂
    exact I.apart t₁ t₂ p n n' ((has t₁).mem_iff.mp h₁) ((has t₂).mem_iff.mp h₂)

/-- Thread `t` takes block `a` to place `v`: no other thread moves, and of the
pointers only that of the block may come or go. -/
structure Moves (σ σ' : Sys T) (t : T) (a : Addr) (v : Loc T) : Prop where
  other : ∀ t', t' ≠ t → σ'.pc t' = σ.pc t' ∧ σ'.owned t' = σ.owned t'
  before : ∀ b, (σ.pc t).holds = some b → b = a
  after : (v = .held t ∧ (σ'.pc t).holds = some a) ∨
    ((∀ t', v ≠ .held t') ∧ (σ'.pc t).holds = none)
  rest : ∀ p n, p ≠ a + sizeofMemBlk → ((p, n) ∈ σ'.has t ↔ (p, n) ∈ σ.has t)
  out : (∃ n, (a + sizeofMemBlk, n) ∈ σ'.has t) ↔ v = .active

section
variable {σ σ' : Sys T} {loc : Addr → Loc T} {t t' : T} {a : Addr} {v : Loc T}

theorem Moves.has_other (m : Moves σ σ' t a v) (h : t' ≠ t) : σ'.has t' = σ.has t' := by
  obtain ⟨pc, owned⟩ := m.other t' h
  rw [Sys.has, Sys.has, pc, owned]

theorem Moves.has_iff (m : Moves σ σ' t a v) {p : Addr} {n : Nat} (hp : p ≠ a + sizeofMemBlk) :
    (p, n) ∈ σ'.has t' ↔ (p, n) ∈ σ.has t' := by
  by_cases h : t' = t
  · exact h ▸ m.rest p n hp
  · rw [m.has_other h]

theorem Moves.held (m : Moves σ σ' t a v) (held : ∀ t b, loc b = .held t ↔ (σ.pc t).holds = some b)
    (off : ∀ t', loc a = .held t' → t' = t) (t' : T) (b : Addr) :
    Function.update loc a v b = .held t' ↔ (σ'.pc t').holds = some b := by
  by_cases hb : b = a
  · subst hb
    rw [Function.update_self]
    by_cases h : t' = t
    · subst h
      rcases m.after with ⟨hv, here⟩ | ⟨hv, none⟩
      · simp [hv, here]
      · simp [hv t', none]
    · have away : v ≠ .held t' := by
        rcases m.after with ⟨rfl, _⟩ | ⟨none, _⟩
        · simpa using Ne.symm h
        · exact none t'
      rw [(m.other t' h).1, ← held]
      exact iff_of_false away fun e => h (off t' e)
  · rw [Function.update_of_ne hb]
    by_cases h : t' = t
    · subst h
      apply iff_of_false (fun e => hb (m.before b ((held t' b).mp e)))
      rcases m.after with ⟨_, here⟩ | ⟨_, none⟩
      · simpa [here] using Ne.symm hb
      · simp [none]
    · rw [(m.other t' h).1, held]

/-- No other thread owns the pointer of a block that thread `t` may move. -/
theorem Moves.new_mine (m : Moves σ σ' t a v) (I : Inv σ loc)
    (mine : loc a = .active → ∃ n, (a + sizeofMemBlk, n) ∈ σ.has t) {n : Nat}
    (hp : (a + sizeofMemBlk, n) ∈ σ'.has t') : t' = t := by
  by_contra h
  rw [m.has_other h] at hp
  obtain ⟨b, e, hb, _⟩ := I.owned t' _ n hp
  rw [← Nat.add_right_cancel e] at hb
  obtain ⟨k, hk⟩ := mine hb
  exact h (I.apart t' t _ n k hp hk)

/-- A step of thread `t` on block `a`, which no other thread has to do with. -/
theorem Inv.move (I : Inv σ loc) (m : Moves σ σ' t a v) (frame : Frame σ.pool σ'.pool a)
    (layout : Layout σ'.pool (Function.update loc a v)) (knows : Knows σ'.pool (σ'.pc t))
    (off : ∀ t', loc a = .held t' → t' = t)
    (mine : loc a = .active → ∃ n, (a + sizeofMemBlk, n) ∈ σ.has t)
    (kept : ∀ n, (a + sizeofMemBlk, n) ∈ σ'.has t → Kept σ'.pool a (Asked n))
    (once : ((σ'.has t).map Prod.fst).Nodup) : Inv σ' (Function.update loc a v) := by
  constructor
  · exact layout
  · exact frame.protect.trans I.mode
  · exact m.held I.held off
  · intro t'
    by_cases h : t' = t
    · exact h ▸ knows
    · rw [(m.other t' h).1]
      apply (I.knows t').of_view
      intro b hb
      apply frame.view
      rintro rfl
      exact h (off t' ((I.held t' b).mpr hb))
  · intro t' p n hp
    by_cases h : p = a + sizeofMemBlk
    · subst h
      obtain rfl := m.new_mine I mine hp
      exact ⟨a, rfl, by simpa using m.out.mp ⟨n, hp⟩, kept n hp⟩
    · obtain ⟨b, rfl, hb, kept⟩ := I.owned t' p n ((m.has_iff h).mp hp)
      have ne : b ≠ a := fun e => h (e ▸ rfl)
      exact ⟨b, rfl, by simpa [ne] using hb, kept.of_view (frame.view b ne)⟩
  · intro b hb
    by_cases h : b = a
    · subst h
      obtain ⟨n, hn⟩ := m.out.mpr (by simpa using hb)
      exact ⟨t, n, hn⟩
    · obtain ⟨t', n, hp⟩ := I.active b (by simpa [h] using hb)
      exact ⟨t', n, (m.has_iff fun e => h (Nat.add_right_cancel e)).mpr hp⟩
  · intro t'
    by_cases h : t' = t
    · exact h ▸ once
    · exact m.has_other h ▸ I.once t'
  · intro t₁ t₂ p n n' h₁ h₂
    by_cases h : p = a + sizeofMemBlk
    · subst h
      exact (m.new_mine I mine h₁).trans (m.new_mine I mine h₂).symm
    · exact I.apart t₁ t₂ p n n' ((m.has_iff h).mp h₁) ((m.has_iff h).mp h₂)

end

/-- A step on a block that no one owns before or after. -/
theorem Inv.shift {σ σ' : Sys T} {loc : Addr → Loc T} {a : Addr} {v : Loc T} (I : Inv σ loc) (t : T)
    (frame : Frame σ.pool σ'.pool a) (layout : Layout σ'.pool (Function.update loc a v))
    (other : ∀ t', t' ≠ t → σ'.pc t' = σ.pc t' ∧ σ'.owned t' = σ.owned t')
    (before : ∀ b, (σ.pc t).holds = some b → b = a)
    (after : (v = .held t ∧ (σ'.pc t).holds = some a) ∨
      ((∀ t', v ≠ .held t') ∧ (σ'.pc t).holds = none))
    (knows : Knows σ'.pool (σ'.pc t)) (off : ∀ t', loc a = .held t' → t' = t)
    (idle : loc a ≠ .active) (idle' : v ≠ .active) (same : σ'.has t = σ.has t) :
    Inv σ' (Function.update loc a v) := by
  have unowned (n : Nat) : (a + sizeofMemBlk, n) ∉ σ'.has t := by
    rw [same]
    intro hp
    obtain ⟨b, e, hb, _⟩ := I.owned t _ n hp
    exact idle (Nat.add_right_cancel e ▸ hb)
  have moves : Moves σ σ' t a v := by
    refine ⟨other, before, after, ?_, ?_⟩
    · intro p n _
      rw [same]
    · exact iff_of_false (not_exists.mpr unowned) idle'
  apply I.move moves frame layout knows off
  · exact fun h => absurd h idle
  · exact fun n hn => absurd hn (unowned n)
  · exact same ▸ I.once t

variable [DecidableEq T] {σ σ' : Sys T} {loc : Addr → Loc T} {t : T} {l : T × Act}
  {ls : List (T × Act)} {garbage : Addr → MemBlk} {debug : Int} {s : Pool} {a : Addr} {i : Nat}
  {o : Order} {env : Env}

theorem go_other {s : Pool} {pc : Pc} (t' : T) (h : t' ≠ t) :
    (σ.go t s pc).pc t' = σ.pc t' ∧ (σ.go t s pc).owned t' = σ.owned t' := by
  simp [Sys.go, h]

theorem own_other {s : Pool} {pc : Pc} {ps : List (Addr × Nat)} (t' : T) (h : t' ≠ t) :
    ((σ.go t s pc).own t ps).pc t' = σ.pc t' ∧ ((σ.go t s pc).own t ps).owned t' = σ.owned t' := by
  simp [Sys.go, Sys.own, h]

/-! ## The sections -/

theorem Inv.call (I : Inv σ loc) {size : Nat} (pc : σ.pc t = .idle)
    (fits : sizeofMemBlk + size + sizeofGuard < 2 ^ 64) (label : Option (List UInt8)) :
    Inv (σ.go t σ.pool (enter σ.pool size label)) loc := by
  obtain ⟨holds, begun, knows⟩ := enter_knows I.layout.sizes fits label
  refine I.turn t rfl go_other (by simp [pc, Pc.holds]) ?_ ?_ ?_
  · simpa [Sys.go] using holds
  · simpa [Sys.go] using knows
  · have after : (σ.go t σ.pool (enter σ.pool size label)).has t = σ.owned t := by
      simp [Sys.has, Sys.go, begun]
    rw [after]
    simp [Sys.has, pc, Pc.begun]

theorem Inv.pop (I : Inv σ loc) (pc : σ.pc t = .chosen i o)
    (ret : σ.pool.slabPop i = .ok (s, some a)) : ∃ loc', Inv (σ.go t s (.raw a o)) loc' := by
  have k : o.Fits ∧ classOf classSizes o.size = some i := by simpa [pc, Knows] using I.knows t
  rcases slabPop_spec I.layout i t with ⟨_, none⟩ | ⟨b, s', hb, ok, frame, _, mem, L⟩
  · simp [none] at ret
  · cases ok.symm.trans ret
    have room := I.layout.slab_room hb k.2
    rw [← k.1.1, ← mem] at room
    refine ⟨_, I.shift t frame L go_other (by simp [pc, Pc.holds])
      (Or.inl ⟨rfl, by simp [Sys.go, Pc.holds]⟩) ?_ (by simp [hb]) (by simp [hb]) (by simp) ?_⟩
    · simpa [Sys.go, Knows] using And.intro k.1 room
    · simp [Sys.has, Sys.go, pc, Pc.begun]

theorem Inv.popNone (I : Inv σ loc) (pc : σ.pc t = .chosen i o)
    (ret : σ.pool.slabPop i = .ok (s, none)) : Inv (σ.go t s (.dry o)) loc := by
  have k : o.Fits ∧ classOf classSizes o.size = some i := by simpa [pc, Knows] using I.knows t
  rcases slabPop_spec I.layout i t with ⟨_, ok⟩ | ⟨b, s', _, ok, _⟩
  · cases ok.symm.trans ret
    refine I.turn t rfl go_other (by simp [pc, Pc.holds]) (by simp [Sys.go, Pc.holds])
      (by simpa [Sys.go, Knows] using k.1) ?_
    simp [Sys.has, Sys.go, pc, Pc.begun]
  · simp [ok] at ret

theorem Inv.malloc (I : Inv σ loc) (pc : σ.pc t = .dry o)
    (new : ∀ a, env.raw = some a → a ∉ σ.pool.mem)
    (ret : σ.pool.malloc env o.total = (s, some a)) : ∃ loc', Inv (σ.go t s (.raw a o)) loc' := by
  have k : o.Fits := by simpa [pc, Knows] using I.knows t
  rcases malloc_cases I.layout new k.2 t with null | ⟨b, s', ok, taken⟩
  · simp [null] at ret
  · cases ok.symm.trans ret
    have away : loc a ≠ .active ∧ ∀ t', loc a ≠ .held t' := by
      rcases taken.off with gone | ⟨i, slab⟩
      · simp [gone]
      · simp [slab]
    refine ⟨_, I.shift t taken.frame taken.layout go_other (by simp [pc, Pc.holds])
      (Or.inl ⟨rfl, by simp [Sys.go, Pc.holds]⟩) ?_ (fun t' h => absurd h (away.2 t')) away.1
      (by simp) ?_⟩
    · simpa [Sys.go, Knows] using And.intro k taken.room
    · simp [Sys.has, Sys.go, pc, Pc.begun]

theorem Inv.mallocNull (I : Inv σ loc) (pc : σ.pc t = .dry o)
    (ret : σ.pool.malloc env o.total = (s, none)) : Inv (σ.go t s .idle) loc := by
  have same : s = σ.pool := by
    unfold Pool.malloc at ret
    split at ret
    · exact (congrArg Prod.fst ret).symm
    · simp at ret
  refine I.turn t same go_other (by simp [pc, Pc.holds]) (by simp [Sys.go, Pc.holds])
    (by simp [Sys.go, Knows]) ?_
  simp [Sys.has, Sys.go, pc, Pc.begun]

theorem Inv.init (I : Inv σ loc) (pc : σ.pc t = .raw a o)
    (ret : σ.pool.initBlk a o.actual o.label env = .ok s) :
    ∃ loc', Inv (σ.go t s (.ready a o)) loc' := by
  have ha : loc a = .held t := (I.held t a).mpr (by simp [pc, Pc.holds])
  have k : o.Fits ∧ σ.pool.mem.Inside a 0 (sizeofMemBlk + o.actual) := by
    simpa [pc, Knows] using I.knows t
  rw [k.1.1] at ret
  obtain ⟨s', ok, frame, L, made, fresh, kept⟩ :=
    initBlk_made o.label env I.layout ha (k.1.1 ▸ k.2)
  cases ok.symm.trans ret
  have same : Function.update loc a (.held t) = loc := by
    rw [← ha]
    exact Function.update_eq_self a loc
  rw [I.mode] at kept
  refine ⟨_, I.shift t frame (same.symm ▸ L) go_other (by simp [pc, Pc.holds])
    (Or.inl ⟨rfl, by simp [Sys.go, Pc.holds]⟩) ?_ (by simp [ha, eq_comm]) (by simp [ha])
    (by simp) ?_⟩
  · simp only [Sys.go, Function.update_self, Knows]
    exact ⟨made, fresh, kept⟩
  · simp [Sys.has, Sys.go, pc, Pc.begun]

/-- The block's pointer becomes the thread's as the block joins the active list. -/
theorem Inv.push (I : Inv σ loc) (pc : σ.pc t = .ready a o)
    (ret : σ.pool.activePush a = .ok s) :
    ∃ loc', Inv ((σ.go t s .idle).own t ((a + sizeofMemBlk, o.size) :: σ.owned t)) loc' := by
  have ha : loc a = .held t := (I.held t a).mpr (by simp [pc, Pc.holds])
  have k : Made σ.pool a ∧ (σ.pool.hdr a).freed = false ∧ Kept σ.pool a (Asked o.size) := by
    simpa [pc, Knows] using I.knows t
  obtain ⟨s', ok, views, frame, L⟩ := activePush_spec I.layout ha k.1 k.2.1
  cases ok.symm.trans ret
  have before : σ.has t = σ.owned t := by simp [Sys.has, pc, Pc.begun]
  have after : ((σ.go t s .idle).own t ((a + sizeofMemBlk, o.size) :: σ.owned t)).has t =
      (a + sizeofMemBlk, o.size) :: σ.owned t := by simp [Sys.has, Sys.go, Sys.own, Pc.begun]
  have unowned (n : Nat) : (a + sizeofMemBlk, n) ∉ σ.owned t := by
    intro hp
    obtain ⟨b, e, hb, _⟩ := I.owned t _ n (before ▸ hp)
    rw [← Nat.add_right_cancel e, ha] at hb
    cases hb
  have moves : Moves σ ((σ.go t s .idle).own t ((a + sizeofMemBlk, o.size) :: σ.owned t)) t a
      .active := by
    refine ⟨own_other, by simp [pc, Pc.holds],
      Or.inr ⟨by simp, by simp [Sys.go, Sys.own, Pc.holds]⟩, ?_, by simp [after]⟩
    intro p n hp
    simp [before, after, hp]
  refine ⟨_, I.move moves frame L (by simp [Sys.go, Sys.own, Knows]) (by simp [ha, eq_comm])
    (by simp [ha]) ?_ ?_⟩
  · intro n hn
    rw [after, List.mem_cons] at hn
    have size : n = o.size := by
      have := hn.resolve_right (unowned n)
      exact (Prod.mk.inj this).2
    subst size
    exact k.2.2.of_view (views a)
  · rw [after, List.map_cons, List.nodup_cons]
    refine ⟨?_, before ▸ I.once t⟩
    intro hp
    obtain ⟨⟨p, n⟩, hn, rfl⟩ := List.mem_map.mp hp
    exact unowned n hn

theorem Inv.free (I : Inv σ loc) {ptr size : Nat} (pc : σ.pc t = .idle)
    (own : (ptr, size) ∈ σ.owned t) :
    Inv ((σ.go t σ.pool (.freeing ptr size)).own t ((σ.owned t).erase (ptr, size))) loc := by
  refine I.turn t rfl own_other (by simp [pc, Pc.holds])
    (by simp [Sys.go, Sys.own, Pc.holds]) (by simp [Sys.go, Sys.own, Knows]) ?_
  have perm := List.perm_cons_erase own
  simpa [Sys.has, Sys.go, Sys.own, pc, Pc.begun] using perm.symm

/-- The guards of the block are as its allocation left them, so the checks pass. -/
theorem Inv.unlink (I : Inv σ loc) {ptr size : Nat} (pc : σ.pc t = .freeing ptr size)
    (ret : σ.pool.checkAndUnlink ptr (ptr - sizeofMemBlk) = .ok s) :
    ∃ loc', Inv (σ.go t s (.unlinked (ptr - sizeofMemBlk))) loc' := by
  have before : σ.has t = (ptr, size) :: σ.owned t := by simp [Sys.has, pc, Pc.begun]
  obtain ⟨a, rfl, ha, kept⟩ := I.owned t ptr size (by simp [before])
  rw [Nat.add_sub_cancel] at ret ⊢
  have whole := (guarded_iff (I.layout.inUse a ha).1 kept).mpr ⟨rfl, asked_spares size⟩
  obtain ⟨s', ok, frame, _, _, freed, made, L⟩ :=
    checkAndUnlink_spec I.layout ha (a + sizeofMemBlk) (fun _ => whole) t
  cases ok.symm.trans ret
  have after : (σ.go t s (.unlinked a)).has t = σ.owned t := by simp [Sys.has, Sys.go, Pc.begun]
  have once := I.once t
  rw [before, List.map_cons, List.nodup_cons] at once
  have unowned (n : Nat) : (a + sizeofMemBlk, n) ∉ σ.owned t := fun hp =>
    once.1 (List.mem_map.mpr ⟨_, hp, rfl⟩)
  have moves : Moves σ (σ.go t s (.unlinked a)) t a (.held t) := by
    refine ⟨go_other, by simp [pc, Pc.holds], Or.inl ⟨rfl, by simp [Sys.go, Pc.holds]⟩, ?_,
      by simp [after, unowned]⟩
    intro p n hp
    simp [before, after, hp]
  refine ⟨_, I.move moves frame L ?_ (by simp [ha]) ?_ ?_ ?_⟩
  · simp only [Sys.go, Function.update_self, Knows]
    exact ⟨made, freed⟩
  · intro _
    exact ⟨size, by simp [before]⟩
  · intro n hn
    exact absurd (after ▸ hn) (unowned n)
  · exact after ▸ once.2

theorem Inv.release (I : Inv σ loc) {b : MemBlk} (pc : σ.pc t = .unlinked a)
    (read : σ.pool.blk a = .ok b) (ret : σ.pool.release (σ.pool.findSlabIndex b.size) a = .ok s) :
    ∃ loc', Inv (σ.go t s .idle) loc' := by
  have ha : loc a = .held t := (I.held t a).mpr (by simp [pc, Pc.holds])
  have k : Made σ.pool a ∧ (σ.pool.hdr a).freed = true := by simpa [pc, Knows] using I.knows t
  cases (blk_ok k.1.header).symm.trans read
  rw [findSlabIndex_eq I.layout.sizes] at ret
  obtain ⟨s', ok, frame, L⟩ := release_spec I.layout ha k.1 k.2
  cases ok.symm.trans ret
  refine ⟨_, I.shift t frame L go_other (by simp [pc, Pc.holds])
    (Or.inr ⟨home_away.2, by simp [Sys.go, Pc.holds]⟩) (by simp [Sys.go, Knows])
    (by simp [ha, eq_comm]) (by simp [ha]) home_away.1 ?_⟩
  simp [Sys.has, Sys.go, pc, Pc.begun]

/-- Every step of every thread keeps the agreement. -/
theorem step_inv (I : Inv σ loc) (step : Step σ l σ') : ∃ loc', Inv σ' loc' := by
  cases step with
  | call pc fits => exact ⟨loc, I.call pc fits _⟩
  | pop pc ret => exact I.pop pc ret
  | popNone pc ret => exact ⟨loc, I.popNone pc ret⟩
  | malloc pc new ret => exact I.malloc pc new ret
  | mallocNull pc ret => exact ⟨loc, I.mallocNull pc ret⟩
  | init pc ret => exact I.init pc ret
  | push pc ret => exact I.push pc ret
  | free pc own => exact ⟨loc, I.free pc own⟩
  | unlink pc ret => exact I.unlink pc ret
  | release pc read ret => exact I.release pc read ret

theorem run_inv (run : Run Step (start garbage debug) ls σ) : ∃ loc, Inv σ loc :=
  run.invariant (I := fun σ => ∃ loc, Inv σ loc) ⟨_, start_inv⟩
    fun _ _ _ ⟨_, I⟩ step => step_inv I step

/-- Every section that a thread stands before returns. -/
theorem goes_on (I : Inv σ loc) (t : T) : ∃ act σ', Step σ (t, act) σ' := by
  have knows := I.knows t
  cases pc : σ.pc t with
  | idle => exact ⟨.call 0 none, _, .call pc (by decide)⟩
  | chosen i o =>
    rcases slabPop_spec I.layout i t with ⟨_, ok⟩ | ⟨b, s', _, ok, _⟩
    · exact ⟨_, _, .popNone pc ok⟩
    · exact ⟨_, _, .pop pc ok⟩
  | dry o =>
    have null : σ.pool.malloc ⟨none, blank, fun _ => 0, 0, []⟩ o.total = (σ.pool, none) := rfl
    exact ⟨_, _, .mallocNull pc null⟩
  | raw a o =>
    rw [pc] at knows
    have ha : loc a = .held t := (I.held t a).mpr (by simp [pc, Pc.holds])
    obtain ⟨s', ok, _⟩ := initBlk_made o.label (fresh a) I.layout ha (knows.1.1 ▸ knows.2)
    exact ⟨_, _, .init pc (knows.1.1 ▸ ok)⟩
  | ready a o =>
    rw [pc] at knows
    have ha : loc a = .held t := (I.held t a).mpr (by simp [pc, Pc.holds])
    obtain ⟨s', ok, _⟩ := activePush_spec I.layout ha knows.1 knows.2.1
    exact ⟨_, _, .push pc ok⟩
  | freeing ptr size =>
    obtain ⟨a, rfl, ha, kept⟩ := I.owned t ptr size (by simp [Sys.has, pc, Pc.begun])
    have whole := (guarded_iff (I.layout.inUse a ha).1 kept).mpr ⟨rfl, asked_spares size⟩
    obtain ⟨s', ok, _⟩ := checkAndUnlink_spec I.layout ha (a + sizeofMemBlk) (fun _ => whole) t
    exact ⟨_, _, .unlink pc (by rwa [Nat.add_sub_cancel])⟩
  | unlinked a =>
    rw [pc] at knows
    have ha : loc a = .held t := (I.held t a).mpr (by simp [pc, Pc.holds])
    obtain ⟨s', ok, _⟩ := release_spec I.layout ha knows.1 knows.2
    rw [← findSlabIndex_eq I.layout.sizes] at ok
    exact ⟨_, _, .release pc (blk_ok knows.1.header) ok⟩

/-- Under any interleaving of any number of threads every block is in one place and
has at most one owner, and no thread is stopped. -/
theorem blocks_in_one_place (garbage : Addr → MemBlk) (debug : Int) (ls : List (T × Act))
    (σ : Sys T) (run : Run Step (start garbage debug) ls σ) :
    (∃ place, Partition σ place) ∧ (∀ t, ∃ act σ', Step σ (t, act) σ') ∧
      (σ.Quiet → Settled σ) := by
  obtain ⟨loc, I⟩ := run_inv run
  exact ⟨⟨loc, I.partition⟩, goes_on I, I.settled⟩

/-- One thread gets a block while the other is refused a large one; then both are out. -/
theorem two_threads_settle :
    ∃ σ : Sys Bool, σ.owned true = [(4312, 5)] ∧ (∃ place, Partition σ place) ∧ Settled σ := by
  have run : ∃ σ : Sys Bool, Run Step (start (fun _ => blank) 1)
      [(true, .call 5 none), (false, .call 9000 none), (true, .pop), (true, .malloc (fresh 4096)),
        (false, .malloc { fresh 4096 with raw := none }), (true, .init (fresh 4096)),
        (true, .push)] σ ∧
      σ.owned true = [(4312, 5)] ∧ σ.Quiet := by
    refine ⟨_, .snoc (.snoc (.snoc (.snoc (.snoc (.snoc (.snoc .nil (.call rfl (by decide)))
      (.call rfl (by decide))) (.popNone rfl rfl))
      (.malloc rfl (fun _ _ => Finmap.notMem_empty) rfl)) (.mallocNull rfl rfl)) (.init rfl rfl))
      (.push rfl rfl), rfl, ?_⟩
    intro t
    cases t <;> rfl
  obtain ⟨σ, run, owned, quiet⟩ := run
  obtain ⟨partition, _, settled⟩ := blocks_in_one_place _ _ _ σ run
  exact ⟨σ, owned, partition, settled quiet⟩

end

end LearnC.MemPool.Threads
