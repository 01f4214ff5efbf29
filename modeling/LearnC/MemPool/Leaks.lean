import LearnC.MemPool.Owners
import LearnC.MemPool.Teardown

/-! The leak report: a line for each outstanding pointer, with what the allocation was told. -/

namespace LearnC.MemPool

/-- What an allocation leaves in the header for the report. -/
structure Record where
  size : Nat
  label : List UInt8
  time : Nat
  trace : List Addr

/-- The record of `mem_pool_alloc_label(size, label)` with the debug mode as it is. -/
def Record.ofCall (debug : Bool) (size : Nat) (label : Option (List UInt8)) (env : Env) :
    Record where
  size := roundUp classSizes size
  label := (label.getD Pool.unknownLabel).take (maxLabelLen - 1)
  time := env.now
  trace := if debug then env.trace else []

/-- The line of the report for a pointer. -/
def Record.line (r : Record) (debug : Bool) (ptr : Addr) : Leak :=
  ⟨ptr, r.size, r.label, r.time, if debug then r.trace else []⟩

/-- The pool and its owners, who have noted each allocation that is outstanding. -/
structure Noted where
  world : World Pool
  journal : Addr → Option Record

/-- A pointer that is new to the owners is noted, and one that is freed is struck out. -/
def note (w : World Pool) (op : Op) (w' : World Pool) (journal : Addr → Option Record)
    (ptr : Addr) : Option Record :=
  match w'.owner ptr, w.owner ptr, op with
  | none, _, _ => none
  | some _, none, .alloc size label env =>
    some (Record.ofCall w.state.debugMode size label env)
  | some _, _, _ => journal ptr

def Noted.Step (n : Noted) (op : Op) (n' : Noted) : Prop :=
  MemPool.Step server n.world op n'.world ∧ n'.journal = note n.world op n'.world n.journal

def Noted.start (garbage : Addr → MemBlk) : Noted :=
  ⟨World.start (Pool.memPoolInit garbage), fun _ => none⟩

/-- The header of `a` holds the record. -/
structure Remembers (s : Pool) (a : Addr) (r : Record) : Prop where
  size : (s.hdr a).size = r.size
  label : (s.hdr a).label = r.label
  time : (s.hdr a).allocTime = r.time
  trace : (s.hdr a).callstack = r.trace

section
variable {T : Type} {s s' s'' : Pool} {loc : Addr → Loc T} {a : Addr} {n size : Nat}
  {label : Option (List UInt8)} {env : Env} {r : Record}

theorem Remembers.of_view (R : Remembers s a r) (same : s'.view a = s.view a) :
    Remembers s' a r := by
  have hdr : ({ s'.hdr a with next := none } : MemBlk) = { s.hdr a with next := none } :=
    congrArg Prod.fst same
  simp only [MemBlk.mk.injEq] at hdr
  obtain ⟨size, _, label, _, _, trace, time, _⟩ := hdr
  exact ⟨size.trans R.size, label.trans R.label, time.trans R.time, trace.trans R.trace⟩

theorem initBlk_remembers (ret : s.initBlk a n label env = .ok s') :
    Remembers s' a ⟨n, (label.getD Pool.unknownLabel).take (maxLabelLen - 1), env.now,
      if s.debugMode then env.trace else []⟩ := by
  by_cases header : s.mem.Inside a 0 sizeofMemBlk
  · simp only [Pool.initBlk, blk_ok header, setBlk_ok header, bind, Except.bind] at ret
    split at ret
    · simp only [Pool.storeTail] at ret
      split at ret
      · cases ret
        constructor <;> simp
      · cases ret
    · cases ret
      constructor <;> simp
  · simp [Pool.initBlk, Pool.blk, header, bind, Except.bind] at ret

theorem activePush_view (ret : s.activePush a = .ok s') : s'.view a = s.view a := by
  by_cases header : s.mem.Inside a 0 sizeofMemBlk
  · simp only [Pool.activePush, blk_ok header, setBlk_ok header, bind, Except.bind] at ret
    cases ret
    simp [Pool.view]
  · simp [Pool.activePush, Pool.blk, header, bind, Except.bind] at ret

theorem userWrite_hdr {ptr : Addr} {off : Nat} {byte : UInt8}
    (ret : s.userWrite ptr off byte = .ok s') : s'.hdr = s.hdr := by
  simp only [Pool.userWrite] at ret
  split at ret
  · cases ret
    rfl
  · cases ret

/-- An allocation that answers with a pointer leaves its record in the header. -/
theorem alloc_remembers (L : Layout s loc) (fit : size < 2 ^ 64)
    (new : ∀ a, env.raw = some a → a ∉ s.mem) (t : T)
    (ret : s.memPoolAllocLabel size label env = .ok (s', some (a + sizeofMemBlk))) :
    Remembers s' a (Record.ofCall s.debugMode size label env) := by
  rw [Pool.memPoolAllocLabel, findSlabIndex_eq L.sizes] at ret
  by_cases fits : s.Fits size
  · have actual := actualSize_eq L.sizes size
    rcases takeRaw_spec L new (totalSize_le fits) t with taken | ⟨b, s₁, taken, _, frame, room, L₁⟩
    · simp [Pool.allocAt, actual, taken, bind, Except.bind] at ret
    · obtain ⟨s₂, s₃, init, push, _⟩ := handOut_spec label env (t := t) L₁ (by simp) room
      simp only [Pool.allocAt, actual, taken, init, push, bind, Except.bind, Except.ok.injEq,
        Prod.mk.injEq, Option.some.injEq] at ret
      obtain ⟨rfl, ptr⟩ := ret
      cases Nat.add_right_cancel ptr
      have written := initBlk_remembers init
      rw [frame.debug] at written
      exact written.of_view (activePush_view push)
  · rcases allocAt_wraps fit fits label with null | outside
    · cases null.symm.trans ret
    · cases outside.symm.trans ret

end

/-- The headers of the outstanding blocks hold what their owners have noted. -/
structure Remembered (n : Noted) : Prop where
  agrees : ∃ loc, Agrees n.world.state n.world.owner loc
  noted : ∀ a q, n.world.owner (a + sizeofMemBlk) = some q →
    ∃ r, n.journal (a + sizeofMemBlk) = some r ∧ Remembers n.world.state a r
  struck : ∀ p, n.world.owner p = none → n.journal p = none

section
variable {n n' : Noted} {w w' : World Pool} {op : Op} {garbage : Addr → MemBlk} {ops : List Op}
  {journal : Addr → Option Record} {ptr : Addr} {q q' : Request}

theorem note_gone (gone : w'.owner ptr = none) : note w op w' journal ptr = none := by
  simp [note, gone]

theorem note_kept (out' : w'.owner ptr = some q') (out : w.owner ptr = some q) :
    note w op w' journal ptr = journal ptr := by simp [note, out, out']

theorem note_new {size : Nat} {label : Option (List UInt8)} {env : Env}
    (out' : w'.owner ptr = some q') (new : w.owner ptr = none) :
    note w (.alloc size label env) w' journal ptr =
      some (Record.ofCall w.state.debugMode size label env) := by simp [note, out', new]

theorem Remembered.keep (R : Remembered n) (step : n.Step op n')
    (same : ∀ a q, n'.world.owner (a + sizeofMemBlk) = some q →
      (∃ q, n.world.owner (a + sizeofMemBlk) = some q) ∧
        ∀ r, Remembers n.world.state a r → Remembers n'.world.state a r) : Remembered n' := by
  obtain ⟨loc, A⟩ := R.agrees
  refine ⟨(step_follows A step.1).agrees, ?_, ?_⟩
  · intro a q out
    obtain ⟨⟨q', out'⟩, kept⟩ := same a q out
    obtain ⟨r, here, old⟩ := R.noted a q' out'
    refine ⟨r, ?_, kept r old⟩
    rw [step.2, note_kept out out']
    exact here
  · intro p gone
    rw [step.2, note_gone gone]

theorem Remembered.step (R : Remembered n) (step : n.Step op n') : Remembered n' := by
  obtain ⟨loc, A⟩ := R.agrees
  obtain ⟨w, journal⟩ := n
  obtain ⟨w', journal'⟩ := n'
  obtain ⟨call, noted⟩ := id step
  cases call with
  | @alloc size label env s ptr fit new ret =>
    have ret' : w.state.memPoolAllocLabel size label env = .ok (s, some ptr) := ret
    rcases A.alloc fit new label with null | ⟨_, outside⟩ | ⟨a, s', ok, frame, _, free, A'⟩
    · cases null.symm.trans ret'
    · cases outside.symm.trans ret'
    · cases ok.symm.trans ret'
      have own := alloc_remembers A.layout fit new () ok
      refine ⟨⟨_, A'⟩, ?_, ?_⟩
      · intro b q out
        by_cases eq : b = a
        · subst eq
          exact ⟨_, (congrFun noted _).trans (note_new out free), own⟩
        · have ne : b + sizeofMemBlk ≠ a + sizeofMemBlk := fun e => eq (Nat.add_right_cancel e)
          have out' : w.owner (b + sizeofMemBlk) = some q := by simpa [eq] using out
          obtain ⟨r, here, old⟩ := R.noted b q out'
          refine ⟨r, ?_, old.of_view (frame.view b eq)⟩
          exact (congrFun noted _).trans ((note_kept out out').trans here)
      · exact fun p gone => (congrFun noted p).trans (note_gone gone)
  | @allocNull size label env s fit new ret =>
    have ret' : w.state.memPoolAllocLabel size label env = .ok (s, none) := ret
    rcases A.alloc fit new label with null | ⟨_, outside⟩ | ⟨a, s', ok, _⟩
    · cases null.symm.trans ret'
      exact R.keep step fun a q out => ⟨⟨q, out⟩, fun _ => id⟩
    · cases outside.symm.trans ret'
    · cases ok.symm.trans ret'
  | @free ptr q s out ret =>
    obtain ⟨a, rfl, ha, _⟩ := A.active out
    obtain ⟨frame, _⟩ := A.freed ha ret
    refine R.keep step fun b q' out' => ?_
    have ne : b ≠ a := by
      rintro rfl
      simp at out'
    exact ⟨⟨q', by simpa [ne] using out'⟩, fun _ old => old.of_view (frame.view b ne)⟩
  | freeNull ret =>
    simp only [server, Pool.memPoolFree, Pool.freeWith, Except.ok.injEq] at ret
    subst ret
    exact R.keep step fun a q out => ⟨⟨q, out⟩, fun _ => id⟩
  | setProtection | setDebug =>
    exact R.keep step fun a q out => ⟨⟨q, out⟩, fun _ old => ⟨old.1, old.2, old.3, old.4⟩⟩
  | @write ptr q off byte s out _ ret =>
    have hdr : s.hdr = w.state.hdr := userWrite_hdr ret
    refine R.keep step fun a q' out' => ⟨?_, fun r old => ?_⟩
    · by_cases eq : a + sizeofMemBlk = ptr
      · exact ⟨q, by rw [eq]; exact out⟩
      · exact ⟨q', by simpa [eq] using out'⟩
    · constructor <;> simp only [hdr]
      · exact old.size
      · exact old.label
      · exact old.time
      · exact old.trace

theorem run_remembered (run : Run Noted.Step (Noted.start garbage) ops n) : Remembered n := by
  apply run.invariant
  · exact ⟨⟨_, start_agrees⟩, by simp [Noted.start, World.start], by simp [Noted.start]⟩
  · exact fun _ _ _ R step => R.step step

theorem noted_run {w : World Pool}
    (run : Run (MemPool.Step server) (World.start (Pool.memPoolInit garbage)) ops w) :
    ∃ journal, Run Noted.Step (Noted.start garbage) ops ⟨w, journal⟩ := by
  induction run with
  | nil => exact ⟨_, .nil⟩
  | @snoc _ v t op _ step ih =>
    obtain ⟨journal, run⟩ := ih
    exact ⟨note v op t journal, run.snoc ⟨step, rfl⟩⟩

/-- The report goes through the active list. -/
theorem dumpLeaks_spec {T : Type} {s : Pool} {loc : Addr → Loc T} (L : Layout s loc) :
    ∃ xs, Chain s.next s.activeList xs ∧ (∀ a, a ∈ xs ↔ loc a = .active) ∧
      s.dumpLeaks = .ok (xs.map fun a => ⟨a + sizeofMemBlk, (s.hdr a).size, (s.hdr a).label,
        (s.hdr a).allocTime, if s.debugMode then (s.hdr a).callstack else []⟩) := by
  obtain ⟨xs, chain, hxs⟩ := L.active
  replace hxs : ∀ a, a ∈ xs ↔ loc a = .active := hxs
  have header (a : Addr) (ha : a ∈ xs) : s.mem.Inside a 0 sizeofMemBlk :=
    L.header a (by simp [(hxs a).mp ha])
  refine ⟨xs, chain, hxs, ?_⟩
  rw [Pool.dumpLeaks, foldActive_spec [] chain header
    (fun a ha => (L.inUse a ((hxs a).mp ha)).2)
    (length_lt_fuel chain.nodup fun a ha => (header a ha).mem)]
  rw [List.foldl_append_eq_append, List.nil_append, ← List.flatMap_def, List.map_eq_flatMap]

end

/-- In every run of calls and stores the leak report has one line for each outstanding
pointer, with the rounded size, the label cut to what the header holds and the time of its
allocation, and with the call stack if the debug mode was on then and is now; the statistics
count the lines and add up their sizes. -/
theorem leaks_reported (garbage : Addr → MemBlk) (ops : List Op) (n : Noted)
    (run : Run Noted.Step (Noted.start garbage) ops n) :
    ∃ lines, n.world.state.dumpLeaks = .ok lines ∧
      n.world.state.dumpStats =
        .ok (Int32.ofNat lines.length, UInt64.ofNat (lines.map Leak.size).sum) ∧
      (lines.map Leak.userPtr).Nodup ∧
      (∀ ptr, ptr ∈ lines.map Leak.userPtr ↔ ∃ q, n.world.owner ptr = some q) ∧
      ∀ leak ∈ lines, ∃ r, n.journal leak.userPtr = some r ∧
        leak = r.line n.world.state.debugMode leak.userPtr := by
  have R := run_remembered run
  obtain ⟨loc, A⟩ := R.agrees
  obtain ⟨xs, chain, hxs, report⟩ := dumpLeaks_spec A.layout
  obtain ⟨ys, chain', _, stats⟩ := dumpStats_spec A.layout
  obtain rfl := chain.unique chain'
  refine ⟨_, report, ?_, ?_, ?_, ?_⟩
  · simpa [Function.comp_def] using stats
  · rw [List.map_map]
    exact chain.nodup.map fun a b eq => Nat.add_right_cancel eq
  · intro ptr
    rw [A.outstanding, List.map_map, List.mem_map]
    constructor
    · rintro ⟨a, ha, rfl⟩
      exact ⟨a, rfl, (hxs a).mp ha⟩
    · rintro ⟨a, rfl, ha⟩
      exact ⟨a, (hxs a).mpr ha, rfl⟩
  · intro leak mem
    obtain ⟨a, ha, rfl⟩ := List.mem_map.mp mem
    obtain ⟨q, out⟩ := (A.outstanding (a + sizeofMemBlk)).mpr ⟨a, rfl, (hxs a).mp ha⟩
    obtain ⟨r, here, held⟩ := R.noted a q out
    refine ⟨r, here, ?_⟩
    rw [Record.line, held.size, held.label, held.time, held.trace]

/-- The block that `main` would leak, labelled `leak test`. -/
def leakTest : Op :=
  .alloc 1024 (some [0x6c, 0x65, 0x61, 0x6b, 0x20, 0x74, 0x65, 0x73, 0x74]) (fresh 4096)

theorem leakTest_reported : ∃ n lines, Run Noted.Step (Noted.start fun _ => blank) [leakTest] n ∧
    n.world.state.dumpLeaks = .ok lines ∧ 4312 ∈ lines.map Leak.userPtr := by
  have run : Run (Step server) (World.start (Pool.memPoolInit fun _ => blank)) [leakTest]
      (World.after [leakTest]) := after_run (by decide)
  obtain ⟨journal, noted⟩ := noted_run run
  obtain ⟨lines, report, _, _, outstanding, _⟩ := leaks_reported _ _ _ noted
  have out : ((World.after [leakTest]).owner 4312).isSome = true := by decide
  exact ⟨_, lines, noted, report, (outstanding 4312).mpr (Option.isSome_iff_exists.mp out)⟩

end LearnC.MemPool
