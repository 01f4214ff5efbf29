import LearnC.SlabPool.Capacity

/-! The verdict of `mem_pool_free` on a block's guards, and the writes it is about. -/

namespace LearnC.SlabPool.Base

/-- A pool with what was written to each byte of a buffer since the block was handed
out, the latest first. -/
structure Watched where
  state : Pool
  written : Addr → Nat → List UInt8

def Watched.start : Watched := ⟨Pool.init, fun _ _ => []⟩

def Watched.handed (w : Watched) (s : Pool) (ptr : Addr) : Watched :=
  ⟨s, Function.update w.written (ptr - guardSize) fun _ => []⟩

def Watched.wrote (w : Watched) (mem : Memory) (raw : Addr) (off : Nat) (byte : UInt8) : Watched :=
  ⟨{ w.state with mem := mem },
    Function.update w.written raw
      (Function.update (w.written raw) off (byte :: w.written raw off))⟩

/-- One call that returns, or one store of the program inside a buffer. -/
inductive Watch : Watched → Op → Watched → Prop
  | alloc {w : Watched} {size : Nat} {env : Env} {s : Pool} {ptr : Addr}
      (fit : size + guardSize * 2 < 2 ^ 64) (supply : Supplies base w.state env)
      (ret : w.state.memPoolAlloc size env = some (s, ptr)) :
      Watch w (.alloc size env) (w.handed s ptr)
  | free {w : Watched} {ptr : Option Addr} {s : Pool} {msg : Option Message}
      (ret : w.state.memPoolFree ptr = some (s, msg)) : Watch w (.free ptr) ⟨s, w.written⟩
  | write {w : Watched} {raw : Addr} {off : Nat} {byte : UInt8} {mem : Memory}
      (ret : w.state.mem.store raw off [byte] = some mem) :
      Watch w (.write raw off byte) (w.wrote mem raw off byte)

/-- `mem_pool_free` of the pointer reports an overflow. -/
def Pool.Prints (s : Pool) (ptr : Addr) : Prop :=
  ∃ s' size, s.memPoolFree (some ptr) = some (s', some (.overflow size))

/-- The owner's last write to the byte left it changed. -/
def Changed (writes : List UInt8) : Prop := ∃ byte, writes.head? = some byte ∧ byte ≠ guardVal

/-- Some write of the owner changed the byte, whatever came after. -/
def EverChanged (writes : List UInt8) : Prop := ∃ byte ∈ writes, byte ≠ guardVal

/-- For each block in use the verdict is that its owner's writes to a guard byte are bad. -/
def Right (Bad : List UInt8 → Prop) (w : Watched) : Prop :=
  ∀ b v, b ∈ w.state.activeBlocks → w.state.span b = some v →
    (w.state.Prints v.userPtr ↔ ∃ k, OnGuard v.size k ∧ Bad (w.written v.realPtr k))

/-- A guard byte that does not stand. -/
def Damaged (m : Memory) (v : Span) (k : Nat) : Prop :=
  OnGuard v.size k ∧ m.byte v.realPtr k ≠ some guardVal

/-- A block that a request recycles has its guards. -/
def Intact (w : Watched) : Op → Prop
  | .alloc size _ => ∀ b v, w.state.serving size = some b → w.state.span b = some v →
      ∀ k, ¬ Damaged w.state.mem v k
  | .free _ | .write _ _ _ => True

/-- And no write repairs the only damaged guard byte of a block in use. -/
def Unrepaired (w : Watched) : Op → Prop
  | .write raw off byte => ∀ b v, b ∈ w.state.activeBlocks → w.state.span b = some v →
      v.realPtr = raw → byte = guardVal → Damaged w.state.mem v off →
        ∃ k, k ≠ off ∧ Damaged w.state.mem v k
  | op => Intact w op

/-- Each guard byte of a block in use is what its owner wrote last, and stands where it
wrote nothing. -/
def Knows (w : Watched) (place : Addr → Place) : Prop :=
  ∀ b v, place b = .active → w.state.span b = some v → ∀ k, OnGuard v.size k →
    w.state.mem.byte v.realPtr k = some ((w.written v.realPtr k).head?.getD guardVal)

section
variable {s s' : Pool} {w w' : Watched} {place : Addr → Place} {b c ptr raw : Addr} {u v : Span}
  {size off : Nat} {env : Env} {byte : UInt8} {Bad : List UInt8 → Prop} {op : Op}

/-! ## What a verdict says -/

theorem Layout.prints_iff (L : Layout s place) (hb : place b = .active) (hv : s.span b = some v) :
    s.Prints v.userPtr ↔ ∃ k, Damaged s.mem v k := by
  obtain ⟨d, hd, rfl⟩ := Option.map_eq_some_iff.mp hv
  obtain ⟨s', intact, ret, check, _⟩ := free_accepted L hb hd
  have prints : s.Prints d.userPtr ↔
      ¬ checkGuards s.mem d.realPtr (guardSize + d.size) = some true := by
    rw [check, Pool.Prints, ret]
    cases intact <;> simp
  rw [prints, checkGuards_iff (L.placed.made b _ hv).room]
  simp only [Damaged, not_forall, exists_prop]

/-- A block is damaged exactly if its owner's writes to a guard byte are bad. -/
def Verdict (Bad : List UInt8 → Prop) (w : Watched) (v : Span) : Prop :=
  (∃ k, Damaged w.state.mem v k) ↔ ∃ k, OnGuard v.size k ∧ Bad (w.written v.realPtr k)

theorem Layout.right_iff (L : Layout w.state place) :
    Right Bad w ↔ ∀ b v, place b = .active → w.state.span b = some v → Verdict Bad w v := by
  refine forall₂_congr fun b v => ?_
  rw [L.active]
  refine forall₂_congr fun hb hv => ?_
  rw [L.prints_iff hb hv, Verdict]

theorem Knows.right (K : Knows w place) (L : Layout w.state place) : Right Changed w := by
  rw [L.right_iff]
  intro b v hb hv
  refine exists_congr fun k => and_congr_right fun guard => ?_
  rw [K b v hb hv k guard]
  cases last : (w.written v.realPtr k).head? <;> simp [Changed, last]

/-! ## What a step does to the guards -/

/-- Neither the bytes of a block's buffer nor its owner's writes change. -/
def Untouched (w w' : Watched) (v : Span) : Prop :=
  ∀ k, w'.state.mem.byte v.realPtr k = w.state.mem.byte v.realPtr k ∧
    w'.written v.realPtr k = w.written v.realPtr k

theorem Untouched.verdict (same : Untouched w w' v) (right : Verdict Bad w v) :
    Verdict Bad w' v := by
  simpa only [Verdict, Damaged, (same _).1, (same _).2] using right

theorem create_mem {idx : Option Nat} (made : s.create idx size env = some (s', b)) :
    ∃ raw, fillGuards (s.mem.insert raw ⟨totalSize size, env.junk⟩) raw size = some s'.mem ∧
      env.raw = some raw ∧ ∀ d, s'.desc.lookup b = some d → d.userPtr = raw + guardSize := by
  obtain ⟨blk, _, made⟩ := Option.bind_eq_some_iff.mp made
  obtain ⟨raw, hraw, made⟩ := Option.bind_eq_some_iff.mp made
  obtain ⟨mem, fill, made⟩ := Option.bind_eq_some_iff.mp made
  have out : s'.mem = mem ∧
      s'.desc.lookup b = some ⟨⟨raw, raw + guardSize, size⟩, none, []⟩ := by
    cases idx <;> cases made <;> exact ⟨rfl, Finmap.lookup_insert _⟩
  refine ⟨raw, by rw [out.1, fill], hraw, ?_⟩
  intro d hd
  cases out.2.symm.trans hd
  rfl

theorem alloc_mem (ret : s.memPoolAlloc size env = some (s', ptr)) :
    (∃ b, s.serving size = some b ∧ s'.mem = s.mem) ∨
      s.serving size = none ∧ ∃ raw, env.raw = some raw ∧ ptr = raw + guardSize ∧
        fillGuards (s.mem.insert raw ⟨totalSize size, env.junk⟩) raw size = some s'.mem := by
  obtain ⟨⟨s₁, b⟩, take, ret⟩ := Option.bind_eq_some_iff.mp ret
  obtain ⟨d, hd, ret⟩ := Option.bind_eq_some_iff.mp ret
  cases ret
  have create {idx : Option Nat} (idle : s.serving size = none)
      (made : s.create idx size env = some (s₁, b)) :
      s.serving size = none ∧ ∃ raw, env.raw = some raw ∧ d.userPtr = raw + guardSize ∧
        fillGuards (s.mem.insert raw ⟨totalSize size, env.junk⟩) raw size = some s₁.mem := by
    obtain ⟨raw, fill, hraw, user⟩ := create_mem made
    exact ⟨idle, raw, hraw, user d hd, fill⟩
  cases cls : slabIndex size with
  | none =>
    simp only [Pool.take, cls] at take
    exact Or.inr (create (by simp [Pool.serving, cls]) take)
  | some i =>
    cases head : (s.slabs i).freeList with
    | none =>
      simp only [Pool.take, cls, head] at take
      exact Or.inr (create (by simp [Pool.serving, cls, head]) take)
    | some c =>
      simp only [Pool.take, cls, head] at take
      obtain ⟨s₂, reuse, eq⟩ := Option.map_eq_some_iff.mp take
      cases eq
      obtain ⟨v, _, reuse⟩ := Option.bind_eq_some_iff.mp reuse
      cases reuse
      exact Or.inl ⟨b, by simp [Pool.serving, cls, head], rfl⟩

theorem Layout.other_real (L : Layout s place) (hb : s.span b = some v) (hc : s.span c = some u)
    (ne : c ≠ b) : u.realPtr ≠ v.realPtr := by
  intro eq
  apply ne
  apply L.placed.owns.one c b v.realPtr
  · simp [hc, eq]
  · simp [hb]

/-- A new owner finds the guards of its block intact unless it was recycled damaged, and
has written nothing; the blocks in use before are left alone. -/
theorem alloc_watch (L : Layout w.state place) (fit : size + guardSize * 2 < 2 ^ 64)
    (supply : Supplies base w.state env)
    (ret : w.state.memPoolAlloc size env = some (s', ptr)) :
    ∃ b v, Layout s' (Function.update place b .active) ∧ s'.span b = some v ∧
      (∀ k, (w.handed s' ptr).written v.realPtr k = []) ∧
      ((∀ k, ¬ Damaged s'.mem v k) ↔ Intact w (.alloc size env)) ∧
      ∀ c u, c ≠ b → place c = .active → s'.span c = some u →
        w.state.span c = some u ∧ Untouched w (w.handed s' ptr) u := by
  have finish {b : Addr} {v : Span} (L' : Layout s' (Function.update place b .active))
      (hv : s'.span b = some v) (same : Same w.state s' b) (user : ptr = v.userPtr)
      (bytes : ∀ a, a ≠ v.realPtr → s'.mem.lookup a = w.state.mem.lookup a)
      (intact : (∀ k, ¬ Damaged s'.mem v k) ↔ Intact w (.alloc size env)) :
      ∃ b v, Layout s' (Function.update place b .active) ∧ s'.span b = some v ∧
        (∀ k, (w.handed s' ptr).written v.realPtr k = []) ∧
        ((∀ k, ¬ Damaged s'.mem v k) ↔ Intact w (.alloc size env)) ∧
        ∀ c u, c ≠ b → place c = .active → s'.span c = some u →
          w.state.span c = some u ∧ Untouched w (w.handed s' ptr) u := by
    have real : ptr - guardSize = v.realPtr := by
      rw [user, (L'.placed.made b v hv).user, Nat.add_sub_cancel]
    refine ⟨b, v, L', hv, fun k => by simp [Watched.handed, real], intact, ?_⟩
    intro c u hc _ hu
    have ne : u.realPtr ≠ v.realPtr := L'.other_real hv hu hc
    refine ⟨(same.span c hc).symm.trans hu, fun k => ⟨?_, ?_⟩⟩
    · simp [Watched.handed, Memory.byte, bytes _ ne]
    · simp [Watched.handed, real, ne]
  rcases alloc_mem ret with ⟨b, serving, mem⟩ | ⟨idle, raw, _, rfl, fill⟩
  · obtain ⟨i, cls, head⟩ := Option.bind_eq_some_iff.mp serving
    obtain ⟨s₁, d, _, hd, ok, same, hv, L'⟩ := alloc_reuse L cls head env
    cases ok.symm.trans ret
    refine finish L' hv same rfl (fun a _ => by rw [mem]) ?_
    rw [mem]
    constructor
    · intro whole c u hc hu
      cases serving.symm.trans hc
      cases (span_some hd).symm.trans hu
      exact whole
    · intro intact
      exact intact b d.toSpan serving (span_some hd)
  · obtain ⟨s₁, b, v, _, ok, rfl, same, hv, L'⟩ := alloc_create L fit idle supply
    obtain ⟨rfl, user⟩ := Prod.mk.inj (Option.some.inj (ok.symm.trans ret))
    have real : v.realPtr = raw :=
      Nat.add_right_cancel ((L'.placed.made b v hv).user.symm.trans user)
    obtain ⟨stand, others⟩ := fillGuards_byte fill
    refine finish L' hv same user.symm ?_ (iff_of_true ?_ ?_)
    · intro a ha
      rw [real] at ha
      rw [others a ha, Finmap.lookup_insert_of_ne _ ha]
    · rintro k ⟨guard, broken⟩
      rw [real] at broken
      exact broken (stand k guard)
    · intro c u hc
      cases idle.symm.trans hc

theorem release_mem {d : Block} (ret : s.release b d = some s') {a : Addr} (ha : a ≠ d.realPtr) :
    s'.mem.lookup a = s.mem.lookup a := by
  simp only [Pool.release] at ret
  split at ret
  · cases ret
    rfl
  · split at ret
    · cases ret
      exact Finmap.lookup_erase_ne ha
    · cases ret

theorem free_watch {ptr : Option Addr} {msg : Option Message} (L : Layout w.state place)
    (ret : w.state.memPoolFree ptr = some (s', msg)) :
    ∃ place', Layout s' place' ∧ ∀ c u, place' c = .active → s'.span c = some u →
      place c = .active ∧ w.state.span c = some u ∧ Untouched w ⟨s', w.written⟩ u := by
  cases ptr with
  | none =>
    cases ret
    exact ⟨place, L, fun c u hc hu => ⟨hc, hu, fun k => ⟨rfl, rfl⟩⟩⟩
  | some ptr =>
    rcases free_inv L ret with rfl | ⟨b, d, hb, hd, _, release⟩
    · exact ⟨place, L, fun c u hc hu => ⟨hc, hu, fun k => ⟨rfl, rfl⟩⟩⟩
    · obtain ⟨s₁, ok, same, L'⟩ := release_spec L hb hd
      cases ok.symm.trans release
      refine ⟨_, L', ?_⟩
      intro c u hc hu
      have ne : c ≠ b := by
        rintro rfl
        rw [Function.update_self] at hc
        exact home_ne_active _ hc
      have hu' := (same.span c ne).symm.trans hu
      refine ⟨by simpa [ne] using hc, hu', fun k => ⟨?_, rfl⟩⟩
      have apart := L.other_real (span_some hd) hu' ne
      simp [Memory.byte, release_mem release apart, Pool.removeActive]

theorem write_watch {mem : Memory} (ret : w.state.mem.store raw off [byte] = some mem) (a : Addr)
    (k : Nat) :
    (a = raw ∧ k = off ∧ (w.wrote mem raw off byte).state.mem.byte a k = some byte ∧
      (w.wrote mem raw off byte).written a k = byte :: w.written a k) ∨
    (¬ (a = raw ∧ k = off) ∧
      (w.wrote mem raw off byte).state.mem.byte a k = w.state.mem.byte a k ∧
      (w.wrote mem raw off byte).written a k = w.written a k) := by
  by_cases ha : a = raw
  · subst ha
    by_cases hk : k = off
    · subst hk
      have here := Memory.store_byte ret (k := 0) (by simp)
      exact Or.inl ⟨rfl, rfl, by simpa [Watched.wrote] using here, by simp [Watched.wrote]⟩
    · refine Or.inr ⟨fun h => hk h.2, ?_, by simp [Watched.wrote, hk]⟩
      apply Memory.store_byte_outside ret
      simp only [List.length_singleton]
      omega
  · refine Or.inr ⟨fun h => ha h.1, ?_, by simp [Watched.wrote, ha]⟩
    simp [Watched.wrote, Memory.byte, Memory.store_lookup_of_ne ret ha]

/-! ## Runs -/

theorem Watch.layout (step : Watch w op w') (L : Layout w.state place) :
    ∃ place', Layout w'.state place' := by
  cases step with
  | alloc fit supply ret =>
    obtain ⟨b, v, L', _⟩ := alloc_watch L fit supply ret
    exact ⟨_, L'⟩
  | free ret =>
    obtain ⟨place', L', _⟩ := free_watch L ret
    exact ⟨place', L'⟩
  | write ret => exact ⟨place, L.store (Memory.store_extent ret)⟩

/-- The guard bytes are known as long as no request recycles a damaged block. -/
theorem Knows.step (L : Layout w.state place) (K : Knows w place) (step : Watch w op w')
    (intact : Intact w op) : ∃ place', Layout w'.state place' ∧ Knows w' place' := by
  cases step with
  | alloc fit supply ret =>
    obtain ⟨b, v, L', hv, new, iff, others⟩ := alloc_watch L fit supply ret
    refine ⟨_, L', ?_⟩
    intro c u hc hu k guard
    by_cases eq : c = b
    · subst eq
      cases hv.symm.trans hu
      have whole : ¬ Damaged _ _ k := iff.mpr intact k
      rw [new k]
      exact not_not.mp fun broken => whole ⟨guard, broken⟩
    · obtain ⟨hu', same⟩ := others c u eq (by simpa [eq] using hc) hu
      rw [(same k).1, (same k).2]
      exact K c u (by simpa [eq] using hc) hu' k guard
  | free ret =>
    obtain ⟨place', L', kept⟩ := free_watch L ret
    refine ⟨place', L', ?_⟩
    intro c u hc hu k guard
    obtain ⟨hc', hu', same⟩ := kept c u hc hu
    rw [(same k).1, (same k).2]
    exact K c u hc' hu' k guard
  | @write raw off byte mem ret =>
    refine ⟨place, L.store (Memory.store_extent ret), ?_⟩
    intro c u hc hu k guard
    rcases write_watch ret u.realPtr k with ⟨_, _, stored, recorded⟩ | ⟨_, stored, recorded⟩
    · rw [stored, recorded]
      rfl
    · rw [stored, recorded]
      exact K c u hc hu k guard

/-- A verdict about an owner that has written nothing is right only if the block was
not recycled damaged. -/
theorem Right.intact (L : Layout w.state place) (step : Watch w op w') (right : Right Bad w')
    (idle : ¬ Bad []) : Intact w op := by
  cases step with
  | alloc fit supply ret =>
    obtain ⟨b, v, L', hv, new, iff, _⟩ := alloc_watch L fit supply ret
    rw [← iff]
    intro k damaged
    obtain ⟨j, _, bad⟩ := (L'.right_iff.mp right b v (by simp) hv).mp ⟨k, damaged⟩
    rw [new j] at bad
    exact idle bad
  | free | write => trivial

theorem everChanged_cons {writes : List UInt8} :
    EverChanged (byte :: writes) ↔ byte ≠ guardVal ∨ EverChanged writes := by
  simp [EverChanged]

/-- A byte that is changed back counts as changed; the verdict agrees as long as another
guard byte is damaged. -/
theorem write_verdict {mem : Memory} (ret : w.state.mem.store raw off [byte] = some mem)
    (right : Verdict EverChanged w v)
    (unrepaired : v.realPtr = raw → byte = guardVal → Damaged w.state.mem v off →
      ∃ k, k ≠ off ∧ Damaged w.state.mem v k) :
    Verdict EverChanged (w.wrote mem raw off byte) v := by
  have stays (k : Nat) (damaged : Damaged w.state.mem v k) :
      ∃ j, Damaged (w.wrote mem raw off byte).state.mem v j := by
    rcases write_watch ret v.realPtr k with ⟨real, rfl, stored, _⟩ | ⟨_, stored, _⟩
    · by_cases good : byte = guardVal
      · obtain ⟨j, ne, guard, broken⟩ := unrepaired real good damaged
        rcases write_watch ret v.realPtr j with ⟨_, eq, _⟩ | ⟨_, stored, _⟩
        · exact absurd eq ne
        · exact ⟨j, guard, by rwa [stored]⟩
      · exact ⟨k, damaged.1, by simpa [stored] using good⟩
    · exact ⟨k, damaged.1, by rw [stored]; exact damaged.2⟩
  constructor
  · rintro ⟨k, guard, broken⟩
    rcases write_watch ret v.realPtr k with ⟨_, _, stored, recorded⟩ | ⟨_, stored, _⟩
    · refine ⟨k, guard, ?_⟩
      rw [recorded, everChanged_cons]
      exact Or.inl (by simpa [stored] using broken)
    · rw [stored] at broken
      obtain ⟨j, guard, ever⟩ := right.mp ⟨k, guard, broken⟩
      refine ⟨j, guard, ?_⟩
      rcases write_watch ret v.realPtr j with ⟨_, _, _, recorded⟩ | ⟨_, _, recorded⟩
      · rw [recorded, everChanged_cons]
        exact Or.inr ever
      · rwa [recorded]
  · rintro ⟨k, guard, ever⟩
    have old : byte ≠ guardVal ∧ (w.wrote mem raw off byte).state.mem.byte v.realPtr k =
        some byte ∨ EverChanged (w.written v.realPtr k) := by
      rcases write_watch ret v.realPtr k with ⟨_, _, stored, recorded⟩ | ⟨_, _, recorded⟩
      · rw [recorded, everChanged_cons] at ever
        exact ever.imp (fun bad => ⟨bad, stored⟩) id
      · rw [recorded] at ever
        exact Or.inr ever
    rcases old with ⟨bad, stored⟩ | ever
    · exact ⟨k, guard, by simpa [stored] using bad⟩
    · obtain ⟨j, damaged⟩ := right.mpr ⟨k, guard, ever⟩
      exact stays j damaged

/-- Once the only damaged guard byte is changed back, the verdict misses it. -/
theorem repaired_verdict {mem : Memory} (ret : w.state.mem.store raw off [byte] = some mem)
    (right : Verdict EverChanged w v)
    (right' : Verdict EverChanged (w.wrote mem raw off byte) v) (real : v.realPtr = raw)
    (good : byte = guardVal) (damaged : Damaged w.state.mem v off) :
    ∃ k, k ≠ off ∧ Damaged w.state.mem v k := by
  obtain ⟨k, guard, ever⟩ := right.mp ⟨off, damaged⟩
  have ever' : EverChanged ((w.wrote mem raw off byte).written v.realPtr k) := by
    rcases write_watch ret v.realPtr k with ⟨_, _, _, recorded⟩ | ⟨_, _, recorded⟩
    · rw [recorded, everChanged_cons]
      exact Or.inr ever
    · rwa [recorded]
  obtain ⟨j, guard, broken⟩ := right'.mpr ⟨k, guard, ever'⟩
  rcases write_watch ret v.realPtr j with ⟨_, _, stored, _⟩ | ⟨away, stored, _⟩
  · exact absurd (by rw [stored, good]) broken
  · rw [stored] at broken
    exact ⟨j, fun eq => away ⟨real, eq⟩, guard, broken⟩

/-- What a step has to meet for the verdicts to be right about every change. -/
theorem ever_step (L : Layout w.state place) (right : Right EverChanged w) (step : Watch w op w')
    (unrepaired : Unrepaired w op) : Right EverChanged w' := by
  rw [L.right_iff] at right
  cases step with
  | alloc fit supply ret =>
    obtain ⟨b, v, L', hv, new, iff, others⟩ := alloc_watch L fit supply ret
    refine L'.right_iff.mpr fun c u hc hu => ?_
    by_cases eq : c = b
    · subst eq
      cases hv.symm.trans hu
      apply iff_of_false
      · rintro ⟨k, damaged⟩
        exact iff.mpr unrepaired k damaged
      · rintro ⟨k, _, byte, mem, _⟩
        rw [new k] at mem
        exact List.not_mem_nil mem
    · have hc' : place c = .active := by simpa [eq] using hc
      obtain ⟨hu', same⟩ := others c u eq hc' hu
      exact same.verdict (right c u hc' hu')
  | free ret =>
    obtain ⟨place', L', kept⟩ := free_watch L ret
    refine L'.right_iff.mpr fun c u hc hu => ?_
    obtain ⟨hc', hu', same⟩ := kept c u hc hu
    exact same.verdict (right c u hc' hu')
  | write ret =>
    refine (L.store (Memory.store_extent ret)).right_iff.mpr fun c u hc hu => ?_
    exact write_verdict ret (right c u hc hu) (unrepaired c u ((L.active c).mpr hc) hu)

theorem ever_meets (L : Layout w.state place) (right : Right EverChanged w) (step : Watch w op w')
    (right' : Right EverChanged w') : Unrepaired w op := by
  have idle : ¬ EverChanged [] := by simp [EverChanged]
  cases step with
  | alloc fit supply ret => exact right'.intact L (.alloc fit supply ret) idle
  | free ret => trivial
  | write ret =>
    intro c u hc hu
    rw [L.active] at hc
    have now := L.right_iff.mp right c u hc hu
    have later := (L.store (Memory.store_extent ret)).right_iff.mp right' c u hc hu
    exact repaired_verdict ret now later

/-- The verdicts are right about every owner in exactly the runs where no request
recycles a block with a damaged guard; and if a byte that was changed back is to
count, where besides no write changes back the only damaged byte. -/
theorem verdicts_right_iff (ops : List Op) (w : Watched) :
    (Run (Into (Right Changed) Watch) .start ops w ↔ Run (When Intact Watch) .start ops w) ∧
    (Run (Into (Right EverChanged) Watch) .start ops w ↔
      Run (When Unrepaired Watch) .start ops w) := by
  constructor
  · symm
    apply run_when_iff_kept (K := fun w => ∃ place, Layout w.state place ∧ Knows w place)
    · exact ⟨_, init_layout, fun b v hb => Place.noConfusion hb⟩
    · rintro w op w' ⟨place, L, K⟩ step intact
      obtain ⟨place', L', K'⟩ := K.step L step intact
      exact ⟨⟨place', L', K'⟩, K'.right L'⟩
    · rintro w op w' ⟨place, L, K⟩ step right
      exact right.intact L step (by simp [Changed])
  · symm
    apply run_when_iff_kept (K := fun w => (∃ place, Layout w.state place) ∧ Right EverChanged w)
    · exact ⟨⟨_, init_layout⟩, init_layout.right_iff.mpr fun b v hb => Place.noConfusion hb⟩
    · rintro w op w' ⟨⟨place, L⟩, right⟩ step unrepaired
      have right' := ever_step L right step unrepaired
      exact ⟨⟨step.layout L, right'⟩, right'⟩
    · rintro w op w' ⟨⟨place, L⟩, right⟩ step right'
      exact ever_meets L right step right'

end

def Watched.call (w : Watched) : Op → Option Watched
  | .alloc size env =>
    if size + guardSize * 2 < 2 ^ 64 ∧ Supplies base w.state env then
      (w.state.memPoolAlloc size env).map fun out => w.handed out.1 out.2
    else none
  | .free ptr => (w.state.memPoolFree ptr).map fun out => ⟨out.1, w.written⟩
  | .write raw off byte =>
    (w.state.mem.store raw off [byte]).map fun mem => w.wrote mem raw off byte

theorem call_watch {w w' : Watched} {op : Op} (h : w.call op = some w') : Watch w op w' := by
  cases op with
  | alloc size env =>
    simp only [Watched.call] at h
    split at h
    · next legal =>
      obtain ⟨⟨s, ptr⟩, ret, rfl⟩ := Option.map_eq_some_iff.mp h
      exact .alloc legal.1 legal.2 ret
    · cases h
  | free ptr =>
    obtain ⟨⟨s, msg⟩, ret, rfl⟩ := Option.map_eq_some_iff.mp h
    exact .free ret
  | write raw off byte =>
    obtain ⟨mem, ret, rfl⟩ := Option.map_eq_some_iff.mp h
    exact .write ret

def Watched.after (ops : List Op) : Watched := (execute Watched.call .start ops).getD .start

theorem after_watch {ops : List Op} (ret : (execute Watched.call .start ops).isSome = true) :
    Run Watch .start ops (Watched.after ops) := by
  obtain ⟨w, hw⟩ := Option.isSome_iff_exists.mp ret
  rw [Watched.after, hw]
  exact execute_run (fun _ _ _ => call_watch) hw

def passedOn : List Op :=
  [.alloc 8 (fresh 1 1000), .write 1000 0 0, .free (some 1016), .alloc 8 (fresh 2 2000)]

/-- The next owner has written nothing, and is blamed. -/
theorem next_owner_blamed : ∃ w, Run Watch .start passedOn w ∧ w.state.Prints 1016 ∧
    (∀ k, w.written 1000 k = []) ∧ ¬ Right Changed w ∧ ¬ Right EverChanged w := by
  have printed : ((Watched.after passedOn).state.memPoolFree (some 1016)).map Prod.snd =
      some (some (.overflow 8)) := by decide
  obtain ⟨⟨s, msg⟩, ret, rfl⟩ := Option.map_eq_some_iff.mp printed
  have prints : (Watched.after passedOn).state.Prints 1016 := ⟨s, 8, ret⟩
  have idle (k : Nat) : (Watched.after passedOn).written 1000 k = [] := rfl
  have active : 1 ∈ (Watched.after passedOn).state.activeBlocks := by decide
  have span : (Watched.after passedOn).state.span 1 = some ⟨1000, 1016, 8⟩ := rfl
  have wrong (Bad : List UInt8 → Prop) (none : ¬ Bad []) :
      ¬ Right Bad (Watched.after passedOn) := by
    intro right
    obtain ⟨k, _, bad⟩ := (right 1 _ active span).mp prints
    exact none (idle k ▸ bad)
  exact ⟨_, after_watch (by decide), prints, idle, wrong _ (by simp [Changed]),
    wrong _ (by simp [EverChanged])⟩

end LearnC.SlabPool.Base
