import LearnC.Thread.CPoolList

/-! The list of the thread pool as a queue of tasks. -/

namespace LearnC.Thread.CPool

/-- Where a node is: not live, on the list, or with the thread that built or took it. -/
inductive Place (n : Nat) (U : Type) where
  | gone
  | queued
  | built (c : Caller n U)
  | held (w : Fin n)

def Adding.node : Adding → Option Addr
  | .built newworker => some newworker
  | _ => none

def Pc.node : Pc → Option Addr
  | .took worker => some worker
  | .running worker => some worker
  | _ => none

/-- The node whose callback has not yet been called. -/
def Pc.due : Pc → Option Addr
  | .took worker => some worker
  | _ => none

section
variable {n : Nat} {U : Type}

/-- The pool as a queue of tasks. -/
def Sys.tasks (σ : Sys n U) (queue : List Task) : TaskQueue (Caller n U) (Fin n) Task where
  log := σ.log
  pending := fun c => (σ.adding c).node.bind σ.pool.task
  queue := queue
  taken := fun w => (σ.pc w).due.bind σ.pool.task

/-- Each live node is on the list or with one thread. -/
structure Placed (σ : Sys n U) (xs : List Addr) (place : Addr → Place n U) : Prop where
  live : ∀ a, place a ≠ .gone ↔ a ∈ σ.pool.heap
  queued : ∀ a, place a = .queued ↔ a ∈ xs
  built : ∀ c a, place a = .built c ↔ (σ.adding c).node = some a
  held : ∀ w a, place a = .held w ↔ (σ.pc w).node = some a

/-- The list holds the tasks of the queue, and the counter counts them. -/
structure Inv (σ : Sys n U) (place : Addr → Place n U) (xs : List Addr) (queue : List Task) :
    Prop where
  placed : Placed σ xs place
  chain : Chain σ.pool.next σ.pool.queueHead xs
  ends : ∀ c a, place a = .built c → σ.pool.next a = none
  tasks : xs.map σ.pool.task = queue.map some
  size : σ.pool.curQueueSize = xs.length + σ.log.discarded.length
  valid : (σ.tasks queue).Valid
  calls : ∀ t ∈ σ.log.submitted, t.call < σ.log.submitted.length
  kept : σ.log.discarded ≠ [] → σ.destroy = .freeing ∨ σ.destroy = .done
  emptied : σ.destroy = .done → xs = []

variable {σ σ' : Sys n U} {place : Addr → Place n U} {xs ys : List Addr} {queue : List Task}
  {a : Addr} {t : Task} {c : Caller n U} {w : Fin n}

theorem start_inv : Inv (start : Sys n U) (fun _ => .gone) [] [] := by
  constructor
  case valid => exact TaskQueue.valid_start
  case placed =>
    constructor
    · exact fun a => iff_of_false (fun h => h rfl) Finmap.notMem_empty
    all_goals simp [start, Adding.node, Pc.node]
  all_goals simp [start, TaskLog.empty]

namespace Placed

theorem on_list (P : Placed σ xs place) (h : a ∈ xs) : a ∈ σ.pool.heap :=
  (P.live a).mp (by simp [(P.queued a).mpr h])

theorem of_built (P : Placed σ xs place) (h : (σ.adding c).node = some a) : a ∈ σ.pool.heap :=
  (P.live a).mp (by simp [(P.built c a).mpr h])

theorem of_held (P : Placed σ xs place) (h : (σ.pc w).node = some a) : a ∈ σ.pool.heap :=
  (P.live a).mp (by simp [(P.held w a).mpr h])

theorem held_unique {v : Fin n} (P : Placed σ xs place) (h : (σ.pc v).node = some a)
    (at_a : place a = .held w) : v = w :=
  Place.held.inj (((P.held v a).mpr h).symm.trans at_a)

theorem built_unique {c' : Caller n U} (P : Placed σ xs place)
    (h : (σ.adding c').node = some a) (at_a : place a = .built c) : c' = c :=
  Place.built.inj (((P.built c' a).mpr h).symm.trans at_a)

theorem update_iff {v k : Place n U} {Q R : Addr → Prop} (old : ∀ b, place b = k ↔ Q b)
    (here : v = k ↔ R a) (other : ∀ b, b ≠ a → (R b ↔ Q b)) (b : Addr) :
    Function.update place a v b = k ↔ R b := by
  by_cases eq : b = a
  · subst eq
    rw [Function.update_self, here]
  · rw [Function.update_of_ne eq, old, other b eq]

/-- Node `a` comes to another place, and the others stay. -/
theorem move (P : Placed σ xs place) (v : Place n U)
    (live : ∀ b, b ≠ a → (b ∈ σ'.pool.heap ↔ b ∈ σ.pool.heap))
    (queued : ∀ b, b ≠ a → (b ∈ ys ↔ b ∈ xs))
    (built : ∀ c b, b ≠ a → ((σ'.adding c).node = some b ↔ (σ.adding c).node = some b))
    (held : ∀ w b, b ≠ a → ((σ'.pc w).node = some b ↔ (σ.pc w).node = some b))
    (isLive : v ≠ .gone ↔ a ∈ σ'.pool.heap) (isQueued : v = .queued ↔ a ∈ ys)
    (isBuilt : ∀ c, v = .built c ↔ (σ'.adding c).node = some a)
    (isHeld : ∀ w, v = .held w ↔ (σ'.pc w).node = some a) :
    Placed σ' ys (Function.update place a v) := by
  constructor
  · intro b
    by_cases eq : b = a
    · subst eq
      rw [Function.update_self, isLive]
    · rw [Function.update_of_ne eq, P.live, live b eq]
  · exact update_iff P.queued isQueued queued
  · exact fun c => update_iff (P.built c) (isBuilt c) (built c)
  · exact fun w => update_iff (P.held w) (isHeld w) (held w)

end Placed

theorem ne_of_place {k l : Place n U} {b : Addr} (hb : place b = k) (ha : place a = l)
    (ne : k ≠ l) : b ≠ a := by
  rintro rfl
  exact ne (hb.symm.trans ha)

/-- Nodes that have been built end the list that they are put on. -/
theorem ends_update {next next' : Addr → Option Addr} {v : Place n U}
    (ends : ∀ c b, place b = .built c → next b = none)
    (here : ∀ c, v = .built c → next' a = none)
    (other : ∀ c b, b ≠ a → place b = .built c → next' b = next b) :
    ∀ c b, Function.update place a v b = .built c → next' b = none := by
  intro c b hb
  by_cases eq : b = a
  · subst eq
    rw [Function.update_self] at hb
    exact here c hb
  · rw [Function.update_of_ne eq] at hb
    rw [other c b eq hb]
    exact ends c b hb

/-- What holder `h` has of the nodes' tasks changes, and the others keep theirs. -/
theorem holds_update {H : Type} [DecidableEq H] {node node' : H → Option Addr}
    {task task' : Addr → Option Task} {h : H} (other : ∀ i, i ≠ h → node' i = node i)
    (same : ∀ i b, i ≠ h → node i = some b → task' b = task b) :
    (fun i => (node' i).bind task') =
      Function.update (fun i => (node i).bind task) h ((node' h).bind task') := by
  funext i
  by_cases eq : i = h
  · subst eq
    rw [Function.update_self]
  · rw [Function.update_of_ne eq, other i eq]
    cases hn : node i with
    | none => rfl
    | some b => exact same i b eq hn

/-- Where only `h` puts a node down or picks it up, the holders of the others stay. -/
theorem holder_other {H : Type} {node node' : H → Option Addr} {h : H}
    (other : ∀ i, i ≠ h → node' i = node i) (old : ∀ b ∈ node h, b = a)
    (new : ∀ b ∈ node' h, b = a) (i : H) {b : Addr} (ne : b ≠ a) :
    node' i = some b ↔ node i = some b := by
  by_cases eq : i = h
  · subst eq
    exact iff_of_false (fun has => ne (new b has)) (fun has => ne (old b has))
  · rw [other i eq]

/-- Where no other had the node, only `h` can have it. -/
theorem holder_iff {H : Type} {node node' : H → Option Addr} {h : H}
    (other : ∀ i, i ≠ h → node' i = node i) (none : ∀ i, i ≠ h → node i ≠ some a) (i : H) :
    node' i = some a ↔ i = h ∧ node' h = some a := by
  by_cases eq : i = h
  · subst eq
    exact (and_iff_right rfl).symm
  · rw [other i eq]
    exact iff_of_false (none i eq) fun both => eq both.1

theorem holds_congr {H : Type} {node node' : H → Option Addr} {task task' : Addr → Option Task}
    (other : ∀ i, node' i = node i) (same : ∀ i b, node i = some b → task' b = task b) :
    (fun i => (node' i).bind task') = fun i => (node i).bind task := by
  funext i
  rw [other]
  cases hn : node i with
  | none => rfl
  | some b => exact same i b hn

theorem due_node {pc : Pc} (h : pc.due = some a) : pc.node = some a := by
  cases pc with
  | took b => exact h
  | _ => cases h

/-- A step that touches neither the list nor a node. -/
theorem Inv.quiet (I : Inv σ place xs queue) (heap : σ'.pool.heap = σ.pool.heap)
    (head : σ'.pool.queueHead = σ.pool.queueHead)
    (size : σ'.pool.curQueueSize = σ.pool.curQueueSize) (log : σ'.log = σ.log)
    (adding : ∀ c, (σ'.adding c).node = (σ.adding c).node)
    (node : ∀ w, (σ'.pc w).node = (σ.pc w).node) (due : ∀ w, (σ'.pc w).due = (σ.pc w).due)
    (kept : σ.log.discarded ≠ [] → σ'.destroy = .freeing ∨ σ'.destroy = .done)
    (emptied : σ'.destroy = .done → xs = []) : Inv σ' place xs queue := by
  have next : σ'.pool.next = σ.pool.next := by
    funext b
    rw [Pool.next, heap, Pool.next]
  have task : σ'.pool.task = σ.pool.task := by
    funext b
    rw [Pool.task, heap, Pool.task]
  have same : σ'.tasks queue = σ.tasks queue := by simp only [Sys.tasks, log, adding, due, task]
  obtain ⟨⟨live, queued, built, held⟩, chain, ends, tasks, count, valid, calls, _, _⟩ := I
  constructor
  · constructor
    · rwa [heap]
    · exact queued
    · simpa only [adding] using built
    · simpa only [node] using held
  · rwa [next, head]
  · rwa [next]
  · rwa [task]
  · rwa [size, log]
  · rwa [same]
  · rwa [log]
  · rwa [log]
  · exact emptied

/-- What is left where node `a` is freed. -/
theorem erase_fields {p : Pool} {b : Addr} (heap : p.heap = σ.pool.heap.erase a) (ne : b ≠ a) :
    p.next b = σ.pool.next b ∧ p.task b = σ.pool.task b := by
  simp [Pool.next, Pool.task, heap, Finmap.lookup_erase_ne ne]

/-- What the other nodes keep where node `a` is built. -/
theorem build_fields {p : Pool} {b : Addr} (pool : p = σ.pool.build a t) (ne : b ≠ a) :
    p.next b = σ.pool.next b ∧ p.task b = σ.pool.task b := by
  simp [pool, Pool.next, Pool.task, Pool.build, Finmap.lookup_insert_of_ne _ ne]

/-- A step of worker `w` that leaves it without a node. -/
theorem Inv.turn (I : Inv σ place xs queue) {pc : Pc} (pool : σ'.pool = σ.pool)
    (log : σ'.log = σ.log) (adding : σ'.adding = σ.adding) (destroy : σ'.destroy = σ.destroy)
    (pcs : σ'.pc = Function.update σ.pc w pc) (before : (σ.pc w).node = none)
    (after : pc.node = none) : Inv σ' place xs queue := by
  have none_due {pc : Pc} (h : pc.node = none) : pc.due = none := by
    cases pc <;> first | rfl | cases h
  have same {f : Pc → Option Addr} (h : f pc = f (σ.pc w)) (v : Fin n) :
      f (σ'.pc v) = f (σ.pc v) := by
    rw [pcs, Function.update_apply]
    split
    · next eq => rw [h, eq]
    · rfl
  apply I.quiet (by rw [pool]) (by rw [pool]) (by rw [pool]) log
  · exact fun c => by rw [adding]
  · exact same (after.trans before.symm)
  · exact same ((none_due after).trans (none_due before).symm)
  · rw [destroy]
    exact I.kept
  · rw [destroy]
    exact I.emptied

/-- A node that no caller has built is freed. -/
theorem pending_erase (P : Placed σ xs place) (heap : σ'.pool.heap = σ.pool.heap.erase a)
    (adding : σ'.adding = σ.adding) (apart : ∀ c, place a ≠ .built c) :
    (fun c => (σ'.adding c).node.bind σ'.pool.task) =
      fun c => (σ.adding c).node.bind σ.pool.task := by
  apply holds_congr
  · exact fun c => by rw [adding]
  · intro c b hb
    have ne : b ≠ a := by
      rintro rfl
      exact apart c ((P.built c b).mpr hb)
    exact (erase_fields heap ne).2

theorem Placed.finish (P : Placed σ xs place) (running : σ.pc w = .running a)
    (heap : σ'.pool.heap = σ.pool.heap.erase a) (adding : σ'.adding = σ.adding)
    (pcs : σ'.pc = Function.update σ.pc w .outside) :
    Placed σ' xs (Function.update place a .gone) := by
  have at_a : place a = .held w := (P.held w a).mpr (by rw [running]; rfl)
  have other (v : Fin n) (ne : v ≠ w) : σ'.pc v = σ.pc v := by
    rw [pcs, Function.update_of_ne ne]
  have at_w : σ'.pc w = .outside := by rw [pcs, Function.update_self]
  apply P.move
  · intro b ne
    simp [heap, Finmap.mem_erase, ne]
  · exact fun _ _ => Iff.rfl
  · exact fun c' b _ => by rw [adding]
  · exact fun v _ => holder_other (fun v ne => congrArg Pc.node (other v ne))
      (by simp [running, Pc.node]) (by simp [at_w, Pc.node]) v
  · simp [heap, Finmap.mem_erase]
  · exact iff_of_false (by simp) fun h => ne_of_place ((P.queued a).mpr h) at_a (by simp) rfl
  · intro c'
    rw [adding, ← P.built, at_a]
    simp
  · intro v
    rw [holder_iff (fun v ne => congrArg Pc.node (other v ne))
      (fun v ne has => ne (P.held_unique has at_a)) v]
    simp [at_w, Pc.node]

theorem Placed.take (P : Placed σ (a :: xs) place) (out : a ∉ xs) (working : σ.pc w = .working)
    (heap : σ'.pool.heap = σ.pool.heap) (adding : σ'.adding = σ.adding)
    (pcs : σ'.pc = Function.update σ.pc w (.took a)) :
    Placed σ' xs (Function.update place a (.held w)) := by
  have at_a : place a = .queued := (P.queued a).mpr List.mem_cons_self
  have other (v : Fin n) (ne : v ≠ w) : σ'.pc v = σ.pc v := by
    rw [pcs, Function.update_of_ne ne]
  have at_w : σ'.pc w = .took a := by rw [pcs, Function.update_self]
  apply P.move
  · exact fun b _ => by rw [heap]
  · intro b ne
    simp [ne]
  · exact fun c' b _ => by rw [adding]
  · exact fun v _ => holder_other (fun v ne => congrArg Pc.node (other v ne))
      (by simp [working, Pc.node]) (by simp [at_w, Pc.node]) v
  · rw [heap]
    exact iff_of_true (by simp) ((P.live a).mp (by simp [at_a]))
  · simpa using out
  · intro c'
    rw [adding, ← P.built, at_a]
    simp
  · intro v
    rw [holder_iff (fun v ne => congrArg Pc.node (other v ne))
      (fun v _ has => by simpa [at_a] using (P.held v a).mpr has) v]
    simp [at_w, Pc.node, eq_comm]

/-- The task of a running worker has been executed before. -/
theorem Inv.finish_tasks (I : Inv σ place xs queue) (running : σ.pc w = .running a)
    (heap : σ'.pool.heap = σ.pool.heap.erase a) (log : σ'.log = σ.log)
    (adding : σ'.adding = σ.adding) (pcs : σ'.pc = Function.update σ.pc w .outside) :
    σ'.tasks queue = σ.tasks queue := by
  have at_a : place a = .held w := (I.placed.held w a).mpr (by rw [running]; rfl)
  have none : (σ.pc w).due = none := by rw [running]; rfl
  apply TaskQueue.ext
  · exact log
  · exact pending_erase I.placed heap adding (by simp [at_a])
  · rfl
  · apply holds_congr
    · intro v
      by_cases eq : v = w
      · subst eq
        rw [pcs, Function.update_self, none]
        rfl
      · rw [pcs, Function.update_of_ne eq]
    · intro v b hb
      apply (erase_fields heap ?_).2
      rintro rfl
      have := at_a.symm.trans ((I.placed.held v b).mpr (due_node hb))
      cases this
      rw [none] at hb
      cases hb

/-- A worker frees its node. -/
theorem Inv.finish (I : Inv σ place xs queue) (running : σ.pc w = .running a)
    (pool : σ'.pool = { σ.pool with heap := σ.pool.heap.erase a }) (log : σ'.log = σ.log)
    (adding : σ'.adding = σ.adding) (pcs : σ'.pc = Function.update σ.pc w .outside)
    (destroy : σ'.destroy = σ.destroy) : Inv σ' (Function.update place a .gone) xs queue := by
  have at_a : place a = .held w := (I.placed.held w a).mpr (by rw [running]; rfl)
  have heap : σ'.pool.heap = σ.pool.heap.erase a := by rw [pool]
  have off (b : Addr) (hb : b ∈ xs) : b ≠ a :=
    ne_of_place ((I.placed.queued b).mpr hb) at_a (by simp)
  constructor
  · exact I.placed.finish running heap adding pcs
  · rw [show σ'.pool.queueHead = σ.pool.queueHead by rw [pool]]
    exact I.chain.congr fun b hb => (erase_fields heap (off b hb)).1
  · apply ends_update I.ends
    · simp
    · exact fun _ _ ne _ => (erase_fields heap ne).1
  · rw [← I.tasks]
    exact List.map_congr_left fun b hb => (erase_fields heap (off b hb)).2
  · rw [pool, log]
    exact I.size
  · rw [I.finish_tasks running heap log adding pcs]
    exact I.valid
  · rw [log]
    exact I.calls
  · rw [log, destroy]
    exact I.kept
  · rw [destroy]
    exact I.emptied

variable [DecidableEq U]

theorem Placed.call (P : Placed σ xs place) (idle : σ.adding c = .idle) (new : a ∉ σ.pool.heap)
    (pool : σ'.pool = σ.pool.build a t)
    (adding : σ'.adding = Function.update σ.adding c (.built a)) (pcs : σ'.pc = σ.pc) :
    Placed σ' xs (Function.update place a (.built c)) := by
  have other (c' : Caller n U) (ne : c' ≠ c) : σ'.adding c' = σ.adding c' := by
    rw [adding, Function.update_of_ne ne]
  have at_c : σ'.adding c = .built a := by rw [adding, Function.update_self]
  apply P.move
  · intro b ne
    simp [pool, Pool.build, ne]
  · exact fun _ _ => Iff.rfl
  · exact fun c' _ => holder_other (fun c' ne => congrArg Adding.node (other c' ne))
      (by simp [idle, Adding.node]) (by simp [at_c, Adding.node]) c'
  · exact fun v b _ => by rw [pcs]
  · simp [pool, Pool.build]
  · simpa using fun h => new (P.on_list h)
  · intro c'
    rw [holder_iff (fun c' ne => congrArg Adding.node (other c' ne))
      (fun c' _ has => new (P.of_built has)) c']
    simp [at_c, Adding.node, eq_comm]
  · intro v
    rw [pcs]
    exact iff_of_false (by simp) fun h => new (P.of_held h)

theorem Inv.call_moves (I : Inv σ place xs queue) (idle : σ.adding c = .idle)
    (new : a ∉ σ.pool.heap) (number : t.call = σ.log.submitted.length)
    (pool : σ'.pool = σ.pool.build a t) (log : σ'.log = σ.log.submit t)
    (adding : σ'.adding = Function.update σ.adding c (.built a)) (pcs : σ'.pc = σ.pc) :
    (σ.tasks queue).Move (σ'.tasks queue) := by
  have task {b : Addr} (hb : b ∈ σ.pool.heap) : σ'.pool.task b = σ.pool.task b :=
    (build_fields pool (ne_of_mem_of_not_mem hb new)).2
  have moved : σ'.tasks queue = { σ.tasks queue with
      log := σ.log.submit t
      pending := Function.update (σ.tasks queue).pending c (some t) } := by
    apply TaskQueue.ext
    · exact log
    · have at_a : (σ'.adding c).node.bind σ'.pool.task = some t := by
        simp [adding, Adding.node, pool, Pool.task, Pool.build]
      rw [← at_a]
      apply holds_update
      · exact fun c' ne => by rw [adding, Function.update_of_ne ne]
      · exact fun c' b _ hb => task (I.placed.of_built hb)
    · rfl
    · apply holds_congr
      · exact fun v => by rw [pcs]
      · exact fun v b hb => task (I.placed.of_held (due_node hb))
  rw [moved]
  apply TaskQueue.Move.submit
  · simp [Sys.tasks, idle, Adding.node]
  · intro h
    have := I.calls t h
    omega

/-- A caller builds a node. -/
theorem Inv.call (I : Inv σ place xs queue) (idle : σ.adding c = .idle) (new : a ∉ σ.pool.heap)
    (number : t.call = σ.log.submitted.length) (pool : σ'.pool = σ.pool.build a t)
    (log : σ'.log = σ.log.submit t) (adding : σ'.adding = Function.update σ.adding c (.built a))
    (pcs : σ'.pc = σ.pc) (destroy : σ'.destroy = σ.destroy) :
    Inv σ' (Function.update place a (.built c)) xs queue := by
  have off (b : Addr) (hb : b ∈ xs) : b ≠ a := ne_of_mem_of_not_mem (I.placed.on_list hb) new
  constructor
  · exact I.placed.call idle new pool adding pcs
  · rw [show σ'.pool.queueHead = σ.pool.queueHead by rw [pool]; rfl]
    exact I.chain.congr fun b hb => (build_fields pool (off b hb)).1
  · apply ends_update I.ends
    · simp [pool, Pool.next, Pool.build]
    · exact fun _ b ne _ => (build_fields pool ne).1
  · rw [← I.tasks]
    exact List.map_congr_left fun b hb => (build_fields pool (off b hb)).2
  · rw [pool, log]
    exact I.size
  · exact I.valid.move (I.call_moves idle new number pool log adding pcs)
  · rw [log]
    intro u hu
    have length : (σ.log.submit t).submitted.length = σ.log.submitted.length + 1 := by
      simp [TaskLog.submit]
    rw [length]
    rcases List.mem_append.mp hu with hu | hu
    · have := I.calls u hu
      omega
    · rw [List.mem_singleton] at hu
      rw [hu, number]
      exact Nat.lt_succ_self _
  · rw [log, destroy]
    exact I.kept
  · rw [destroy]
    exact I.emptied

theorem Placed.link (P : Placed σ xs place) (built : σ.adding c = .built a)
    (appended : Pool.Appended σ.pool σ'.pool xs a)
    (adding : σ'.adding = Function.update σ.adding c .linked) (pcs : σ'.pc = σ.pc) :
    Placed σ' (xs ++ [a]) (Function.update place a .queued) := by
  have at_a : place a = .built c := (P.built c a).mpr (by rw [built]; rfl)
  have other (c' : Caller n U) (ne : c' ≠ c) : σ'.adding c' = σ.adding c' := by
    rw [adding, Function.update_of_ne ne]
  have at_c : σ'.adding c = .linked := by rw [adding, Function.update_self]
  apply P.move
  · exact fun b _ => appended.mem b
  · intro b ne
    simp [ne]
  · exact fun c' _ => holder_other (fun c' ne => congrArg Adding.node (other c' ne))
      (by simp [built, Adding.node]) (by simp [at_c, Adding.node]) c'
  · exact fun v b _ => by rw [pcs]
  · rw [appended.mem]
    exact iff_of_true (by simp) ((P.live a).mp (by simp [at_a]))
  · simp
  · intro c'
    rw [holder_iff (fun c' ne => congrArg Adding.node (other c' ne))
      (fun c' ne has => ne (P.built_unique has at_a)) c']
    simp [at_c, Adding.node]
  · intro v
    rw [pcs, ← P.held, at_a]
    simp

theorem link_moves (built : σ.adding c = .built a) (task : σ.pool.task a = some t)
    (appended : Pool.Appended σ.pool σ'.pool xs a) (log : σ'.log = σ.log.enqueue t)
    (adding : σ'.adding = Function.update σ.adding c .linked) (pcs : σ'.pc = σ.pc) :
    (σ.tasks queue).Move (σ'.tasks (queue ++ [t])) := by
  have moved : σ'.tasks (queue ++ [t]) = { σ.tasks queue with
      log := σ.log.enqueue t
      pending := Function.update (σ.tasks queue).pending c none
      queue := queue ++ [t] } := by
    apply TaskQueue.ext
    · exact log
    · have none : (σ'.adding c).node.bind σ'.pool.task = none := by
        rw [adding, Function.update_self]
        rfl
      rw [← none]
      apply holds_update
      · exact fun c' ne => by rw [adding, Function.update_of_ne ne]
      · exact fun _ b _ _ => appended.task b
    · rfl
    · apply holds_congr
      · exact fun v => by rw [pcs]
      · exact fun _ b _ => appended.task b
  rw [moved]
  apply TaskQueue.Move.enqueue
  simp [Sys.tasks, built, Adding.node, task]

/-- A caller puts its node behind the others. -/
theorem Inv.link (I : Inv σ place xs queue) (built : σ.adding c = .built a)
    (task : σ.pool.task a = some t) (appended : Pool.Appended σ.pool σ'.pool xs a)
    (log : σ'.log = σ.log.enqueue t) (adding : σ'.adding = Function.update σ.adding c .linked)
    (pcs : σ'.pc = σ.pc) (destroy : σ'.destroy = σ.destroy) (undone : σ.destroy ≠ .done) :
    Inv σ' (Function.update place a .queued) (xs ++ [a]) (queue ++ [t]) := by
  constructor
  · exact I.placed.link built appended adding pcs
  · exact appended.chain
  · apply ends_update I.ends
    · simp
    · exact fun c' b _ hb => appended.next b fun h => by simp [(I.placed.queued b).mpr h] at hb
  · rw [List.map_append, List.map_append, ← I.tasks]
    simp [appended.task, task]
  · rw [appended.size, I.size, log]
    simp only [List.length_append, List.length_singleton, TaskLog.enqueue]
    omega
  · exact I.valid.move (link_moves built task appended log adding pcs)
  · rw [log]
    exact I.calls
  · rw [log, destroy]
    exact I.kept
  · rw [destroy]
    exact fun h => absurd h undone

theorem take_moves (kept : σ.log.discarded = []) (working : σ.pc w = .working)
    (task : σ.pool.task a = some t) (same : σ'.pool.task = σ.pool.task)
    (log : σ'.log = σ.log.dequeue t) (adding : σ'.adding = σ.adding)
    (pcs : σ'.pc = Function.update σ.pc w (.took a)) :
    (σ.tasks (t :: queue)).Move (σ'.tasks queue) := by
  have moved : σ'.tasks queue = { σ.tasks (t :: queue) with
      log := σ.log.dequeue t
      queue := queue
      taken := Function.update (σ.tasks (t :: queue)).taken w (some t) } := by
    apply TaskQueue.ext
    · exact log
    · apply holds_congr
      · exact fun c' => by rw [adding]
      · exact fun _ b _ => by rw [same]
    · rfl
    · have some : (σ'.pc w).due.bind σ'.pool.task = some t := by
        rw [pcs, Function.update_self, same]
        exact task
      rw [← some]
      apply holds_update
      · exact fun v ne => by rw [pcs, Function.update_of_ne ne]
      · exact fun _ b _ _ => by rw [same]
  rw [moved]
  exact .dequeue rfl (by simp [Sys.tasks, working, Pc.due]) kept

/-- A worker takes the first node. -/
theorem Inv.take (I : Inv σ place (a :: xs) (t :: queue)) (working : σ.pc w = .working)
    (kept : σ.log.discarded = []) (pool : σ'.pool =
      { σ.pool with curQueueSize := σ.pool.curQueueSize - 1, queueHead := σ.pool.next a })
    (log : σ'.log = σ.log.dequeue t) (adding : σ'.adding = σ.adding)
    (pcs : σ'.pc = Function.update σ.pc w (.took a)) (undone : σ'.destroy ≠ .done) :
    Inv σ' (Function.update place a (.held w)) xs queue := by
  have out : a ∉ xs := (List.nodup_cons.mp I.chain.nodup).1
  have next : σ'.pool.next = σ.pool.next := by rw [pool]; rfl
  have same : σ'.pool.task = σ.pool.task := by rw [pool]; rfl
  obtain ⟨task, rest⟩ := List.cons.inj I.tasks
  constructor
  · exact I.placed.take out working (by rw [pool]) adding pcs
  · rw [next, pool]
    exact I.chain.2
  · apply ends_update I.ends
    · simp
    · exact fun _ b _ _ => by rw [next]
  · rw [same]
    exact rest
  · have size := I.size
    rw [pool, log]
    simp only [List.length_cons, TaskLog.dequeue] at size ⊢
    omega
  · exact I.valid.move (take_moves kept working task same log adding pcs)
  · rw [log]
    exact I.calls
  · rw [log]
    exact fun h => absurd kept h
  · exact fun h => absurd h undone

/-- A worker calls the callback of its node. -/
theorem Inv.run (I : Inv σ place xs queue) (took : σ.pc w = .took a)
    (task : σ.pool.task a = some t) (pool : σ'.pool = σ.pool)
    (log : σ'.log = σ.log.execute t) (adding : σ'.adding = σ.adding)
    (pcs : σ'.pc = Function.update σ.pc w (.running a)) (destroy : σ'.destroy = σ.destroy) :
    Inv σ' place xs queue := by
  have other (v : Fin n) (ne : v ≠ w) : σ'.pc v = σ.pc v := by
    rw [pcs, Function.update_of_ne ne]
  have at_w : σ'.pc w = .running a := by rw [pcs, Function.update_self]
  have node (v : Fin n) : (σ'.pc v).node = (σ.pc v).node := by
    by_cases eq : v = w
    · subst eq
      rw [at_w, took]
      rfl
    · rw [other v eq]
  obtain ⟨⟨live, queued, built, held⟩, chain, ends, tasks, size, valid, calls, kept, emptied⟩ := I
  constructor
  · constructor
    · rwa [pool]
    · exact queued
    · rwa [adding]
    · simpa only [node] using held
  · rwa [pool]
  · rwa [pool]
  · rwa [pool]
  · rw [pool, log]
    exact size
  · have moved : σ'.tasks queue = { σ.tasks queue with
        log := σ.log.execute t
        taken := Function.update (σ.tasks queue).taken w none } := by
      apply TaskQueue.ext
      · exact log
      · apply holds_congr
        · exact fun c' => by rw [adding]
        · exact fun _ b _ => by rw [pool]
      · rfl
      · have none : (σ'.pc w).due.bind σ'.pool.task = none := by rw [at_w]; rfl
        rw [← none]
        apply holds_update
        · exact fun v ne => by rw [other v ne]
        · exact fun _ b _ _ => by rw [pool]
    rw [moved]
    apply valid.move
    apply TaskQueue.Move.execute
    simp [Sys.tasks, took, Pc.due, task]
  · rw [log]
    exact calls
  · rw [log, destroy]
    exact kept
  · rwa [destroy]

/-- `pool_destroy` frees the first node. -/
theorem Inv.drop (I : Inv σ place (a :: xs) (t :: queue)) (freeing : σ.destroy = .freeing)
    (pool : σ'.pool =
      { σ.pool with heap := σ.pool.heap.erase a, queueHead := σ.pool.next a })
    (log : σ'.log = σ.log.discard t) (adding : σ'.adding = σ.adding) (pcs : σ'.pc = σ.pc)
    (destroy : σ'.destroy = σ.destroy) : Inv σ' (Function.update place a .gone) xs queue := by
  have at_a : place a = .queued := (I.placed.queued a).mpr List.mem_cons_self
  have heap : σ'.pool.heap = σ.pool.heap.erase a := by rw [pool]
  have out : a ∉ xs := (List.nodup_cons.mp I.chain.nodup).1
  have off (b : Addr) (hb : b ∈ xs) : b ≠ a := by
    rintro rfl
    exact out hb
  constructor
  · apply I.placed.move
    · intro b ne
      simp [heap, Finmap.mem_erase, ne]
    · intro b ne
      simp [ne]
    · exact fun c' b _ => by rw [adding]
    · exact fun v b _ => by rw [pcs]
    · simp [heap, Finmap.mem_erase]
    · exact iff_of_false (by simp) out
    · intro c'
      rw [adding, ← I.placed.built, at_a]
      simp
    · intro v
      rw [pcs, ← I.placed.held, at_a]
      simp
  · rw [show σ'.pool.queueHead = σ.pool.next a by rw [pool]]
    exact I.chain.2.congr fun b hb => (erase_fields heap (off b hb)).1
  · apply ends_update I.ends
    · simp
    · exact fun _ _ ne _ => (erase_fields heap ne).1
  · rw [← (List.cons.inj I.tasks).2]
    exact List.map_congr_left fun b hb => (erase_fields heap (off b hb)).2
  · have size := I.size
    rw [pool, log]
    simp only [List.length_cons, TaskLog.discard, List.length_append, List.length_nil] at size ⊢
    omega
  · have moved : σ'.tasks queue = { σ.tasks (t :: queue) with
        log := σ.log.discard t
        queue := queue } := by
      apply TaskQueue.ext
      · exact log
      · exact pending_erase I.placed heap adding (by simp [at_a])
      · rfl
      · apply holds_congr
        · exact fun v => by rw [pcs]
        · intro v b hb
          have ne := ne_of_place ((I.placed.held v b).mpr (due_node hb)) at_a (by simp)
          exact (erase_fields heap ne).2
    rw [moved]
    exact I.valid.move (.discard rfl)
  · rw [log]
    exact I.calls
  · exact fun _ => .inl (destroy.trans freeing)
  · intro h
    cases (destroy.trans freeing).symm.trans h

end

end LearnC.Thread.CPool
