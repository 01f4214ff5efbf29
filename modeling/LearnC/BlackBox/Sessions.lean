import LearnC.BlackBox.Slots

/-! What the export lists after any number of calls and restarts. -/

namespace LearnC.BlackBox

/-- The first process, where there is no log file. -/
def State.boot (fresh : Image) : State := State.blackboxInit ⟨fresh, none⟩ true

/-- The box of a new process. -/
def reboot (fresh : Image) (file : Option (List UInt8)) : Image :=
  (State.blackboxInit ⟨fresh, file⟩ true).box

section
variable [TimeZone]

/-- The logs since the last clear. -/
def record (logs : List ErrorLog) : Op → List ErrorLog
  | .call (.log code text now _) => logs ++ [⟨now, code, text.val.take (descriptionSize - 1)⟩]
  | .call (.clear _) => []
  | .call .exportAll | .restart _ _ => logs

def logged (ops : List Op) : List ErrorLog := ops.foldl record []

/-- The file operations of a call succeed. -/
def Op.Succeeds : Op → Prop
  | .call (.log _ _ _ written) => written = some boxSize
  | .call .exportAll => True
  | .call (.clear removed) => removed = true
  | .restart _ opened => opened = true

/-- The box holds the last of the logs, and the file, if there is one, the box. -/
structure Keeps (s : State) (logs : List ErrorLog) : Prop where
  list : ∃ h : InRange s.box, (ring s.box h).toList = (logs.rtake maxLogCount).map some
  file : s.file = none ∧ logs = [] ∨ s.file = some (bytes s.box)

end

section
variable {box box' fresh : Image} {i j k : Nat}

/-! ## Saving and loading -/

theorem bytes_take_getD (box : Image) (h : i < min k boxSize) (d : UInt8) :
    ((bytes box).take k).getD i d = box i := by
  have lt : i < ((bytes box).take k).length := by simpa [bytes] using h
  rw [List.getD_eq_getElem _ _ lt]
  simp [bytes]

theorem bytes_take_all (box : Image) : (bytes box).take boxSize = bytes box := by
  apply List.take_of_length_le
  rw [bytes, List.length_map, List.length_range]

theorem bytes_congr (same : ∀ i < boxSize, box' i = box i) : bytes box' = bytes box := by
  rw [bytes, bytes, List.map_congr_left]
  intro i hi
  exact same i (List.mem_range.mp hi)

theorem cleared_fields (box : Image) (hi : i < 8) : setCount (setStart box 0) 0 i = 0 := by
  by_cases first : i < 4
  · have zero : (setStart box 0).get 0 4 = 0 := Image.get_set (by decide)
    rw [setCount, Image.set_out (by omega)]
    exact Image.get_eq_zero zero (by omega) (by omega)
  · have zero : (setCount (setStart box 0) 0).get 4 4 = 0 := Image.get_set (by decide)
    exact Image.get_eq_zero zero (by omega) (by omega)

theorem cleared_logs (box : Image) (hi : 8 ≤ i) : setCount (setStart box 0) 0 i = box i := by
  rw [setCount, setStart, Image.set_out (by omega), Image.set_out (by omega)]

theorem reboot_some (fresh : Image) (file : List UInt8) : reboot fresh (some file) =
    (setCount (setStart fresh 0) 0).fill 0 (min file.length boxSize) fun i => file.getD i 0 := rfl

/-- What a new process finds in its box, when a save reached the `k`-th byte. -/
theorem load_byte (fresh box : Image) (k : Nat) :
    reboot fresh (some ((bytes box).take k)) i =
      if i < min k boxSize then box i else setCount (setStart fresh 0) 0 i := by
  have length : min ((bytes box).take k).length boxSize = min k boxSize := by
    rw [List.length_take, bytes, List.length_map, List.length_range]
    omega
  rw [reboot_some, length]
  split
  · next lt =>
    rw [Image.fill_in (Nat.zero_le i) (by omega)]
    exact bytes_take_getD box lt 0
  · exact Image.fill_out (by omega)

variable [TimeZone] {s s' : State} {logs : List ErrorLog} {op : Op}

/-! ## Runs -/

/-- A box whose two fields are set to zero is empty, whatever the logs. -/
theorem ring_zeros (box : Image) :
    ∃ h : InRange (setCount (setStart box 0) 0),
      (ring (setCount (setStart box 0) 0) h).toList = [] := by
  have hstart : start (setCount (setStart box 0) 0) = 0 := by
    rw [start_setCount, start_setStart (by decide) (by decide)]
  have hcount : count (setCount (setStart box 0) 0) = 0 :=
    count_setCount (by decide) (by decide)
  have h : InRange (setCount (setStart box 0) 0) := by
    constructor
    · exact Int.le_of_eq hstart.symm
    · rw [hstart]
      decide
    · exact Int.le_of_eq hcount.symm
    · rw [hcount]
      decide
  refine ⟨h, ?_⟩
  rw [← List.length_eq_zero_iff, Ring.length_toList, ring_count, hcount]
  rfl

/-- Boxes of the same bytes have the same logs. -/
theorem ring_congr (h : InRange box) (same : ∀ i < boxSize, box' i = box i) :
    ∃ h' : InRange box', (ring box' h').toList = (ring box h).toList := by
  have size : boxSize = 27208 := rfl
  have max : maxLogCount = 100 := rfl
  obtain ⟨h', hstart, hcount, _⟩ := inRange_congr h fun i hi => same i (by omega)
  refine ⟨h', Ring.toList_congr hstart hcount ?_⟩
  intro i _
  have hj := (ring box h).slot_lt i
  apply errorLog_congr
  intro i _ lt
  apply same
  simp only [descriptionOff, errorCodeOff, timestampOff, descriptionSize, logSize] at lt
  omega

theorem keeps_boot (fresh : Image) : Keeps (State.boot fresh) [] where
  list := ring_zeros fresh
  file := Or.inl ⟨rfl, rfl⟩

theorem step_keeps (K : Keeps s logs) (ok : op.Succeeds) :
    ∃ s', s.step op = some s' ∧ Keeps s' (record logs op) := by
  obtain ⟨⟨h, list⟩, file⟩ := K
  cases op with
  | call c =>
    cases c with
    | log code text now written =>
      obtain ⟨box, h', ret, list'⟩ := log_list h list written
      replace ok : written = some boxSize := ok
      subst ok
      refine ⟨_, ret, ⟨h', ?_⟩, Or.inr ?_⟩
      · rw [rtake_rtake_append] at list'
        exact list'
      · show some ((bytes box).take boxSize) = some (bytes box)
        rw [bytes_take_all]
    | exportAll =>
      have lines := (export_eq_some h _).mpr ⟨_, list, rfl⟩
      refine ⟨s, ?_, ⟨h, list⟩, file⟩
      rw [State.step, State.call, lines]
      rfl
    | clear removed =>
      replace ok : removed = true := ok
      subst ok
      exact ⟨_, rfl, ring_zeros s.box, Or.inl ⟨rfl, rfl⟩⟩
  | restart fresh opened =>
    replace ok : opened = true := ok
    subst ok
    refine ⟨_, rfl, ?_⟩
    rcases file with ⟨none, rfl⟩ | saved
    · rw [none]
      exact keeps_boot fresh
    · rw [saved]
      have same : ∀ i < boxSize, reboot fresh (some (bytes s.box)) i = s.box i := by
        intro i hi
        rw [← bytes_take_all s.box, load_byte, if_pos (by omega)]
      obtain ⟨h', eq⟩ := ring_congr h same
      refine ⟨⟨h', eq.trans list⟩, Or.inr ?_⟩
      exact congrArg some (bytes_congr same).symm

theorem run_keeps (fresh : Image) (ops : List Op) (ok : ∀ op ∈ ops, op.Succeeds) :
    ∃ s, execute State.step (State.boot fresh) ops = some s ∧ Keeps s (logged ops) := by
  induction ops using List.reverseRecOn with
  | nil => exact ⟨_, rfl, keeps_boot fresh⟩
  | append_singleton ops op ih =>
    rw [List.forall_mem_append, List.forall_mem_singleton] at ok
    obtain ⟨s, ret, K⟩ := ih ok.1
    obtain ⟨s', next, K'⟩ := step_keeps K ok.2
    refine ⟨s', ?_, ?_⟩
    · rw [execute_snoc, ret]
      exact next
    · rw [logged, List.foldl_append]
      exact K'

/-- The boxes that the calls of a run leave are sound. -/
theorem run_sound (fresh : Image) (ops : List Op) (ok : ∀ op ∈ ops, op.Succeeds) :
    ∃ s, execute State.step (State.boot fresh) ops = some s ∧ Sound s.box := by
  obtain ⟨s, ret, ⟨h, list⟩, _⟩ := run_keeps fresh ops ok
  exact ⟨s, ret, sound_of_logs h list⟩

/-- After any calls and restarts the export lists the last logs since the last clear. -/
theorem export_last_logs (fresh : Image) (ops : List Op) (ok : ∀ op ∈ ops, op.Succeeds) :
    ∃ s, execute State.step (State.boot fresh) ops = some s ∧
      blackboxExport s.box = some (numbered 0 ((logged ops).rtake maxLogCount)) := by
  obtain ⟨s, ret, ⟨h, list⟩, _⟩ := run_keeps fresh ops ok
  exact ⟨s, ret, (export_eq_some h _).mpr ⟨_, list, rfl⟩⟩

end

attribute [local instance] utc

/-- Two logs with a new process between them. -/
def rebooted : List Op :=
  [.call (.log 1001 ⟨[90], by decide⟩ ⟨10, by decide⟩ (some boxSize)),
    .restart (fun _ => 7) true,
    .call (.log 1003 ⟨[66, 67], by decide⟩ ⟨20, by decide⟩ (some boxSize))]

theorem rebooted_logs : ∃ s, execute State.step (State.boot fun _ => 5) rebooted = some s ∧
    blackboxExport s.box = some
      [⟨1, ⟨10, 1001, [90]⟩, "Memory Allocation Failed"⟩, ⟨2, ⟨20, 1003, [66, 67]⟩,
        "Unexpected Reboot"⟩] := by
  obtain ⟨s, ret, lines⟩ := export_last_logs (fun _ => 5) rebooted (by
    simp [rebooted, Op.Succeeds])
  exact ⟨s, ret, lines⟩

end LearnC.BlackBox
