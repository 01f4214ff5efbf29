import LearnC.BlackBox.Sessions

/-! Which log files a new process can go on from. -/

namespace LearnC.BlackBox

/-- The file, with zeros behind it. -/
def fileImage (file : List UInt8) : Image := fun i => file.getD i 0

/-! ## Loading -/

section
variable {fresh : Image} {file : List UInt8} {s : State} {i j : Nat}

theorem reboot_fields (fresh : Image) (file : List UInt8) (hi : i < 8) :
    reboot fresh (some file) i = fileImage file i := by
  have size : boxSize = 27208 := rfl
  rw [reboot_some]
  by_cases lt : i < file.length
  · rw [Image.fill_in (Nat.zero_le i) (by omega)]
    rfl
  · rw [Image.fill_out (by omega), fileImage, List.getD_eq_default _ _ (Nat.le_of_not_lt lt)]
    exact cleared_fields fresh hi

theorem reboot_byte (fresh : Image) (file : List UInt8) (hi : 8 ≤ i) (lt : i < boxSize) :
    reboot fresh (some file) i = file.getD i (fresh i) := by
  rw [reboot_some]
  by_cases short : i < file.length
  · rw [Image.fill_in (Nat.zero_le i) (by omega), Nat.sub_zero, List.getD_eq_getElem _ _ short,
      List.getD_eq_getElem _ _ short]
  · rw [Image.fill_out (by omega), cleared_logs fresh hi,
      List.getD_eq_default _ _ (Nat.le_of_not_lt short)]

/-- The time of a log whose description begins in the file. -/
theorem reboot_timestamp (fresh : Image) (hj : j < maxLogCount)
    (long : descriptionOff j < file.length) :
    timestamp (reboot fresh (some file)) j = timestamp (fileImage file) j := by
  apply timestamp_congr
  intro i le lt
  simp only [descriptionOff, errorCodeOff, timestampOff, logSize, maxLogCount] at *
  rw [reboot_byte _ _ (by omega) (by simp only [boxSize, logSize, maxLogCount]; omega), fileImage,
    List.getD_eq_getElem _ _ (by omega), List.getD_eq_getElem _ _ (by omega)]

/-- A log whose index falls outside `logs` has no result. -/
theorem log_outside {sum : Int} {code : BitVec 32} {text : Text} {now : BitVec 64}
    {written : Option Nat} (add : int (start s.box + count s.box) = some sum)
    (outside : slot (sum.tmod maxLogCount) = none) :
    s.blackboxLog code text now written = none := by
  rw [State.blackboxLog, add]
  cases advanced : advance s.box with
  | none => rfl
  | some box => simp only [Option.bind_eq_bind, Option.bind_some, outside, Option.bind_none]

end

section
variable [TimeZone]

/-- The two fields of the file stay within `logs`, missing bytes being zero, and each log they
choose has a time that `localtime` knows and a description with a zero byte in the file. -/
def FileSound (file : List UInt8) : Prop :=
  InRange (fileImage file) ∧ ∀ i < (count (fileImage file)).toNat,
    (localtime (timestamp (fileImage file) (logIndex (fileImage file) i))).isSome = true ∧
    ∃ q < descriptionSize, file[descriptionOff (logIndex (fileImage file) i) + q]? = some 0

instance (file : List UInt8) : Decidable (FileSound file) :=
  inferInstanceAs (Decidable (InRange _ ∧ _))

variable {box fresh : Image} {file : List UInt8} {s : State} {i j q : Nat}

/-- What a new process exports is in its file or, where the file ends, in its memory. -/
theorem reboot_errorLog (fresh : Image) (file : List UInt8) (hj : j < maxLogCount) :
    (errorLog (reboot fresh (some file)) j).isSome = true ↔
      (localtime (timestamp (reboot fresh (some file)) j)).isSome = true ∧
      ∃ q < descriptionSize,
        file.getD (descriptionOff j + q) (fresh (descriptionOff j + q)) = 0 := by
  rw [errorLog_isSome]
  have byte : ∀ q < descriptionSize, reboot fresh (some file) (descriptionOff j + q) =
      file.getD (descriptionOff j + q) (fresh (descriptionOff j + q)) := by
    intro q hq
    apply reboot_byte <;>
      simp only [descriptionOff, errorCodeOff, timestampOff, boxSize, logSize, maxLogCount,
        descriptionSize] at hq hj ⊢ <;> omega
  apply and_congr_right
  rintro -
  constructor
  · rintro ⟨q, hq, zero⟩
    exact ⟨q, hq, (byte q hq).symm.trans zero⟩
  · rintro ⟨q, hq, zero⟩
    exact ⟨q, hq, (byte q hq).trans zero⟩

/-- The file gives any new process a sound box exactly if it is sound itself. -/
theorem reboot_sound_iff (file : List UInt8) :
    (∀ fresh, Sound (reboot fresh (some file))) ↔ FileSound file := by
  have inside {j q : Nat} (zero : file[descriptionOff j + q]? = some 0) :
      descriptionOff j < file.length := by
    have := (List.getElem?_eq_some_iff.mp zero).1
    omega
  constructor
  · intro all
    -- A memory without zero bytes ends no description.
    obtain ⟨h, exported⟩ := all fun _ => 1
    obtain ⟨h', _, hcount, index⟩ :=
      inRange_congr h fun i hi => (reboot_fields (fun _ => 1) file hi).symm
    refine ⟨h', ?_⟩
    intro i hi
    have hlog := (export_isSome h).mp exported i (hcount ▸ hi)
    rw [← index, reboot_errorLog _ _ (logIndex_lt _ i)] at hlog
    obtain ⟨known, q, hq, zero⟩ := hlog
    have ends : file[descriptionOff (logIndex (fileImage file) i) + q]? = some 0 := by
      rw [List.getD_eq_getElem?_getD] at zero
      cases byte : file[descriptionOff (logIndex (fileImage file) i) + q]? with
      | none =>
        rw [byte] at zero
        cases zero
      | some b =>
        rw [byte] at zero
        exact congrArg some zero
    rw [reboot_timestamp _ (logIndex_lt _ i) (inside ends)] at known
    exact ⟨known, q, hq, ends⟩
  · rintro ⟨h, ends⟩ fresh
    obtain ⟨h', _, hcount, index⟩ :=
      inRange_congr h fun i hi => reboot_fields fresh file hi
    refine ⟨h', (export_isSome h').mpr ?_⟩
    intro i hi
    have lt : i < (ring (fileImage file) h).count := hcount ▸ hi
    obtain ⟨known, q, hq, zero⟩ := ends i lt
    rw [index, reboot_errorLog _ _ (logIndex_lt _ i),
      reboot_timestamp _ (logIndex_lt _ i) (inside zero)]
    refine ⟨known, q, hq, ?_⟩
    rw [List.getD_eq_getElem?_getD, zero]
    rfl

/-! ## Calls -/

theorem call_sound (sound : Sound s.box) (c : Call) :
    ∃ s', s.call c = some s' ∧ Sound s'.box := by
  obtain ⟨h, logs, list⟩ := sound.logs
  cases c with
  | log code text now written =>
    obtain ⟨box, h', ret, list'⟩ := log_list h list written
    refine ⟨_, ret, ?_⟩
    cases written with
    | none => exact sound_of_logs h' list'
    | some k => exact sound_of_logs h' list'
  | exportAll =>
    refine ⟨s, ?_, sound⟩
    rw [State.call, (export_eq_some h _).mpr ⟨logs, list, rfl⟩]
    rfl
  | clear removed =>
    obtain ⟨h', empty⟩ := ring_zeros s.box
    have list : (ring _ h').toList = ([] : List ErrorLog).map some := empty
    exact ⟨_, rfl, sound_of_logs h' list⟩

theorem calls_sound (sound : Sound s.box) (calls : List Call) :
    (execute State.call s calls).isSome = true := by
  induction calls generalizing s with
  | nil => rfl
  | cons c calls ih =>
    obtain ⟨s', ret, sound'⟩ := call_sound sound c
    rw [execute, ret]
    exact ih sound'

/-- A new process keeps its fields within `logs` and all its calls are answered, whatever
it finds in its memory, exactly if its file is sound. -/
theorem calls_answered_iff (file : List UInt8) :
    (∀ fresh, InRange (reboot fresh (some file)) ∧ ∀ calls,
      (execute State.call (State.blackboxInit ⟨fresh, some file⟩ true) calls).isSome = true) ↔
    FileSound file := by
  rw [← reboot_sound_iff]
  apply forall_congr'
  intro fresh
  constructor
  · rintro ⟨h, answered⟩
    refine ⟨h, ?_⟩
    have exported := answered [.exportAll]
    cases lines : blackboxExport (reboot fresh (some file)) with
    | some lines => rfl
    | none =>
      have stuck : (State.blackboxInit ⟨fresh, some file⟩ true).call .exportAll = none :=
        Option.map_eq_none_iff.mpr lines
      rw [execute, stuck] at exported
      cases exported
  · intro sound
    exact ⟨sound.1, calls_sound sound⟩

end

attribute [local instance] utc

example : FileSound [] := by decide +kernel

/-- One log of the last time that a `time_t` has. -/
example : ¬ FileSound ([0, 0, 0, 0, 1, 0, 0, 0] ++ List.replicate 7 255 ++ [127, 0, 0, 0, 0, 65, 0])
    := by decide +kernel

/-- A file whose `start` is `-1`. -/
def negativeStart : List UInt8 := [255, 255, 255, 255, 0, 0, 0, 0]

/-- The first log after it is written before the first slot. -/
theorem negative_start_outside : start (fileImage negativeStart) = -1 ∧ ∀ fresh,
    ¬ InRange (reboot fresh (some negativeStart)) ∧
    ∀ code text now written,
      (State.blackboxInit ⟨fresh, some negativeStart⟩ true).call (.log code text now written) =
        none := by
  refine ⟨by decide +kernel, ?_⟩
  intro fresh
  have hstart : start (reboot fresh (some negativeStart)) = -1 := by
    rw [start_congr fun i hi => reboot_fields fresh negativeStart (by omega)]
    decide +kernel
  have hcount : count (reboot fresh (some negativeStart)) = 0 := by
    rw [count_congr fun i _ hi => reboot_fields fresh negativeStart hi]
    decide +kernel
  constructor
  · intro h
    have nonneg := h.start_nonneg
    omega
  · intro code text now written
    have add : int (start (reboot fresh (some negativeStart)) +
        count (reboot fresh (some negativeStart))) = some (-1) := by
      rw [hstart, hcount]
      rfl
    have outside : slot ((-1 : Int).tmod maxLogCount) = none := by decide
    exact log_outside add outside

end LearnC.BlackBox
