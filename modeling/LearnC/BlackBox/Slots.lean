import Mathlib.Data.List.Basic
import LearnC.BlackBox.Log
import LearnC.Machine.Ring

/-! The logs of a box as a ring buffer: what each function reads and writes of it. -/

namespace LearnC.BlackBox

/-- `start` and `count` stay within `logs`. -/
structure InRange (box : Image) : Prop where
  start_nonneg : 0 ≤ start box
  start_lt : start box < maxLogCount
  count_nonneg : 0 ≤ count box
  count_le : count box ≤ maxLogCount

theorem inRange_iff {box : Image} : InRange box ↔ 0 ≤ start box ∧ start box < maxLogCount ∧
    0 ≤ count box ∧ count box ≤ maxLogCount := by
  constructor
  · rintro ⟨h₁, h₂, h₃, h₄⟩
    exact ⟨h₁, h₂, h₃, h₄⟩
  · rintro ⟨h₁, h₂, h₃, h₄⟩
    exact ⟨h₁, h₂, h₃, h₄⟩

instance (box : Image) : Decidable (InRange box) := decidable_of_iff' _ inRange_iff

/-- Where the export finds its `i`-th log. -/
def logIndex (box : Image) (i : Nat) : Nat := ((start box).toNat + i) % maxLogCount

/-- The slots that `start` and `count` choose. -/
def ring [TimeZone] (box : Image) (h : InRange box) : Ring (Option ErrorLog) maxLogCount where
  slots := errorLog box
  start := (start box).toNat
  count := (count box).toNat
  start_lt := by
    have := h.start_lt
    have := h.start_nonneg
    omega
  count_le := by
    have := h.count_le
    omega

section
variable {box box' : Image} {i j k : Nat} {v : Int} {now : BitVec 64} {code : BitVec 32}
  {text : Text}

/-! ## Fields -/

theorem field_set (box : Image) (off : Nat) (lo : -2 ^ 31 ≤ v) (hi : v < 2 ^ 31) :
    (BitVec.ofNat 32 ((box.set off 4 (BitVec.ofInt 32 v).toNat).get off 4)).toInt = v := by
  rw [Image.get_set (BitVec.isLt _), BitVec.ofNat_toNat]
  exact BitVec.toInt_ofInt_eq_self (by decide) lo hi

theorem start_setStart (lo : -2 ^ 31 ≤ v) (hi : v < 2 ^ 31) : start (setStart box v) = v := by
  rw [start]
  exact field_set box 0 lo hi

theorem count_setCount (lo : -2 ^ 31 ≤ v) (hi : v < 2 ^ 31) : count (setCount box v) = v := by
  rw [count]
  exact field_set box 4 lo hi

theorem start_congr (same : ∀ i < 4, box' i = box i) : start box' = start box := by
  rw [start, start, Image.get_congr fun i _ lt => same i (by omega)]

theorem count_congr (same : ∀ i, 4 ≤ i → i < 8 → box' i = box i) : count box' = count box := by
  rw [count, count, Image.get_congr fun i le lt => same i le (by omega)]

theorem timestamp_congr (same : ∀ i, timestampOff j ≤ i → i < timestampOff j + 8 → box' i = box i) :
    timestamp box' j = timestamp box j := by
  rw [timestamp, timestamp, Image.get_congr same]

theorem errorCode_congr (same : ∀ i, errorCodeOff j ≤ i → i < errorCodeOff j + 4 → box' i = box i) :
    errorCode box' j = errorCode box j := by
  rw [errorCode, errorCode, Image.get_congr same]

@[simp] theorem start_setCount : start (setCount box v) = start box :=
  start_congr fun _ _ => Image.set_out (by omega)

@[simp] theorem count_setStart : count (setStart box v) = count box :=
  count_congr fun _ _ _ => Image.set_out (by omega)

/-- An entry is written to its own slot and nowhere else. -/
theorem setErrorLog_out (h : i < timestampOff j ∨ descriptionOff j + descriptionSize ≤ i) :
    setErrorLog box j now code text i = box i := by
  simp only [descriptionOff, errorCodeOff, descriptionSize] at h
  simp only [setErrorLog, descriptionOff, errorCodeOff, descriptionSize]
  rw [Image.set_out (by omega), Image.strncpy_out (by omega), Image.set_out (by omega),
    Image.set_out (by omega)]

theorem start_setErrorLog : start (setErrorLog box j now code text) = start box := by
  apply start_congr
  intro i lt
  apply setErrorLog_out
  left
  unfold timestampOff
  omega

theorem count_setErrorLog : count (setErrorLog box j now code text) = count box := by
  apply count_congr
  intro i _ lt
  apply setErrorLog_out
  left
  unfold timestampOff
  omega

theorem int_eq (lo : -2 ^ 31 ≤ v) (hi : v < 2 ^ 31) : int v = some v := if_pos ⟨lo, hi⟩

theorem logIndex_lt (box : Image) (i : Nat) : logIndex box i < maxLogCount :=
  Nat.mod_lt _ (by decide)

theorem slot_natCast (n : Nat) : slot ((n : Int).tmod maxLogCount) = some (n % maxLogCount) := by
  have lt : n % maxLogCount < maxLogCount := Nat.mod_lt n (by decide)
  rw [← Int.ofNat_tmod, slot, if_pos ⟨by omega, by omega⟩, Int.toNat_natCast]

/-- The printed lines of logs, numbered from `i + 1` on. -/
def numbered (i : Nat) : List ErrorLog → List Line
  | [] => []
  | log :: rest => ⟨i + 1, log, errorCodeToString log.errorCode⟩ :: numbered (i + 1) rest

theorem numbered_inj {logs logs' : List ErrorLog} (h : numbered i logs = numbered i logs') :
    logs = logs' := by
  induction logs generalizing i logs' with
  | nil =>
    cases logs' with
    | nil => rfl
    | cons log' logs' => cases h
  | cons log logs ih =>
    cases logs' with
    | nil => cases h
    | cons log' logs' =>
      obtain ⟨first, rest⟩ := List.cons.inj h
      rw [(Line.mk.inj first).2.1, ih rest]

variable [TimeZone] {now : Now} {log : ErrorLog}

/-! ## Logs -/

theorem errorLog_eq_some : errorLog box j = some log ↔ timestamp box j = log.timestamp ∧
    errorCode box j = log.errorCode ∧ (localtime log.timestamp).isSome = true ∧
    box.cString (descriptionOff j) descriptionSize = some log.description := by
  obtain ⟨time, code, description⟩ := log
  simp only [errorLog, Option.bind_eq_bind, Option.bind_eq_some_iff, Option.some.injEq,
    ErrorLog.mk.injEq, Option.isSome_iff_exists]
  constructor
  · rintro ⟨seconds, known, _, string, rfl, rfl, rfl⟩
    exact ⟨rfl, rfl, ⟨seconds, known⟩, string⟩
  · rintro ⟨rfl, rfl, ⟨seconds, known⟩, string⟩
    exact ⟨seconds, known, _, string, rfl, rfl, rfl⟩

theorem errorLog_congr
    (same : ∀ i, timestampOff j ≤ i → i < descriptionOff j + descriptionSize → box' i = box i) :
    errorLog box' j = errorLog box j := by
  simp only [descriptionOff, errorCodeOff, descriptionSize] at same
  have time : timestamp box' j = timestamp box j :=
    timestamp_congr fun i le lt => same i le (by omega)
  have code : errorCode box' j = errorCode box j :=
    errorCode_congr fun i le lt => same i (by unfold errorCodeOff at le; omega)
      (by unfold errorCodeOff at lt; omega)
  have text : box'.cString (descriptionOff j) descriptionSize =
      box.cString (descriptionOff j) descriptionSize :=
    Image.cString_congr fun i le lt => same i (by unfold descriptionOff errorCodeOff at le; omega)
      (by unfold descriptionOff errorCodeOff descriptionSize at lt; omega)
  rw [errorLog, errorLog, time, code, text]

@[simp] theorem errorLog_setStart : errorLog (setStart box v) j = errorLog box j := by
  apply errorLog_congr
  intro i le _
  apply Image.set_out
  unfold timestampOff at le
  omega

@[simp] theorem errorLog_setCount : errorLog (setCount box v) j = errorLog box j := by
  apply errorLog_congr
  intro i le _
  apply Image.set_out
  unfold timestampOff at le
  omega

theorem errorLog_setErrorLog : errorLog (setErrorLog box j now code text) j =
    some ⟨now, code, text.val.take (descriptionSize - 1)⟩ := by
  have time : timestamp (setErrorLog box j now code text) j = now := by
    have bytes : (setErrorLog box j now code text).get (timestampOff j) 8 = now.val.toNat := by
      simp only [setErrorLog, descriptionOff, errorCodeOff, descriptionSize]
      rw [Image.get_set_out (by omega), Image.strncpy, Image.get_fill_out (by omega),
        Image.get_set_out (by omega)]
      exact Image.get_set now.val.isLt
    rw [timestamp, bytes, BitVec.ofNat_toNat]
    rfl
  have number : errorCode (setErrorLog box j now code text) j = code := by
    have bytes : (setErrorLog box j now code text).get (errorCodeOff j) 4 = code.toNat := by
      simp only [setErrorLog, descriptionOff, errorCodeOff, descriptionSize]
      rw [Image.get_set_out (by omega), Image.strncpy, Image.get_fill_out (by omega)]
      exact Image.get_set code.isLt
    rw [errorCode, bytes, BitVec.ofNat_toNat]
    rfl
  have string : (setErrorLog box j now code text).cString (descriptionOff j) descriptionSize =
      some (text.val.take (descriptionSize - 1)) :=
    Image.cString_strncpy text.property (descriptionSize - 1)
  exact errorLog_eq_some.mpr ⟨time, number, now.property, string⟩

/-- A description ends before its field does. -/
theorem description_inside (h : errorLog box j = some log) (hj : j < maxLogCount) :
    descriptionOff j + log.description.length < boxSize := by
  have lt := (Image.cString_eq_some.mp (errorLog_eq_some.mp h).2.2.2).1
  simp only [descriptionOff, errorCodeOff, timestampOff, boxSize, logSize, descriptionSize,
    maxLogCount] at lt hj ⊢
  omega

theorem errorLog_setErrorLog_ne (ne : i ≠ j) :
    errorLog (setErrorLog box j now code text) i = errorLog box i := by
  apply errorLog_congr
  intro k le lt
  apply setErrorLog_out
  simp only [descriptionOff, errorCodeOff, descriptionSize, timestampOff, logSize] at le lt ⊢
  omega

theorem errorLog_isSome : (errorLog box j).isSome = true ↔
    (localtime (timestamp box j)).isSome = true ∧
      ∃ q < descriptionSize, box (descriptionOff j + q) = 0 := by
  rw [← Image.cString_isSome, Option.isSome_iff_exists]
  constructor
  · rintro ⟨log, h⟩
    obtain ⟨time, _, known, string⟩ := errorLog_eq_some.mp h
    exact ⟨time ▸ known, Option.isSome_iff_exists.mpr ⟨_, string⟩⟩
  · rintro ⟨known, ends⟩
    obtain ⟨description, string⟩ := Option.isSome_iff_exists.mp ends
    exact ⟨⟨_, _, description⟩, errorLog_eq_some.mpr ⟨rfl, rfl, known, string⟩⟩

/-! ## Logging -/

theorem ring_start (h : InRange box) : (ring box h).start = (start box).toNat := rfl

theorem ring_count (h : InRange box) : (ring box h).count = (count box).toNat := rfl

theorem ring_slot (h : InRange box) (i : Nat) : (ring box h).slot i = logIndex box i := rfl

theorem start_eq (h : InRange box) : start box = (ring box h).start :=
  (Int.toNat_of_nonneg h.start_nonneg).symm

theorem count_eq (h : InRange box) : count box = (ring box h).count :=
  (Int.toNat_of_nonneg h.count_nonneg).symm

/-- The same fields choose the same slots. -/
theorem inRange_congr (h : InRange box) (same : ∀ i < 8, box' i = box i) :
    ∃ h' : InRange box', (ring box' h').start = (ring box h).start ∧
      (ring box' h').count = (ring box h).count ∧ ∀ i, logIndex box' i = logIndex box i := by
  have hstart : start box' = start box := start_congr fun i lt => same i (by omega)
  have hcount : count box' = count box := count_congr fun i _ lt => same i lt
  have h' : InRange box' := by
    constructor
    · exact hstart ▸ h.start_nonneg
    · exact hstart ▸ h.start_lt
    · exact hcount ▸ h.count_nonneg
    · exact hcount ▸ h.count_le
  refine ⟨h', ?_, ?_, ?_⟩
  · rw [ring_start, ring_start, hstart]
  · rw [ring_count, ring_count, hcount]
  · intro i
    rw [logIndex, logIndex, hstart]

theorem count_logs (h : InRange box) {logs : List ErrorLog}
    (list : (ring box h).toList = logs.map some) : (ring box h).count = logs.length := by
  rw [← Ring.length_toList, list, List.length_map]

/-- A log that can be exported is in its slot. -/
theorem log_at (h : InRange box) {logs : List ErrorLog} (list : (ring box h).toList = logs.map some)
    (hi : i < (ring box h).count) :
    ∃ log, logs[i]? = some log ∧ errorLog box (logIndex box i) = some log := by
  have lt : i < (ring box h).toList.length := by rwa [Ring.length_toList]
  have entry : (logs.map some)[i]? = some (errorLog box (logIndex box i)) := by
    rw [← list, List.getElem?_eq_getElem lt, Ring.getElem_toList]
    rfl
  rw [List.getElem?_map] at entry
  obtain ⟨log, hlog, eq⟩ := Option.map_eq_some_iff.mp entry
  exact ⟨log, hlog, eq.symm⟩

/-- The index of the `i`-th log from `start` on. -/
theorem index_eq (h : InRange box) (hi : i ≤ maxLogCount) :
    ∃ sum, int (start box + i) = some sum ∧
      slot (sum.tmod maxLogCount) = some ((ring box h).slot i) := by
  have lt := (ring box h).start_lt
  have max : maxLogCount = 100 := rfl
  refine ⟨((ring box h).start + i : Nat), ?_, slot_natCast _⟩
  rw [start_eq h]
  exact int_eq (by omega) (by omega)

/-- The logs once an entry is written. -/
theorem errorLog_update (same : ∀ i, errorLog box' i = errorLog box i) :
    errorLog (setErrorLog box' j now code text) = Function.update (errorLog box) j
      (some ⟨now, code, text.val.take (descriptionSize - 1)⟩) := by
  funext i
  by_cases hi : i = j
  · subst hi
    rw [errorLog_setErrorLog, Function.update_self]
  · rw [errorLog_setErrorLog_ne hi, same, Function.update_of_ne hi]

/-- The two fields go on as those of the ring do. -/
theorem advance_spec (h : InRange box) (x : Option ErrorLog) :
    ∃ box', advance box = some box' ∧ (∀ i, errorLog box' i = errorLog box i) ∧
      start box' = ((ring box h).push x).start ∧ count box' = ((ring box h).push x).count := by
  have hstart := (ring box h).start_lt
  have hcount := (ring box h).count_le
  have max : maxLogCount = 100 := rfl
  by_cases full : (ring box h).count = maxLogCount
  · have next : int (start box + 1) = some (((ring box h).start + 1 : Nat) : Int) := by
      rw [start_eq h]
      exact int_eq (by omega) (by omega)
    have lt : ((ring box h).start + 1) % maxLogCount < 100 := Nat.mod_lt _ (by decide)
    refine ⟨setStart box (((ring box h).start + 1) % maxLogCount : Nat), ?_, ?_, ?_, ?_⟩
    · rw [advance, if_pos (by rw [count_eq h, full]), next, Int.ofNat_tmod]
      rfl
    · intro i
      exact errorLog_setStart
    · rw [start_setStart (by omega) (by omega)]
      simp [Ring.push, full]
    · rw [count_setStart, count_eq h]
      simp [Ring.push, full]
  · have next : int (count box + 1) = some (((ring box h).count + 1 : Nat) : Int) := by
      rw [count_eq h]
      exact int_eq (by omega) (by omega)
    refine ⟨setCount box ((ring box h).count + 1 : Nat), ?_, ?_, ?_, ?_⟩
    · rw [advance, if_neg (by rw [count_eq h]; omega), next]
      rfl
    · intro i
      exact errorLog_setCount
    · rw [start_setCount, start_eq h]
      simp [Ring.push, full]
    · rw [count_setCount (by omega) (by omega)]
      simp [Ring.push, full]

/-- `blackbox_log` puts an entry into the ring. -/
theorem log_spec {s : State} (h : InRange s.box) (written : Option Nat) :
    ∃ box h', s.blackboxLog code text now written =
        some (State.blackboxSaveToFile ⟨box, s.file⟩ written) ∧
      ring box h' =
        (ring s.box h).push (some ⟨now, code, text.val.take (descriptionSize - 1)⟩) := by
  let x : ErrorLog := ⟨now, code, text.val.take (descriptionSize - 1)⟩
  obtain ⟨sum, add, index⟩ := index_eq h (ring s.box h).count_le
  rw [← count_eq h] at add
  obtain ⟨box', advanced, logs, hstart, hcount⟩ := advance_spec h (some x)
  let box := setErrorLog box' ((ring s.box h).slot (ring s.box h).count) now code text
  replace hstart : start box = _ := start_setErrorLog.trans hstart
  replace hcount : count box = _ := count_setErrorLog.trans hcount
  have inRange : InRange box := by
    have start_lt := ((ring s.box h).push (some x)).start_lt
    have count_le := ((ring s.box h).push (some x)).count_le
    constructor <;> omega
  refine ⟨box, inRange, ?_, ?_⟩
  · rw [State.blackboxLog, add, Option.bind_eq_bind, Option.bind_some, advanced,
      Option.bind_eq_bind, Option.bind_some, index]
    rfl
  · apply Ring.ext
    · exact errorLog_update logs
    · rw [ring_start, hstart, Int.toNat_natCast]
    · rw [ring_count, hcount, Int.toNat_natCast]

theorem push_list (h : InRange box) (h' : InRange box') {logs : List ErrorLog}
    (list : (ring box h).toList = logs.map some)
    (push : ring box' h' = (ring box h).push (some log)) :
    (ring box' h').toList = ((logs ++ [log]).rtake maxLogCount).map some := by
  rw [push, Ring.toList_push, list, map_rtake, List.map_append, List.map_singleton]

/-- A box whose logs can be exported keeps the last of them and the new one. -/
theorem log_list {s : State} (h : InRange s.box) {logs : List ErrorLog}
    (list : (ring s.box h).toList = logs.map some) (written : Option Nat) :
    ∃ box h', s.blackboxLog code text now written =
        some (State.blackboxSaveToFile ⟨box, s.file⟩ written) ∧
      (ring box h').toList = ((logs ++ [ErrorLog.mk now code
        (text.val.take (descriptionSize - 1))]).rtake maxLogCount).map some := by
  obtain ⟨box, h', ret, push⟩ := log_spec h written
  exact ⟨box, h', ret, push_list h h' list push⟩

/-! ## The export -/

/-- The loop lists the logs from the `i`-th on, if their descriptions end. -/
theorem exportLoop_eq_some (h : InRange box) {left i : Nat} (hi : i + left = (ring box h).count)
    (lines : List Line) : exportLoop box left i = some lines ↔
      ∃ logs : List ErrorLog, (ring box h).toList.drop i = logs.map some ∧
        lines = numbered i logs := by
  induction left generalizing i lines with
  | zero =>
    have done : (ring box h).toList.drop i = [] := by
      rw [List.drop_eq_nil_iff, Ring.length_toList]
      omega
    rw [done]
    constructor
    · intro ret
      cases ret
      exact ⟨[], rfl, rfl⟩
    · rintro ⟨logs, empty, rfl⟩
      cases List.map_eq_nil_iff.mp empty.symm
      rfl
  | succ left ih =>
    have lt : i < (ring box h).toList.length := by
      rw [Ring.length_toList]
      omega
    have max := (ring box h).count_le
    obtain ⟨sum, add, index⟩ := index_eq h (i := i) (by omega)
    rw [List.drop_eq_getElem_cons lt, Ring.getElem_toList]
    have loop : exportLoop box (left + 1) i = (errorLog box ((ring box h).slot i)).bind fun log =>
        (exportLoop box left (i + 1)).bind fun rest =>
          some (⟨i + 1, log, errorCodeToString log.errorCode⟩ :: rest) := by
      simp only [exportLoop, add, index, Option.bind_eq_bind, Option.bind_some]
    rw [loop]
    constructor
    · intro ret
      obtain ⟨log, hlog, ret⟩ := Option.bind_eq_some_iff.mp ret
      obtain ⟨rest, hrest, ret⟩ := Option.bind_eq_some_iff.mp ret
      obtain ⟨logs, tail, rfl⟩ := (ih (by omega) rest).mp hrest
      cases ret
      exact ⟨log :: logs, congrArg₂ List.cons hlog tail, rfl⟩
    · rintro ⟨logs, list, rfl⟩
      cases logs with
      | nil => cases list
      | cons log logs =>
        obtain ⟨hlog, tail⟩ := List.cons.inj list
        have rest := (ih (by omega) (numbered (i + 1) logs)).mpr ⟨logs, tail, rfl⟩
        rw [show errorLog box ((ring box h).slot i) = some log from hlog, rest]
        rfl

/-- The export lists the ring, if all its descriptions end. -/
theorem export_eq_some (h : InRange box) (lines : List Line) : blackboxExport box = some lines ↔
    ∃ logs : List ErrorLog, (ring box h).toList = logs.map some ∧ lines = numbered 0 logs :=
  exportLoop_eq_some h (Nat.zero_add _) lines

/-- The box can be exported. -/
def Sound (box : Image) : Prop := InRange box ∧ (blackboxExport box).isSome = true

instance (box : Image) : Decidable (Sound box) :=
  inferInstanceAs (Decidable (InRange box ∧ _))

theorem Sound.logs (sound : Sound box) :
    ∃ (h : InRange box) (logs : List ErrorLog), (ring box h).toList = logs.map some := by
  obtain ⟨h, some⟩ := sound
  obtain ⟨lines, ret⟩ := Option.isSome_iff_exists.mp some
  obtain ⟨logs, list, _⟩ := (export_eq_some h lines).mp ret
  exact ⟨h, logs, list⟩

theorem sound_of_logs (h : InRange box) {logs : List ErrorLog}
    (list : (ring box h).toList = logs.map some) : Sound box :=
  ⟨h, Option.isSome_iff_exists.mpr ⟨_, (export_eq_some h _).mpr ⟨logs, list, rfl⟩⟩⟩

theorem export_isSome (h : InRange box) : (blackboxExport box).isSome = true ↔
    ∀ i < (ring box h).count, (errorLog box (logIndex box i)).isSome = true := by
  constructor
  · intro some i hi
    obtain ⟨h', logs, list⟩ := Sound.logs ⟨h, some⟩
    obtain ⟨log, _, hlog⟩ := log_at h' list hi
    exact Option.isSome_iff_exists.mpr ⟨log, hlog⟩
  · intro all
    have every : ∀ x ∈ (ring box h).toList, x.isSome = true := by
      intro x hx
      obtain ⟨i, hi, rfl⟩ := List.mem_map.mp hx
      exact all i (List.mem_range.mp hi)
    obtain ⟨logs, list⟩ := exists_map_some every
    exact (sound_of_logs h list).2

end

end LearnC.BlackBox
