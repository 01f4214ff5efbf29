import LearnC.BlackBox.Sessions

/-! What is left of the logs when a process dies while it saves them. -/

namespace LearnC.BlackBox

section
variable {box : Image} {i k : Nat}

theorem get_of_nonneg {off : Nat} (h : 0 ≤ (BitVec.ofNat 32 (box.get off 4)).toInt) :
    (box.get off 4 : Int) = (BitVec.ofNat 32 (box.get off 4)).toInt := by
  have lt : box.get off 4 < 2 ^ 32 := Image.get_lt (n := 4)
  rw [BitVec.toInt_eq_toNat_cond, BitVec.toNat_ofNat, Nat.mod_eq_of_lt lt] at h ⊢
  split at h <;> split <;> omega

theorem load_fields (h : InRange box) (hk : 5 ≤ k) (fresh : Image) (hi : i < 8) :
    reboot fresh (some ((bytes box).take k)) i = box i := by
  have size : boxSize = 27208 := rfl
  rw [load_byte]
  split
  · rfl
  · next cut =>
    -- The rest of a count of at most a hundred is zero, and so is what it was set to.
    have small : box.get 4 4 < 256 := by
      have le := h.count_le
      have nonneg := h.count_nonneg
      have max : maxLogCount = 100 := rfl
      rw [count] at le nonneg
      have eq := get_of_nonneg nonneg
      omega
    rw [Image.get_small small (by omega) (by omega)]
    exact cleared_fields fresh hi

end

section
variable [TimeZone]

/-- The descriptions in use lie in the first `k` bytes, with the zero bytes that end them. -/
def Reaches (box : Image) (k : Nat) : Prop :=
  ∀ i < (count box).toNat, ∀ log, errorLog box (logIndex box i) = some log →
    descriptionOff (logIndex box i) + log.description.length < k

instance (box : Image) (k : Nat) : Decidable (Reaches box k) :=
  inferInstanceAs (Decidable (∀ i < _, ∀ log ∈ errorLog box (logIndex box i), _))

/-- The first `k` bytes have the descriptions that are in use once `text` is logged: the
new one, and the old ones but for the oldest when all slots are taken. -/
def Covers (box : Image) (text : Text) (k : Nat) : Prop :=
  descriptionOff (logIndex box (count box).toNat) +
      (text.val.take (descriptionSize - 1)).length < k ∧
    ∀ i < (count box).toNat, (count box = maxLogCount → 0 < i) →
      ∀ log, errorLog box (logIndex box i) = some log →
        descriptionOff (logIndex box i) + log.description.length < k

instance (box : Image) (text : Text) (k : Nat) : Decidable (Covers box text k) :=
  inferInstanceAs (Decidable (_ ∧ ∀ i < _, _ → ∀ log ∈ errorLog box (logIndex box i), _))

variable {box box' fresh : Image} {i j k : Nat} {v : UInt8} {log log' : ErrorLog}
  {logs : List ErrorLog}

theorem reaches_iff (h : InRange box) (h' : InRange box') {text : Text}
    (description : log.description = text.val.take (descriptionSize - 1))
    (push : ring box' h' = (ring box h).push (some log)) :
    Reaches box' k ↔ Covers box text k := by
  let P (j : Nat) (x : Option ErrorLog) : Prop :=
    ∀ log, x = some log → descriptionOff j + log.description.length < k
  have every : Reaches box' k ↔ ∀ i < (ring box' h').count,
      P ((ring box' h').slot i) ((ring box' h').slots ((ring box' h').slot i)) := Iff.rfl
  have stays : ∀ i, (ring box h).dropped ≤ i ↔ (count box = maxLogCount → 0 < i) := by
    intro i
    rw [Ring.dropped, count_eq h, Int.natCast_inj]
    split
    · next full => simp [full, Nat.one_le_iff_ne_zero, Nat.pos_iff_ne_zero]
    · next more => simp [more]
  rw [every, push, Ring.forall_push, Covers, ← description]
  apply and_congr
  · constructor
    · intro new
      exact new log rfl
    · rintro new _ ⟨⟩
      exact new
  · simp only [stays]
    exact Iff.rfl

theorem errorLog_keep (h : errorLog box j = some log)
    (same : ∀ i, timestampOff j ≤ i → i ≤ descriptionOff j + log.description.length →
      box' i = box i) : errorLog box' j = some log := by
  obtain ⟨time, code, known, string⟩ := errorLog_eq_some.mp h
  have before : errorCodeOff j + 4 = descriptionOff j ∧ timestampOff j + 8 = errorCodeOff j :=
    ⟨rfl, rfl⟩
  have time' : timestamp box' j = timestamp box j :=
    timestamp_congr fun i le lt => same i le (by omega)
  have code' : errorCode box' j = errorCode box j :=
    errorCode_congr fun i le lt => same i (by omega) (by omega)
  have string' : box'.cString (descriptionOff j) descriptionSize = some log.description :=
    Image.cString_keep string fun i le ub => same i (by omega) ub
  exact errorLog_eq_some.mpr ⟨time'.trans time, code'.trans code, known, string'⟩

theorem errorLog_longer (h : errorLog box j = some log)
    (same : ∀ i, descriptionOff j ≤ i → i < descriptionOff j + log.description.length →
      box' i = box i)
    (ne : box' (descriptionOff j + log.description.length) ≠ 0)
    (h' : errorLog box' j = some log') :
    log'.description[log.description.length]? =
      some (box' (descriptionOff j + log.description.length)) :=
  Image.cString_longer (errorLog_eq_some.mp h).2.2.2 same ne (errorLog_eq_some.mp h').2.2.2

theorem load_nothing (fresh box : Image) (hk : k ≤ 4) :
    blackboxExport (reboot fresh (some ((bytes box).take k))) = some [] := by
  have same : ∀ i, 4 ≤ i → i < 8 →
      reboot fresh (some ((bytes box).take k)) i =
        setCount (setStart fresh 0) 0 i := by
    intro i le _
    rw [load_byte, if_neg (by omega)]
  have none : count (reboot fresh (some ((bytes box).take k))) = 0 :=
    (count_congr same).trans (count_setCount (by decide) (by decide))
  rw [blackboxExport, none]
  rfl

theorem load_inRange (h : InRange box) (hk : 5 ≤ k) (fresh : Image) :
    ∃ h' : InRange (reboot fresh (some ((bytes box).take k))),
      (ring _ h').start = (ring box h).start ∧ (ring _ h').count = (ring box h).count ∧
      ∀ i, logIndex (reboot fresh (some ((bytes box).take k))) i = logIndex box i :=
  inRange_congr h fun _ hi => load_fields h hk fresh hi

theorem reaches_late (h : InRange box) (list : (ring box h).toList = logs.map some)
    (more : 0 < (ring box h).count) (reaches : Reaches box k) : 5 ≤ k := by
  obtain ⟨log, _, hlog⟩ := log_at h list more
  have within := reaches 0 more log hlog
  simp only [descriptionOff, errorCodeOff, timestampOff] at within
  omega

/-- A file that reaches all descriptions in use gives back their logs. -/
theorem load_whole (h : InRange box) (list : (ring box h).toList = logs.map some) (hk : 5 ≤ k)
    (reaches : Reaches box k) (fresh : Image) :
    blackboxExport (reboot fresh (some ((bytes box).take k))) =
      blackboxExport box := by
  obtain ⟨h', hstart, hcount, _⟩ := load_inRange h hk fresh
  have list' := (Ring.toList_congr hstart hcount ?_).trans list
  · exact ((export_eq_some h' _).mpr ⟨logs, list', rfl⟩).trans
      ((export_eq_some h _).mpr ⟨logs, list, rfl⟩).symm
  · intro i hi
    obtain ⟨log, _, hlog⟩ := log_at h list hi
    have within := reaches i hi log hlog
    have inside := description_inside hlog (logIndex_lt box i)
    rw [ring_slot]
    refine (errorLog_keep hlog ?_).trans hlog.symm
    intro q _ ub
    rw [load_byte, if_pos]
    exact Nat.lt_min.mpr ⟨Nat.lt_of_le_of_lt ub within, Nat.lt_of_le_of_lt ub inside⟩

theorem export_longer (h : InRange box) (fields : ∀ i < 8, box' i = box i)
    (hi : i < (ring box h).count) (hlog : errorLog box (logIndex box i) = some log)
    (same : ∀ q, descriptionOff (logIndex box i) ≤ q →
      q < descriptionOff (logIndex box i) + log.description.length → box' q = box q)
    (hv : box' (descriptionOff (logIndex box i) + log.description.length) = v) (ne : v ≠ 0)
    (ret : blackboxExport box' = some (numbered 0 logs)) :
    ∃ log', logs[i]? = some log' ∧ log'.description[log.description.length]? = some v := by
  obtain ⟨h', _, hcount, index⟩ := inRange_congr h fields
  obtain ⟨logs', list, eq⟩ := (export_eq_some h' _).mp ret
  rw [numbered_inj eq]
  obtain ⟨log', hget, hlog'⟩ := log_at h' list (hcount ▸ hi)
  rw [index] at hlog'
  rw [← hv] at ne ⊢
  exact ⟨log', hget, errorLog_longer hlog same ne hlog'⟩

/-- Where the file ends before one of them does, what is found in its place decides. -/
theorem load_torn (h : InRange box) (list : (ring box h).toList = logs.map some) (hk : 5 ≤ k)
    (torn : ¬ Reaches box k) :
    ∃ (i : Nat) (log : ErrorLog), logs[i]? = some log ∧ ∀ v : UInt8, v ≠ 0 → ∃ fresh,
      ∀ logs' : List ErrorLog,
        blackboxExport (reboot fresh (some ((bytes box).take k))) = some (numbered 0 logs') →
        ∃ log', logs'[i]? = some log' ∧ log'.description[log.description.length]? = some v := by
  rw [Reaches] at torn
  push Not at torn
  obtain ⟨i, hi, log, hlog, le⟩ := torn
  obtain ⟨_, hget, same⟩ := log_at h list hi
  rw [hlog] at same
  cases same
  have first : 8 ≤ descriptionOff (logIndex box i) := by
    simp only [descriptionOff, errorCodeOff, timestampOff]
    omega
  refine ⟨i, log, hget, ?_⟩
  intro v ne
  let p := descriptionOff (logIndex box i) + log.description.length
  refine ⟨fun q => if q = p then v else box q, ?_⟩
  intro logs' ret
  have found : ∀ q, 8 ≤ q →
      reboot (fun q => if q = p then v else box q) (some ((bytes box).take k)) q =
        if q = p then v else box q := by
    intro q hq
    rw [load_byte]
    split
    · next lt =>
      have ne : q ≠ p := by
        rintro rfl
        exact absurd (Nat.lt_min.mp lt).1 (Nat.not_lt.mpr le)
      rw [if_neg ne]
    · exact cleared_logs _ hq
  apply export_longer h (fun q hq => load_fields h hk _ hq) hi hlog ?_ ?_ ne ret
  · intro q lb ub
    rw [found q (by omega), if_neg (by omega)]
  · rw [found p (by omega), if_pos rfl]

/-- A file cut off before the count takes the place of an empty box only. -/
theorem prefix_early {old : Image} {oldLogs : List ErrorLog} (hold : InRange old)
    (oldList : (ring old hold).toList = oldLogs.map some) (h : InRange box)
    (list : (ring box h).toList = logs.map some) (more : 0 < (ring box h).count) (hk : k ≤ 4) :
    (∀ fresh,
      blackboxExport (reboot fresh (some ((bytes box).take k))) = blackboxExport old ∨
      blackboxExport (reboot fresh (some ((bytes box).take k))) = blackboxExport box) ↔
    count old = 0 := by
  have oldExport := (export_eq_some hold _).mpr ⟨_, oldList, rfl⟩
  have newExport := (export_eq_some h _).mpr ⟨_, list, rfl⟩
  simp only [load_nothing _ box hk, oldExport, newExport]
  rw [count_eq hold, count_logs hold oldList]
  rw [count_logs h list] at more
  constructor
  · intro all
    rcases all box with eq | eq
    · cases oldLogs with
      | nil => rfl
      | cons log oldLogs => cases eq
    · cases logs with
      | nil => exact absurd more (Nat.lt_irrefl 0)
      | cons log logs => cases eq
  · intro zero fresh
    left
    rw [List.eq_nil_of_length_eq_zero (Int.natCast_eq_zero.mp zero)]
    rfl

/-- A file with the count gives the old logs or the new ones for any memory exactly if
it reaches all descriptions: in the place of what is missing two memories differ. -/
theorem prefix_late {old : Image} {oldLogs : List ErrorLog} (hold : InRange old)
    (oldList : (ring old hold).toList = oldLogs.map some) (h : InRange box)
    (list : (ring box h).toList = logs.map some) (hk : 5 ≤ k) :
    (∀ fresh,
      blackboxExport (reboot fresh (some ((bytes box).take k))) = blackboxExport old ∨
      blackboxExport (reboot fresh (some ((bytes box).take k))) = blackboxExport box) ↔
    Reaches box k := by
  have oldExport := (export_eq_some hold _).mpr ⟨_, oldList, rfl⟩
  have newExport := (export_eq_some h _).mpr ⟨_, list, rfl⟩
  constructor
  · intro all
    by_contra torn
    obtain ⟨i, log, hget, alter⟩ := load_torn h list hk torn
    have isOld (v : UInt8) (ne : v ≠ 0) : ∃ log', oldLogs[i]? = some log' ∧
        log'.description[log.description.length]? = some v := by
      obtain ⟨fresh, found⟩ := alter v ne
      rcases all fresh with eq | eq
      · exact found oldLogs (eq.trans oldExport)
      · obtain ⟨log', hget', longer⟩ := found logs (eq.trans newExport)
        cases hget.symm.trans hget'
        simp at longer
    obtain ⟨log₁, hget₁, one⟩ := isOld 1 (by decide)
    obtain ⟨log₂, hget₂, two⟩ := isOld 2 (by decide)
    cases hget₁.symm.trans hget₂
    cases one.symm.trans two
  · intro reaches fresh
    exact Or.inr (load_whole h list hk reaches fresh)

/-- A crash during a save leaves the logs from before or after it, whatever a new
process finds in its memory, exactly if the file has all descriptions then in use
(or there were no logs, and it does not reach the count). -/
theorem crash_keeps_logs_iff {s s' : State} {code : BitVec 32} {text : Text} {now : Now}
    (sound : Sound s.box) (ret : s.blackboxLog code text now (some k) = some s') :
    (∀ fresh,
      blackboxExport (reboot fresh s'.file) = blackboxExport s.box ∨
      blackboxExport (reboot fresh s'.file) = blackboxExport s'.box) ↔
    (count s.box = 0 ∧ k ≤ 4) ∨ Covers s.box text k := by
  obtain ⟨h, logs, list⟩ := sound.logs
  obtain ⟨box, h', ok, push⟩ := log_spec h (some k)
  have list' := push_list h h' list push
  cases ok.symm.trans ret
  have more : 0 < (ring box h').count := by
    rw [count_logs h' list']
    exact length_rtake_append_pos (by decide)
  show (∀ fresh,
      blackboxExport (reboot fresh (some ((bytes box).take k))) = blackboxExport s.box ∨
      blackboxExport (reboot fresh (some ((bytes box).take k))) = blackboxExport box) ↔
    (count s.box = 0 ∧ k ≤ 4) ∨ Covers s.box text k
  rw [← reaches_iff h h' rfl push]
  rcases Nat.lt_or_ge 4 k with hk | hk
  · rw [prefix_late h list h' list' hk]
    simp only [Nat.not_le.mpr hk, and_false, false_or]
  · rw [prefix_early h list h' list' more hk]
    have unreached : ¬ Reaches box k := by
      intro reaches
      have late := reaches_late h' list' more reaches
      omega
    simp only [hk, unreached, and_true, or_false]

end

attribute [local instance] utc

def oneLog : State :=
  ((State.boot fun _ => 0).blackboxLog 1001 ⟨[65], by decide⟩ 10 (some boxSize)).getD
    (State.boot fun _ => 0)

def later : Now := ⟨BitVec.ofNat 64 20, by decide⟩

/-- The next, where the crash leaves `k` bytes. -/
def crashed (k : Nat) : State :=
  (oneLog.blackboxLog 1003 ⟨[66], by decide⟩ later (some k)).getD oneLog

/-- The last byte that is needed is the one that ends the second description. -/
theorem short_prefix_enough : Covers oneLog.box ⟨[66], by decide⟩ 294 ∧ ∀ fresh,
    blackboxExport (reboot fresh (crashed 294).file) = blackboxExport oneLog.box ∨
    blackboxExport (reboot fresh (crashed 294).file) = blackboxExport (crashed 294).box := by
  have sound : Sound oneLog.box := by decide +kernel
  have returns : (oneLog.blackboxLog 1003 ⟨[66], by decide⟩ later (some 294)).isSome = true := by
    decide +kernel
  obtain ⟨s', ret⟩ := Option.isSome_iff_exists.mp returns
  have same : crashed 294 = s' := by rw [crashed, ret, Option.getD_some]
  have covers : Covers oneLog.box ⟨[66], by decide⟩ 294 := by decide +kernel
  rw [same]
  exact ⟨covers, (crash_keeps_logs_iff sound ret).mpr (Or.inr covers)⟩

/-- A process that dies once `fopen` has emptied the file leaves neither the one log nor
the two. -/
theorem emptied_file_loses_logs : Sound oneLog.box ∧
    oneLog.blackboxLog 1003 ⟨[66], by decide⟩ later (some 0) = some (crashed 0) ∧
    (∀ fresh, blackboxExport (reboot fresh (crashed 0).file) = some []) ∧
    (blackboxExport oneLog.box).map List.length = some 1 ∧
    (blackboxExport (crashed 0).box).map List.length = some 2 := by
  refine ⟨by decide +kernel, ?_, ?_, by decide +kernel, by decide +kernel⟩
  · have returns : (oneLog.blackboxLog 1003 ⟨[66], by decide⟩ later (some 0)).isSome = true := by
      decide +kernel
    obtain ⟨s', ret⟩ := Option.isSome_iff_exists.mp returns
    rw [crashed, ret, Option.getD_some]
  · intro fresh
    have file : (crashed 0).file = some ((bytes oneLog.box).take 0) := by decide +kernel
    rw [file]
    exact load_nothing fresh oneLog.box (Nat.zero_le 4)

end LearnC.BlackBox
