import LearnC.Machine.Bytes
import LearnC.Machine.Run

/-! `blackbox.c`: the last error logs, in a structure that is saved as it stands. -/

namespace LearnC.BlackBox

def maxLogCount : Nat := 100
def descriptionSize : Nat := 256

/-- The `sizeof` of `ErrorLog`: a `time_t` of eight bytes, the code, the
description, and what rounds these up to a multiple of eight. -/
def logSize : Nat := 272

/-- The `sizeof` of `BlackBox`: two `int`s and the logs. -/
def boxSize : Nat := 8 + logSize * maxLogCount

def timestampOff (j : Nat) : Nat := 8 + logSize * j
def errorCodeOff (j : Nat) : Nat := timestampOff j + 8
def descriptionOff (j : Nat) : Nat := errorCodeOff j + 4

/-- A string argument: the bytes before its zero byte. -/
abbrev Text := { bytes : List UInt8 // 0 ∉ bytes }

/-! ## Times -/

/-- By how many seconds local time is ahead of UTC at a time. -/
class TimeZone where
  offset : Int → Int

/-- Local time where `TZ` is not set. -/
@[reducible] def utc : TimeZone where
  offset := fun _ => 0

/-- The days from the beginning of 1970 to that of a year. -/
def daysBefore (year : Int) : Int :=
  let leapYears (y : Int) : Int := y / 4 - y / 100 + y / 400
  365 * (year - 1970) + (leapYears (year - 1) - leapYears 1969)

/-- `localtime`, as seconds of local time. It has no result where `tm_year`, the years since
1900, does not fit into an `int`. -/
def localtime [TimeZone] (t : BitVec 64) : Option Int :=
  let seconds := t.toInt + TimeZone.offset t.toInt
  if 86400 * daysBefore (1900 - 2 ^ 31) ≤ seconds ∧ seconds < 86400 * daysBefore (1900 + 2 ^ 31)
  then some seconds else none

/-- What `time(NULL)` returns: a time of a year that `localtime` knows. -/
abbrev Now [TimeZone] := { t : BitVec 64 // (localtime t).isSome = true }

/-! ## The fields of a `BlackBox` -/

/-- An `ErrorLog` as it is printed, the description up to its zero byte. -/
@[ext] structure ErrorLog where
  timestamp : BitVec 64
  errorCode : BitVec 32
  description : List UInt8
  deriving DecidableEq

@[irreducible] def start (box : Image) : Int := (BitVec.ofNat 32 (box.get 0 4)).toInt
@[irreducible] def count (box : Image) : Int := (BitVec.ofNat 32 (box.get 4 4)).toInt

def setStart (box : Image) (v : Int) : Image := box.set 0 4 (BitVec.ofInt 32 v).toNat
def setCount (box : Image) (v : Int) : Image := box.set 4 4 (BitVec.ofInt 32 v).toNat

def timestamp (box : Image) (j : Nat) : BitVec 64 := BitVec.ofNat 64 (box.get (timestampOff j) 8)

def errorCode (box : Image) (j : Nat) : BitVec 32 := BitVec.ofNat 32 (box.get (errorCodeOff j) 4)

/-- `logs[j]` as the export reads it; no result where `localtime` has none, a null pointer that
`strftime` then reads, or where the description has no zero byte. -/
@[irreducible] def errorLog [TimeZone] (box : Image) (j : Nat) : Option ErrorLog := do
  let _ ← localtime (timestamp box j)
  let description ← box.cString (descriptionOff j) descriptionSize
  some ⟨timestamp box j, errorCode box j, description⟩

/-- The four assignments of `blackbox_log` to `logs[j]`. -/
def setErrorLog (box : Image) (j : Nat) (now : BitVec 64) (code : BitVec 32) (text : Text) :
    Image :=
  let box := box.set (timestampOff j) 8 now.toNat
  let box := box.set (errorCodeOff j) 4 code.toNat
  let box := box.strncpy (descriptionOff j) (descriptionSize - 1) text.val
  box.set (descriptionOff j + (descriptionSize - 1)) 1 0

/-- The value of an `int` expression, unless it overflows. -/
def int (v : Int) : Option Int := if -2 ^ 31 ≤ v ∧ v < 2 ^ 31 then some v else none

/-- An index into `logs`, unless it falls outside. -/
def slot (index : Int) : Option Nat :=
  if 0 ≤ index ∧ index < maxLogCount then some index.toNat else none

/-- The branches of `blackbox_log`: the oldest log is overwritten, or there is one more. -/
def advance (box : Image) : Option Image :=
  if count box = maxLogCount then do
    let next ← int (start box + 1)
    some (setStart box (next.tmod maxLogCount))
  else do
    let next ← int (count box + 1)
    some (setCount box next)

/-! ## The functions -/

/-- A process's `BlackBox` and the bytes of the log file, if there is one. -/
structure State where
  box : Image
  file : Option (List UInt8)

def bytes (box : Image) : List UInt8 := (List.range boxSize).map box

namespace State

/-- The first `written` bytes reach the file; `none` where it cannot be opened. -/
def blackboxSaveToFile (s : State) (written : Option Nat) : State :=
  match written with
  | some k => { s with file := some ((bytes s.box).take k) }
  | none => s

/-- Of a file that is too short `fread` stores the bytes there are. -/
def blackboxLoadFromFile (s : State) (opened : Bool) : State :=
  match s.file, opened with
  | some file, true =>
    { s with box := s.box.fill 0 (min file.length boxSize) fun i => file.getD i 0 }
  | _, _ => s

def blackboxInit (s : State) (opened : Bool) : State :=
  { s with box := setCount (setStart s.box 0) 0 }.blackboxLoadFromFile opened

def blackboxLog (s : State) (code : BitVec 32) (text : Text) (now : BitVec 64)
    (written : Option Nat) : Option State := do
  let sum ← int (start s.box + count s.box)
  let index := sum.tmod maxLogCount
  let box ← advance s.box
  let j ← slot index
  some ({ s with box := setErrorLog box j now code text }.blackboxSaveToFile written)

def blackboxClear (s : State) (removed : Bool) : State where
  box := setCount (setStart s.box 0) 0
  file := if removed then none else s.file

end State

def errorCodeToString (code : BitVec 32) : String :=
  match code.toNat with
  | 0 => "No Error"
  | 1001 => "Memory Allocation Failed"
  | 1002 => "Sensor Disconnected"
  | 1003 => "Unexpected Reboot"
  | 1004 => "File I/O Failure"
  | 1005 => "Over Temperature"
  | _ => "Unknown Error"

/-- What a line of the export is printed from. -/
structure Line where
  number : Nat
  log : ErrorLog
  name : String
  deriving DecidableEq

section
variable [TimeZone]

/-- The loop of `blackbox_export` from `i` on, with `left` rounds to go. -/
def exportLoop (box : Image) : Nat → Nat → Option (List Line)
  | 0, _ => some []
  | left + 1, i => do
    let sum ← int (start box + i)
    let j ← slot (sum.tmod maxLogCount)
    let log ← errorLog box j
    let rest ← exportLoop box left (i + 1)
    some (⟨i + 1, log, errorCodeToString log.errorCode⟩ :: rest)

def blackboxExport (box : Image) : Option (List Line) := exportLoop box (count box).toNat 0

/-! ## Runs -/

/-- A call, with what the system lets it do: the time, the bytes that reach the
file, whether the file is removed. -/
inductive Call where
  | log (code : BitVec 32) (text : Text) (now : Now) (written : Option Nat)
  | exportAll
  | clear (removed : Bool)

/-- A call, or a new process: its `BlackBox` holds any bytes before `blackbox_init`. -/
inductive Op where
  | call (c : Call)
  | restart (fresh : Image) (opened : Bool)

/-- No result where an index falls outside `logs`, an `int` overflows, or a log that is printed
has a time without a `struct tm` or a description without a zero byte. -/
def State.call (s : State) : Call → Option State
  | .log code text now written => s.blackboxLog code text now.val written
  | .exportAll => (blackboxExport s.box).map fun _ => s
  | .clear removed => some (s.blackboxClear removed)

def State.step (s : State) : Op → Option State
  | .call c => s.call c
  | .restart fresh opened => some (State.blackboxInit { s with box := fresh } opened)

end

end LearnC.BlackBox
