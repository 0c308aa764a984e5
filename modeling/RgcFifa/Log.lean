import RgcFifa.Lib.Arena
import RgcFifa.Lib.Faulting
import RgcFifa.Lib.LocalTime
import RgcFifa.Lib.Printf

/-! The files of a `Log`, one for each level and day. A file handle that is used after `fclose`, or
opened beside another of its level, is a fault. -/

namespace RgcFifa

open Faulting

inductive LogLevel where
  | error
  | warn
  | debug
  | info
  | trace
  deriving DecidableEq, Repr

def APP_ERROR : UInt8 := 1
def APP_WARN : UInt8 := 2
def APP_DEBUG : UInt8 := 3
def APP_INFO : UInt8 := 4
def APP_TRACE : UInt8 := 5

/-- The check of a level, and its place in `fileHandler`. -/
def logLevel (lev : UInt8) : Option LogLevel :=
  if lev < APP_ERROR ∨ lev > APP_TRACE then none
  else if lev = APP_ERROR then some .error
  else if lev = APP_WARN then some .warn
  else if lev = APP_DEBUG then some .debug
  else if lev = APP_INFO then some .info
  else some .trace

def PreName : LogLevel → List Char
  | .error => "ERROR".toList
  | .warn => "WARN".toList
  | .debug => "DEBUG".toList
  | .info => "INFO".toList
  | .trace => "TRACE".toList

/-- What a file is opened for. -/
structure LogFile where
  lev : LogLevel
  tm_year : ℤ
  tm_mon : ℤ
  tm_mday : ℤ
  deriving DecidableEq

def logFile (l : LogLevel) (aTm : Tm) : LogFile := ⟨l, aTm.tm_year, aTm.tm_mon, aTm.tm_mday⟩

def LogFile.fileName (m_LogDir : List Char) (f : LogFile) : List Char :=
  m_LogDir ++ PreName f.lev ++ Printf.snprintf 32
    (Printf.padded 4 (f.tm_year + 1900) ++ Printf.padded 2 (f.tm_mon + 1) ++ Printf.padded 2 f.tm_mday)

inductive LogFault where
  | closed
  | second
  deriving DecidableEq, Repr

/-- `file` is `m_ErrorFile` to `m_TraceFile`. The streams of the process and what its files hold
are kept with it. -/
structure Log where
  m_LogDir : List Char
  file : LogLevel → Option ℕ
  m_aTm : LogLevel → Tm
  streams : Arena LogFile
  disk : List Char → List Char

namespace Log

/-- The constructor, at a local time. -/
def start (dir : List Char) (aTm : Tm) (disk : List Char → List Char) : Log :=
  ⟨dir, fun _ => none, fun _ => aTm, .empty, disk⟩

section Calls

variable (s : Log)

def setFile (l : LogLevel) (f : Option ℕ) : Log := { s with file := Function.update s.file l f }

def fclose (f : ℕ) : Except LogFault Log :=
  match s.streams.cells f with
  | some _ => .ok { s with streams := s.streams.release f }
  | none => .error .closed

def fopen (file : LogFile) (opens : Bool) : Except LogFault (Option ℕ × Log) :=
  if ∃ i < s.streams.next, (s.streams.cells i).any (·.lev = file.lev) then .error .second
  else if opens then
    let new := s.streams.alloc file
    .ok (some new.1, { s with streams := new.2 })
  else .ok (none, s)

/-- A text at the end of a file. -/
def write (file : LogFile) (text : List Char) : Log :=
  let name := file.fileName s.m_LogDir
  { s with disk := Function.update s.disk name (s.disk name ++ text) }

def fputs (text : List Char) (f : ℕ) : Except LogFault Log :=
  match s.streams.cells f with
  | some file => .ok (s.write file text)
  | none => .error .closed

/-- A handle that is not null is closed. -/
def closeFile (l : LogLevel) : Except LogFault Log :=
  match s.file l with
  | some f => s.fclose f
  | none => .ok s

def GetFileHandler (lev : UInt8) (aTm : Tm) (opens : Bool) : Except LogFault (Option ℕ × Log) :=
  match logLevel lev with
  | none => .ok (none, s)
  | some l =>
    if aTm.tm_mday ≠ (s.m_aTm l).tm_mday ∨ aTm.tm_mon ≠ (s.m_aTm l).tm_mon ∨
        aTm.tm_year ≠ (s.m_aTm l).tm_year ∨ s.file l = none then do
      let s ← s.closeFile l
      let s := s.setFile l none
      let s := { s with m_aTm := Function.update s.m_aTm l aTm }
      let (f, s) ← s.fopen (logFile l aTm) opens
      .ok (f, s.setFile l f)
    else .ok (s.file l, s)

/-- The time of day that `OutLog` writes before a record. -/
def timePrefix (aTm : Tm) : List Char :=
  Printf.snprintf 1024 ("[".toList ++ Printf.padded 2 aTm.tm_hour ++ ":".toList ++
    Printf.padded 2 aTm.tm_min ++ ":".toList ++ Printf.padded 2 aTm.tm_sec ++ "] : ".toList)

/-- `text` is what the format and its arguments print. -/
def OutLog (lev : UInt8) (aTm : Tm) (text : List Char) (opens : Bool) : Except LogFault Log := do
  match ← s.GetFileHandler lev aTm opens with
  | (none, s) => .ok s
  | (some file, s) => do
    let s ← s.fputs (timePrefix aTm) file
    s.fputs text file

def FlushLog (lev : UInt8) (aTm : Tm) (buffer : List Char) (opens : Bool) :
    Except LogFault Log := do
  match ← s.GetFileHandler lev aTm opens with
  | (none, s) => .ok s
  | (some file, s) => s.fputs buffer file

def OutError (aTm : Tm) (text : List Char) (opens : Bool) := s.OutLog APP_ERROR aTm text opens
def OutWarn (aTm : Tm) (text : List Char) (opens : Bool) := s.OutLog APP_WARN aTm text opens
def OutDebug (aTm : Tm) (text : List Char) (opens : Bool) := s.OutLog APP_DEBUG aTm text opens
def OutInfo (aTm : Tm) (text : List Char) (opens : Bool) := s.OutLog APP_INFO aTm text opens
def OutTrace (aTm : Tm) (text : List Char) (opens : Bool) := s.OutLog APP_TRACE aTm text opens

end Calls

def closeAll : List LogLevel → Log → Except LogFault Log
  | [], s => .ok s
  | l :: ls, s => do
    let s ← s.closeFile l
    closeAll ls s

/-- The destructor. -/
def destroy (s : Log) : Except LogFault Log :=
  closeAll [.error, .warn, .debug, .info, .trace] s

end Log

/-- A call, with the local time at it and whether `fopen` succeeds if the call comes to it. -/
structure LogCall where
  lev : UInt8
  aTm : Tm
  text : List Char
  opens : Bool
  flush : Bool

namespace LogCall

def exec (c : LogCall) (s : Log) : Except LogFault Log :=
  if c.flush then s.FlushLog c.lev c.aTm c.text c.opens else s.OutLog c.lev c.aTm c.text c.opens

/-- What the call is to write. -/
def record (c : LogCall) : List Char :=
  if c.flush then c.text else Log.timePrefix c.aTm ++ c.text

def run : List LogCall → Log → Except LogFault Log
  | [], s => .ok s
  | c :: cs, s => do
    let s ← c.exec s
    run cs s

end LogCall

end RgcFifa
