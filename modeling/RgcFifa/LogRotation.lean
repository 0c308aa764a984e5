import RgcFifa.Log

/-! What any calls of a `Log` leave open and have written. -/

namespace RgcFifa

open Faulting

namespace Log

variable {s t : Log} {l : LogLevel} {aTm : Tm} {opens : Bool} {f : ℕ} {file : LogFile}

/-- A handle of a level is an open stream for the day it is cached with, and nothing else is open. -/
structure Inv (s : Log) : Prop where
  balanced : s.streams.Balanced
  handle : ∀ l f, s.file l = some f → s.streams.cells f = some (logFile l (s.m_aTm l))
  handled : ∀ f file, s.streams.cells f = some file → s.file file.lev = some f

theorem inv_start (dir : List Char) (aTm : Tm) (disk : List Char → List Char) :
    (start dir aTm disk).Inv where
  balanced := Arena.balanced_empty
  handle _ _ h := nomatch h
  handled _ _ h := nomatch h

@[simp] theorem file_setFile (s : Log) (l : LogLevel) (f : Option ℕ) (l' : LogLevel) :
    (s.setFile l f).file l' = if l' = l then f else s.file l' := Function.update_apply _ _ _ _

theorem fclose_open (h : s.streams.cells f = some file) :
    s.fclose f = .ok { s with streams := s.streams.release f } := by
  simp only [fclose, h]

theorem fputs_open (h : s.streams.cells f = some file) (text : List Char) :
    s.fputs text f = .ok (s.write file text) := by
  simp only [fputs, h]

/-- The level's file is closed, and no other. -/
theorem closeFile_ok (hs : s.Inv) (l : LogLevel) : ∃ t, s.closeFile l = .ok t ∧
    (t.setFile l none).Inv ∧ t.m_aTm = s.m_aTm ∧ t.disk = s.disk ∧ t.m_LogDir = s.m_LogDir := by
  cases hf : s.file l with
  | none =>
    refine ⟨s, by simp only [closeFile, hf], ⟨hs.balanced, ?_, ?_⟩, rfl, rfl, rfl⟩
    · intro l' f h
      rw [file_setFile] at h
      split_ifs at h
      exact hs.handle l' f h
    · intro f file h
      have hfile := hs.handled f file h
      rw [file_setFile, if_neg]
      · exact hfile
      · rintro rfl
        rw [hf] at hfile
        cases hfile
  | some f =>
    have hopen := hs.handle l f hf
    have hclose : s.closeFile l = .ok { s with streams := s.streams.release f } := by
      simp only [closeFile, hf, fclose_open hopen]
    refine ⟨_, hclose, ⟨?_, ?_, ?_⟩, rfl, rfl, rfl⟩
    · exact hs.balanced.release ⟨_, hopen⟩
    · intro l' f' h
      rw [file_setFile] at h
      split_ifs at h with hl
      have hcell := hs.handle l' f' h
      change (s.streams.release f).cells f' = some (logFile l' (s.m_aTm l'))
      rw [Arena.cells_release, if_neg, hcell]
      rintro rfl
      rw [hopen] at hcell
      exact hl (congrArg LogFile.lev (Option.some.inj hcell)).symm
    · intro f' file h
      change (s.streams.release f).cells f' = some file at h
      rw [Arena.cells_release] at h
      split_ifs at h with hne
      have hfile := hs.handled f' file h
      rw [file_setFile, if_neg]
      · exact hfile
      · rintro rfl
        rw [hf] at hfile
        exact hne (Option.some.inj hfile).symm

theorem fopen_ok (hs : s.Inv) (file : LogFile) (hnone : s.file file.lev = none) (opens : Bool) :
    s.fopen file opens = if opens then
      .ok (some s.streams.next, { s with streams := (s.streams.alloc file).2 }) else .ok (none, s) := by
  have halone : ¬ ∃ i < s.streams.next, (s.streams.cells i).any (·.lev = file.lev) := by
    rintro ⟨i, _, hi⟩
    obtain ⟨g, hg, hlev⟩ := (Option.any_eq_true _ _).mp hi
    have hfile := hs.handled i g hg
    rw [of_decide_eq_true hlev, hnone] at hfile
    cases hfile
  rw [fopen, if_neg halone]
  rfl

/-- The file for a level and day is open, or it can be opened. -/
def CanOpen (s : Log) (l : LogLevel) (aTm : Tm) (opens : Bool) : Prop :=
  opens ∨ ∃ f, s.streams.cells f = some (logFile l aTm)

theorem logFile_ne (l : LogLevel) (t u : Tm) : logFile l t ≠ logFile l u ↔
    t.tm_mday ≠ u.tm_mday ∨ t.tm_mon ≠ u.tm_mon ∨ t.tm_year ≠ u.tm_year := by
  simp only [logFile, Ne, LogFile.mk.injEq]
  tauto

theorem setFile_inv (hs : s.Inv) (hnone : s.file l = none) (file : Option ℕ) (streams : Arena LogFile)
    (hfile : file = none ∧ streams = s.streams ∨
      file = some s.streams.next ∧ streams = (s.streams.alloc (logFile l (s.m_aTm l))).2) :
    (setFile { s with streams := streams } l file).Inv := by
  rcases hfile with ⟨rfl, rfl⟩ | ⟨rfl, rfl⟩
  · refine ⟨hs.balanced, ?_, ?_⟩
    · intro l' f h
      rw [file_setFile] at h
      split_ifs at h
      exact hs.handle l' f h
    · intro f file h
      have hf := hs.handled f file h
      rw [file_setFile, if_neg]
      · exact hf
      · rintro rfl
        rw [hnone] at hf
        cases hf
  · refine ⟨hs.balanced.alloc _, ?_, ?_⟩
    · intro l' f h
      rw [file_setFile] at h
      change (s.streams.alloc (logFile l (s.m_aTm l))).2.cells f = some (logFile l' (s.m_aTm l'))
      rw [Arena.cells_alloc]
      split_ifs at h with hl
      · rw [hl, if_pos (Option.some.inj h).symm]
      · have hcell := hs.handle l' f h
        rw [if_neg, hcell]
        exact (hs.balanced.live f _ hcell).1.ne
    · intro f file h
      change (s.streams.alloc (logFile l (s.m_aTm l))).2.cells f = some file at h
      rw [Arena.cells_alloc] at h
      rw [file_setFile]
      split_ifs at h with hf
      · obtain rfl := Option.some.inj h
        rw [hf]
        exact if_pos rfl
      · have hfile := hs.handled f file h
        rw [if_neg]
        · exact hfile
        · rintro rfl
          rw [hnone] at hfile
          cases hfile

theorem cache_inv (hs : s.Inv) (hnone : s.file l = none) (aTm : Tm) :
    Inv { s with m_aTm := Function.update s.m_aTm l aTm } := by
  refine ⟨hs.balanced, ?_, hs.handled⟩
  intro l' f h
  have hne : l' ≠ l := by
    rintro rfl
    rw [hnone] at h
    cases h
  change s.streams.cells f = some (logFile l' (Function.update s.m_aTm l aTm l'))
  rw [Function.update_of_ne hne]
  exact hs.handle l' f h

/-- A handle is got exactly when the file for the level and day can be open, and it is that file. -/
theorem getFileHandler_ok (hs : s.Inv) {lev : UInt8} (hlev : logLevel lev = some l) (aTm : Tm)
    (opens : Bool) : ∃ t, s.GetFileHandler lev aTm opens = .ok (t.file l, t) ∧ t.Inv ∧
      logFile l (t.m_aTm l) = logFile l aTm ∧ t.disk = s.disk ∧ t.m_LogDir = s.m_LogDir ∧
      ((t.file l).isSome ↔ s.CanOpen l aTm opens) := by
  rw [GetFileHandler]
  simp only [hlev]
  split_ifs with hnew
  · obtain ⟨t, hclose, hinv, _, hdisk, hdir⟩ := closeFile_ok hs l
    have hnone : (t.setFile l none).file l = none := by simp
    have hcached := cache_inv hinv hnone aTm
    have htm : logFile l (Function.update (t.setFile l none).m_aTm l aTm l) = logFile l aTm := by
      rw [Function.update_self]
    have hopen := fopen_ok hcached (logFile l aTm) hnone opens
    have hkept : ¬ ∃ f, s.streams.cells f = some (logFile l aTm) := by
      rintro ⟨f, hf⟩
      have hfile := hs.handled f _ hf
      have hcell := hs.handle _ f hfile
      rw [hf, Option.some_inj] at hcell
      have hdiffer : logFile l aTm ≠ logFile l (s.m_aTm l) ∨ s.file l = none := by
        rw [logFile_ne]
        tauto
      rcases hdiffer with hdiffer | hdiffer
      · exact hdiffer hcell
      · rw [show (logFile l aTm).lev = l from rfl, hdiffer] at hfile
        cases hfile
    simp only [hclose, ok_bind, hopen]
    cases opens with
    | true =>
      refine ⟨_, ?_, setFile_inv hcached hnone _ _ (.inr ⟨rfl, rfl⟩), htm, hdisk, hdir, ?_⟩
      · simp
      · simp [CanOpen]
    | false =>
      refine ⟨_, ?_, setFile_inv hcached hnone _ _ (.inl ⟨rfl, rfl⟩), htm, hdisk, hdir, ?_⟩
      · simp
      · simp [CanOpen, hkept]
  · rw [not_or, not_or, not_or, not_not, not_not, not_not] at hnew
    obtain ⟨hday, hmon, hyear, hfile⟩ := hnew
    obtain ⟨f, hf⟩ := Option.ne_none_iff_exists'.mp hfile
    have hsame : logFile l (s.m_aTm l) = logFile l aTm := by simp only [logFile, hday, hmon, hyear]
    have hcell := hs.handle l f hf
    rw [hsame] at hcell
    exact ⟨s, rfl, hs, hsame, rfl, rfl, iff_of_true (by simp [hf]) (.inr ⟨f, hcell⟩)⟩

theorem inv_write (hs : s.Inv) (file : LogFile) (text : List Char) : (s.write file text).Inv :=
  ⟨hs.balanced, hs.handle, hs.handled⟩

theorem write_write (s : Log) (file : LogFile) (text text' : List Char) :
    (s.write file text).write file text' = s.write file (text ++ text') := by
  simp [write]

end Log

open Log

namespace LogCall

variable {s t : Log} {c : LogCall} {l : LogLevel} {f : ℕ} {file : LogFile}

theorem exec_null (h : s.GetFileHandler c.lev c.aTm c.opens = .ok (none, t)) :
    c.exec s = .ok t := by
  unfold exec FlushLog OutLog
  simp only [h, ok_bind, ite_self]

theorem exec_handle (h : s.GetFileHandler c.lev c.aTm c.opens = .ok (some f, t))
    (hcell : t.streams.cells f = some file) : c.exec s = .ok (t.write file c.record) := by
  unfold exec FlushLog OutLog record
  simp only [h, ok_bind]
  split_ifs
  · exact fputs_open hcell _
  · have hcell' : (t.write file (timePrefix c.aTm)).streams.cells f = some file := hcell
    rw [fputs_open hcell, ok_bind, fputs_open hcell', write_write]

/-- What a call writes, to the file of its level and day, if that can be open. -/
theorem exec_ok (hs : s.Inv) (hlev : logLevel c.lev = some l) : ∃ t, c.exec s = .ok t ∧ t.Inv ∧
    t.m_LogDir = s.m_LogDir ∧
    (s.CanOpen l c.aTm c.opens → t.disk = (s.write (logFile l c.aTm) c.record).disk) ∧
    (¬ s.CanOpen l c.aTm c.opens → t.disk = s.disk) := by
  obtain ⟨t, hget, hinv, hfile, hdisk, hdir, hsome⟩ := getFileHandler_ok hs hlev c.aTm c.opens
  cases hf : t.file l with
  | none =>
    have hcannot : ¬ s.CanOpen l c.aTm c.opens := by simp [← hsome, hf]
    rw [hf] at hget
    exact ⟨t, exec_null hget, hinv, hdir, fun h => absurd h hcannot, fun _ => hdisk⟩
  | some f =>
    have hcan : s.CanOpen l c.aTm c.opens := by simp [← hsome, hf]
    have hcell := hinv.handle l f hf
    rw [hfile] at hcell
    have hwritten : (t.write (logFile l c.aTm) c.record).disk =
        (s.write (logFile l c.aTm) c.record).disk := by
      simp only [write, hdisk, hdir]
    rw [hf] at hget
    exact ⟨_, exec_handle hget hcell, inv_write hinv _ _, hdir, fun _ => hwritten,
      fun h => absurd hcan h⟩

/-- A call at no level does nothing. -/
theorem exec_none (hlev : logLevel c.lev = none) : c.exec s = .ok s := by
  apply exec_null
  simp only [GetFileHandler, hlev]

theorem exec_inv (hs : s.Inv) (c : LogCall) :
    ∃ t, c.exec s = .ok t ∧ t.Inv ∧ t.m_LogDir = s.m_LogDir := by
  cases hlev : logLevel c.lev with
  | none => exact ⟨s, exec_none hlev, hs, rfl⟩
  | some l =>
    obtain ⟨t, hexec, hinv, hdir, _⟩ := exec_ok hs hlev
    exact ⟨t, hexec, hinv, hdir⟩

theorem run_inv (cs : List LogCall) (hs : s.Inv) :
    ∃ t, run cs s = .ok t ∧ t.Inv ∧ t.m_LogDir = s.m_LogDir := by
  induction cs generalizing s with
  | nil => exact ⟨s, rfl, hs, rfl⟩
  | cons c cs ih =>
    obtain ⟨u, hexec, hu, hdir⟩ := exec_inv hs c
    obtain ⟨t, hrun, ht, hdir'⟩ := ih hu
    refine ⟨t, ?_, ht, hdir'.trans hdir⟩
    rw [run, hexec, ok_bind, hrun]

end LogCall

namespace Log

variable {s : Log}

/-- What is left of a log of which only some levels are open still. -/
structure Closing (ls : List LogLevel) (s : Log) : Prop where
  balanced : s.streams.Balanced
  handle : ∀ l ∈ ls, ∀ f, s.file l = some f → ∃ file, s.streams.cells f = some file ∧ file.lev = l
  handled : ∀ f file, s.streams.cells f = some file → file.lev ∈ ls ∧ s.file file.lev = some f

theorem closeAll_ok {ls : List LogLevel} (hls : ls.Nodup) (hs : s.Closing ls) :
    ∃ t, closeAll ls s = .ok t ∧ t.streams.Balanced ∧ ∀ f, t.streams.cells f = none := by
  induction ls generalizing s with
  | nil =>
    refine ⟨s, rfl, hs.balanced, fun f => ?_⟩
    cases hcell : s.streams.cells f with
    | none => rfl
    | some file => exact absurd (hs.handled f file hcell).1 List.not_mem_nil
  | cons l ls ih =>
    obtain ⟨hl, hls⟩ := List.nodup_cons.mp hls
    cases hf : s.file l with
    | none =>
      have hclose : s.closeFile l = .ok s := by simp only [closeFile, hf]
      rw [closeAll, hclose, ok_bind]
      apply ih hls
      refine ⟨hs.balanced, fun l' hl' => hs.handle l' (List.mem_cons_of_mem _ hl'), ?_⟩
      intro f file hcell
      obtain ⟨hmem, hfile⟩ := hs.handled f file hcell
      refine ⟨(List.mem_cons.mp hmem).resolve_left ?_, hfile⟩
      intro hlev
      rw [hlev, hf] at hfile
      cases hfile
    | some f =>
      obtain ⟨file, hcell, hlev⟩ := hs.handle l List.mem_cons_self f hf
      have hclose : s.closeFile l = .ok { s with streams := s.streams.release f } := by
        simp only [closeFile, hf, fclose_open hcell]
      rw [closeAll, hclose, ok_bind]
      apply ih hls
      refine ⟨hs.balanced.release ⟨_, hcell⟩, ?_, ?_⟩
      · intro l' hl' f' hf'
        obtain ⟨file', hcell', hlev'⟩ := hs.handle l' (List.mem_cons_of_mem _ hl') f' hf'
        refine ⟨file', ?_, hlev'⟩
        rw [Arena.cells_release, if_neg]
        · exact hcell'
        · intro hff
          rw [hff, hcell] at hcell'
          obtain rfl := Option.some.inj hcell'
          exact hl (hlev ▸ hlev' ▸ hl')
      · intro f' file' hcell'
        rw [Arena.cells_release] at hcell'
        split_ifs at hcell' with hne
        obtain ⟨hmem, hfile⟩ := hs.handled f' file' hcell'
        refine ⟨(List.mem_cons.mp hmem).resolve_left ?_, hfile⟩
        intro hl'
        rw [hl', hf] at hfile
        exact hne (Option.some.inj hfile).symm

theorem Inv.closing (hs : s.Inv) : s.Closing [.error, .warn, .debug, .info, .trace] where
  balanced := hs.balanced
  handle l _ f hf := ⟨_, hs.handle l f hf, rfl⟩
  handled f file hcell := ⟨by cases file.lev <;> simp, hs.handled f file hcell⟩

theorem destroy_ok (hs : s.Inv) :
    ∃ t, s.destroy = .ok t ∧ t.streams.Released ∧ ∀ f, t.streams.cells f = none := by
  obtain ⟨t, hclose, hbalanced, hnone⟩ := closeAll_ok (by decide) hs.closing
  exact ⟨t, hclose, fun i hi => hbalanced.gone i hi (hnone i), hnone⟩

end Log

/-! ### The names of the files -/

/-- A day of the calendar. -/
structure Dated (aTm : Tm) : Prop where
  year : -2 ^ 31 ≤ aTm.tm_year + 1900 ∧ aTm.tm_year + 1900 < 2 ^ 31
  mon : 0 ≤ aTm.tm_mon ∧ aTm.tm_mon < 12
  mday : 1 ≤ aTm.tm_mday ∧ aTm.tm_mday ≤ 31

/-- What a level is called; there are five. -/
def levelName : UInt8 → Option String
  | 1 => some "ERROR"
  | 2 => some "WARN"
  | 3 => some "DEBUG"
  | 4 => some "INFO"
  | 5 => some "TRACE"
  | _ => none

def yyyymmdd (aTm : Tm) : List Char :=
  Printf.padded 4 (aTm.tm_year + 1900) ++ Printf.padded 2 (aTm.tm_mon + 1) ++
    Printf.padded 2 aTm.tm_mday

theorem logLevel_name (lev : UInt8) :
    (logLevel lev).map PreName = (levelName lev).map String.toList := by
  have hall : ∀ n : Fin 256, (logLevel (.ofFin n)).map PreName =
      (levelName (.ofFin n)).map String.toList := by decide +kernel
  simpa using hall lev.toFin

def levelCode : LogLevel → UInt8
  | .error => APP_ERROR
  | .warn => APP_WARN
  | .debug => APP_DEBUG
  | .info => APP_INFO
  | .trace => APP_TRACE

theorem logLevel_code {lev : UInt8} (h : logLevel lev = some l) : levelCode l = lev := by
  have hall : ∀ n : Fin 256, ∀ l ∈ logLevel (.ofFin n), levelCode l = .ofFin n := by decide +kernel
  simpa using hall lev.toFin l (by simpa using h)

namespace Dated

variable {u v : Tm}

theorem length_tail (h : Dated u) :
    (Printf.padded 2 (u.tm_mon + 1)).length = 2 ∧ (Printf.padded 2 u.tm_mday).length = 2 := by
  have hmon := h.mon
  have hmday := h.mday
  exact ⟨Printf.length_padded (by decide) (by omega) (by omega),
    Printf.length_padded (by decide) (by omega) (by omega)⟩

/-- `buffer` is long enough for the date. -/
theorem snprintf_eq (h : Dated u) : Printf.snprintf 32 (yyyymmdd u) = yyyymmdd u := by
  have hyear := h.year
  obtain ⟨hmon, hmday⟩ := h.length_tail
  have hlen : (Printf.padded 4 (u.tm_year + 1900)).length ≤ 11 :=
    Printf.length_padded_le (k := 10) (by decide) (by decide) (by omega)
  apply List.take_of_length_le
  rw [yyyymmdd, List.length_append, List.length_append, hmon, hmday]
  omega

theorem yyyymmdd_inj (hu : Dated u) (hv : Dated v) (h : yyyymmdd u = yyyymmdd v) :
    u.tm_year = v.tm_year ∧ u.tm_mon = v.tm_mon ∧ u.tm_mday = v.tm_mday := by
  obtain ⟨hmon, hmday⟩ := hu.length_tail
  obtain ⟨hmon', hmday'⟩ := hv.length_tail
  obtain ⟨hfront, hday⟩ := List.append_inj' h (hmday.trans hmday'.symm)
  obtain ⟨hyear, hmonth⟩ := List.append_inj' hfront (hmon.trans hmon'.symm)
  have h₁ := Printf.padded_injective 4 hyear
  have h₂ := Printf.padded_injective 2 hmonth
  exact ⟨by omega, by omega, Printf.padded_injective 2 hday⟩

end Dated

theorem fileName_eq (dir : List Char) (l : LogLevel) (h : Dated aTm) :
    (logFile l aTm).fileName dir = dir ++ PreName l ++ yyyymmdd aTm := by
  have htext := h.snprintf_eq
  rw [yyyymmdd] at htext
  rw [LogFile.fileName, logFile, htext, yyyymmdd]

/-- The names begin with different letters. -/
theorem preName_inj {l l' : LogLevel} {bs cs : List Char} (h : PreName l ++ bs = PreName l' ++ cs) :
    l = l' := by
  have hhead := congrArg List.head? h
  revert hhead
  cases l <;> cases l' <;> simp [PreName]

theorem fileName_inj {dir : List Char} {l l' : LogLevel} {u v : Tm} (hu : Dated u) (hv : Dated v)
    (h : (logFile l u).fileName dir = (logFile l' v).fileName dir) :
    l = l' ∧ u.tm_year = v.tm_year ∧ u.tm_mon = v.tm_mon ∧ u.tm_mday = v.tm_mday := by
  rw [fileName_eq dir l hu, fileName_eq dir l' hv, List.append_assoc, List.append_assoc,
    List.append_cancel_left_eq] at h
  obtain rfl := preName_inj h
  exact ⟨rfl, hu.yyyymmdd_inj hv (List.append_cancel_left h)⟩

/-- The files go by the level and the day, and two of them never by one name. -/
structure Named (dir : List Char) : Prop where
  level : ∀ lev, (logLevel lev).map PreName = (levelName lev).map String.toList
  name : ∀ l aTm, Dated aTm → (logFile l aTm).fileName dir = dir ++ PreName l ++ yyyymmdd aTm
  unique : ∀ lev lev' l l' u v, logLevel lev = some l → logLevel lev' = some l' → Dated u → Dated v →
    (logFile l u).fileName dir = (logFile l' v).fileName dir →
    lev = lev' ∧ u.tm_year = v.tm_year ∧ u.tm_mon = v.tm_mon ∧ u.tm_mday = v.tm_mday

theorem named (dir : List Char) : Named dir where
  level := logLevel_name
  name l _ h := fileName_eq dir l h
  unique lev lev' l l' u v hlev hlev' hu hv h := by
    obtain ⟨rfl, hdate⟩ := fileName_inj hu hv h
    exact ⟨(logLevel_code hlev).symm.trans (logLevel_code hlev'), hdate⟩

/-- The levels have files of their own, one for each day. Any calls of a new log return, with at most
one file of each level open after them. A further call writes its record to the file of its level and
day if that can be open, and nothing else. The destructor then closes what is open, so that each file
that was opened has been closed once. -/
theorem log_rotation (dir : List Char) (aTm : Tm) (disk : List Char → List Char)
    (cs : List LogCall) : Named dir ∧ ∃ s, LogCall.run cs (Log.start dir aTm disk) = .ok s ∧
      (∀ f g file file', s.streams.cells f = some file → s.streams.cells g = some file' →
        file.lev = file'.lev → f = g) ∧
      (∀ c : LogCall, ∃ t, c.exec s = .ok t ∧
        (∀ l, logLevel c.lev = some l → s.CanOpen l c.aTm c.opens →
          t.disk = Function.update s.disk ((logFile l c.aTm).fileName dir)
            (s.disk ((logFile l c.aTm).fileName dir) ++ c.record)) ∧
        ((∀ l, logLevel c.lev = some l → ¬ s.CanOpen l c.aTm c.opens) → t.disk = s.disk)) ∧
      ∃ t, s.destroy = .ok t ∧ t.streams.Released ∧ ∀ f, t.streams.cells f = none := by
  obtain ⟨s, hrun, hs, hdir⟩ := LogCall.run_inv cs (inv_start dir aTm disk)
  have hdir : s.m_LogDir = dir := hdir
  refine ⟨named dir, s, hrun, ?_, ?_, destroy_ok hs⟩
  · intro f g file file' hf hg hlev
    have hfile := hs.handled f file hf
    rw [hlev, hs.handled g file' hg] at hfile
    exact (Option.some.inj hfile).symm
  · intro c
    cases hlev : logLevel c.lev with
    | none => exact ⟨s, LogCall.exec_none hlev, nofun, fun _ => rfl⟩
    | some l =>
      obtain ⟨t, hexec, _, _, hcan, hcannot⟩ := LogCall.exec_ok hs hlev
      refine ⟨t, hexec, ?_, fun h => hcannot (h l rfl)⟩
      intro l' hl' h
      obtain rfl := Option.some.inj hl'
      rw [hcan h, write, hdir]

/-- Two days at one level, and back to the first. -/
example :
    let day (n : ℤ) : Tm := ⟨0, 0, 0, n, 0, 124, 0, 0⟩
    let call (n : ℤ) (text : String) : LogCall := ⟨2, day n, text.toList, true, true⟩
    (LogCall.run [call 1 "a", call 2 "b", call 1 "c"] (Log.start "log/".toList (day 1) fun _ => [])).map
        (fun s => (s.disk "log/WARN20240101".toList, s.disk "log/WARN20240102".toList)) =
      .ok ("ac".toList, "b".toList) := by
  decide +kernel

end RgcFifa
