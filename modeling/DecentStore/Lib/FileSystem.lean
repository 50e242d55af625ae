import DecentStore.Lib.Bytes
import DecentStore.Lib.Interaction
import Mathlib.Data.List.AList
import Mathlib.Data.List.TakeWhile

/-!
# A POSIX file system

Directories and regular files under canonical paths, and the resolution of a path string to one:
the string ends at its first zero byte, is cut at the slashes and followed component by component,
each step from an existing directory, with `.` and `..` read on the way. `FsCall` lists the file
operations a program can make and `FileSystem.handle` is the file system on which none of them fails
without a reason in the directory tree.
-/

namespace Posix

open Bytes Interaction

/-- Components from the root down. -/
abbrev Path := List Bytes

/-- `dirEnd` is what the end of a directory is reported as, where the system lets a directory be
opened for reading. The unseekable files are those of a kernel, such as the ones under `/proc`: they
can be read from the front but have no end to seek, and they cannot be written. -/
structure FileSystem where
  cwd : Path
  dirs : List Path
  files : AList fun _ : Path => Bytes
  dirEnd : Option Nat := none
  unseekable : AList fun _ : Path => Bytes := ∅

/-- What opening a path for reading gives. -/
inductive Opened where
  | absent
  | file (data : Bytes)
  /-- There are no bytes to read, only an end to seek. -/
  | directory (size : Nat)
  /-- There are bytes to read, but no end to seek. -/
  | unseekable (data : Bytes)
deriving DecidableEq

/-- The bytes of a regular file. -/
def Opened.length : Opened → Nat
  | .file data => data.length
  | _ => 0

inductive FsCall where
  | createDirectories (path : Bytes)
  | truncate (path : Bytes)
  | append (path data : Bytes)
  | rename (source target : Bytes)
  | remove (path : Bytes)
  | read (path : Bytes)
  | list (path : Bytes)

/-- Opening a file for writing and renaming report success, reading and listing report what there
was to open. The replies of the other calls are ignored by their callers. -/
abbrev FsReply : FsCall → Type
  | .createDirectories _ => Unit
  | .truncate _ => Bool
  | .append _ _ => Unit
  | .rename _ _ => Bool
  | .remove _ => Unit
  | .read _ => Opened
  | .list _ => Option (List (Bytes × Nat))

namespace FileSystem

def isDir (fs : FileSystem) (path : Path) : Bool := path = [] || fs.dirs.contains path

/-- What is there is no file that can be written. -/
def blocked (fs : FileSystem) (path : Path) : Bool :=
  fs.isDir path || (fs.unseekable.lookup path).isSome

def walk (isDir : Path → Bool) : Path → List Bytes → Option Path
  | current, [] => some current
  | current, name :: names =>
      if isDir current = false then none
      else if name = [] ∨ name = str "." then walk isDir current names
      else if name = str ".." then walk isDir current.dropLast names
      else walk isDir (current ++ [name]) names

def origin (fs : FileSystem) (raw : Bytes) : Path := if raw.head? = some 47 then [] else fs.cwd

/-- What a system call sees of a string. -/
def cString (raw : Bytes) : Bytes := raw.takeWhile (· ≠ 0)

def resolve (fs : FileSystem) (raw : Bytes) : Option Path :=
  let path := cString raw
  if path = [] then none else walk fs.isDir (fs.origin path) (path.splitOn 47)

/-! ### The operations -/

def makeDirs : FileSystem → Path → List Bytes → FileSystem
  | fs, _, [] => fs
  | fs, current, name :: names =>
      if fs.isDir current = false then fs
      else if name = [] ∨ name = str "." then makeDirs fs current names
      else if name = str ".." then makeDirs fs current.dropLast names
      else if fs.isDir (current ++ [name]) then makeDirs fs (current ++ [name]) names
      else if current ++ [name] ∈ fs.files ∨ fs.blocked (current ++ [name]) then fs
      else makeDirs { fs with dirs := (current ++ [name]) :: fs.dirs } (current ++ [name]) names

def createDirectories (fs : FileSystem) (raw : Bytes) : FileSystem :=
  let path := cString raw
  if path = [] then fs else makeDirs fs (fs.origin path) (path.splitOn 47)

def truncate (fs : FileSystem) (raw : Bytes) : Bool × FileSystem :=
  match fs.resolve raw with
  | none => (false, fs)
  | some path =>
      if fs.blocked path then (false, fs) else (true, { fs with files := fs.files.insert path [] })

def append (fs : FileSystem) (raw data : Bytes) : FileSystem :=
  match fs.resolve raw with
  | none => fs
  | some path =>
      match fs.files.lookup path with
      | none => fs
      | some old => { fs with files := fs.files.insert path (old ++ data) }

def rename (fs : FileSystem) (source target : Bytes) : Bool × FileSystem :=
  match fs.resolve source, fs.resolve target with
  | some p, some q =>
      match fs.files.lookup p with
      | none => (false, fs)
      | some data =>
          if fs.blocked q then (false, fs)
          else (true, { fs with files := (fs.files.erase p).insert q data })
  | _, _ => (false, fs)

def remove (fs : FileSystem) (raw : Bytes) : FileSystem :=
  match fs.resolve raw with
  | none => fs
  | some path => { fs with files := fs.files.erase path }

def read (fs : FileSystem) (raw : Bytes) : Opened :=
  match fs.resolve raw with
  | none => .absent
  | some path =>
      if fs.isDir path then fs.dirEnd.elim .absent .directory
      else match fs.unseekable.lookup path with
        | some data => .unseekable data
        | none => (fs.files.lookup path).elim .absent .file

/-- The regular files of one directory, by name and size. -/
def filesIn (fs : FileSystem) (dir : Path) : List (Bytes × Nat) :=
  fs.files.entries.filterMap fun file =>
    if file.1.dropLast = dir then file.1.getLast?.map fun name => (name, file.2.length) else none

def list (fs : FileSystem) (raw : Bytes) : Option (List (Bytes × Nat)) :=
  match fs.resolve raw with
  | none => none
  | some dir => if fs.isDir dir then some (fs.filesIn dir) else none

def handle : Handler FsReply FileSystem
  | .createDirectories path, fs => ((), fs.createDirectories path)
  | .truncate path, fs => fs.truncate path
  | .append path data, fs => ((), fs.append path data)
  | .rename source target, fs => fs.rename source target
  | .remove path, fs => ((), fs.remove path)
  | .read path, fs => (fs.read path, fs)
  | .list path, fs => (fs.list path, fs)

end FileSystem

/-! ### The calls as programs -/

namespace Fs

variable {ε : Type} (path target data : Bytes)

def createDirectories : Prog FsReply ε Unit := Prog.ask (FsCall.createDirectories path)

def truncate : Prog FsReply ε Bool := Prog.ask (FsCall.truncate path)

def append : Prog FsReply ε Unit := Prog.ask (FsCall.append path data)

def rename : Prog FsReply ε Bool := Prog.ask (FsCall.rename path target)

def remove : Prog FsReply ε Unit := Prog.ask (FsCall.remove path)

def read : Prog FsReply ε Opened := Prog.ask (FsCall.read path)

def list : Prog FsReply ε (Option (List (Bytes × Nat))) := Prog.ask (FsCall.list path)

variable (fs : FileSystem)

@[simp]
theorem run_createDirectories : (createDirectories path : Prog FsReply ε Unit).run
    FileSystem.handle fs = (.ok (), fs.createDirectories path) := rfl

@[simp]
theorem run_truncate : (truncate path : Prog FsReply ε Bool).run FileSystem.handle fs =
    (.ok (fs.truncate path).1, (fs.truncate path).2) := rfl

@[simp]
theorem run_append : (append path data : Prog FsReply ε Unit).run FileSystem.handle fs =
    (.ok (), fs.append path data) := rfl

@[simp]
theorem run_rename : (rename path target : Prog FsReply ε Bool).run FileSystem.handle fs =
    (.ok (fs.rename path target).1, (fs.rename path target).2) := rfl

@[simp]
theorem run_remove : (remove path : Prog FsReply ε Unit).run FileSystem.handle fs =
    (.ok (), fs.remove path) := rfl

@[simp]
theorem run_read : (read path : Prog FsReply ε Opened).run FileSystem.handle fs =
    (.ok (fs.read path), fs) := rfl

@[simp]
theorem run_list : (list path : Prog FsReply ε (Option (List (Bytes × Nat)))).run
    FileSystem.handle fs = (.ok (fs.list path), fs) := rfl

end Fs

namespace FileSystem

/-! ### Resolution -/

/-- A component that names an entry of the directory it is looked up in. -/
def PlainName (name : Bytes) : Prop :=
  name ≠ [] ∧ name ≠ str "." ∧ name ≠ str ".." ∧ (47 : UInt8) ∉ name ∧ (0 : UInt8) ∉ name

instance (name : Bytes) : Decidable (PlainName name) := inferInstanceAs (Decidable (_ ∧ _))

theorem walk_append (isDir : Path → Bool) (current : Path) (names more : List Bytes) :
    walk isDir current (names ++ more) =
      (walk isDir current names).bind fun reached => walk isDir reached more := by
  induction names generalizing current with
  | nil => rfl
  | cons name names ih =>
      simp only [List.cons_append, walk]
      split
      · rfl
      split
      · exact ih _
      split
      · exact ih _
      · exact ih _

theorem not_blocked {fs : FileSystem} {path : Path} (hfile : fs.blocked path = false) :
    fs.isDir path = false ∧ fs.unseekable.lookup path = none := by
  simpa [blocked, Option.isSome_eq_false_iff] using hfile

/-- Resolution depends on the directories only. -/
theorem resolve_congr {fs fs' : FileSystem} (hcwd : fs'.cwd = fs.cwd) (hdirs : fs'.dirs = fs.dirs)
    (raw : Bytes) : fs'.resolve raw = fs.resolve raw := by
  simp only [resolve, origin, hcwd, show fs'.isDir = fs.isDir by unfold isDir; rw [hdirs]]

theorem cString_eq {raw : Bytes} (hraw : (0 : UInt8) ∉ raw) : cString raw = raw :=
  List.takeWhile_eq_self_iff.mpr fun b hb => by
    simpa using fun hzero : b = 0 => hraw (hzero ▸ hb)

theorem cString_child {raw name : Bytes} (hraw : (0 : UInt8) ∉ raw) (hname : PlainName name) :
    cString (raw ++ 47 :: name) = raw ++ 47 :: name := by
  refine cString_eq ?_
  simp only [List.mem_append, List.mem_cons, not_or]
  exact ⟨hraw, by decide, hname.2.2.2.2⟩

theorem resolve_ne_nil {fs : FileSystem} {raw : Bytes} {path : Path}
    (hraw : fs.resolve raw = some path) : cString raw ≠ [] := by
  intro hnil
  simp [resolve, hnil] at hraw

theorem origin_append (fs : FileSystem) {raw : Bytes} (hraw : raw ≠ []) (rest : Bytes) :
    fs.origin (raw ++ rest) = fs.origin raw := by
  unfold origin
  rw [List.head?_append_of_ne_nil _ hraw]

theorem walk_of_resolve {fs : FileSystem} {raw : Bytes} {dir : Path} (htext : (0 : UInt8) ∉ raw)
    (hraw : fs.resolve raw = some dir) :
    raw ≠ [] ∧ walk fs.isDir (fs.origin raw) (raw.splitOn 47) = some dir := by
  have hne := resolve_ne_nil hraw
  rw [cString_eq htext] at hne
  simp only [resolve, cString_eq htext, if_neg hne] at hraw
  exact ⟨hne, hraw⟩

theorem resolve_child {fs : FileSystem} {raw name : Bytes} {dir : Path} (htext : (0 : UInt8) ∉ raw)
    (hraw : fs.resolve raw = some dir) (hdir : fs.isDir dir = true) (hname : PlainName name) :
    fs.resolve (raw ++ 47 :: name) = some (dir ++ [name]) := by
  obtain ⟨hne, hwalk⟩ := walk_of_resolve htext hraw
  have hne' : raw ++ 47 :: name ≠ [] := by simp
  simp only [resolve, cString_child htext hname, if_neg hne', origin_append fs hne]
  rw [List.splitOn_append_cons_self, walk_append, hwalk,
    List.splitOn_eq_singleton hname.2.2.2.1]
  simp [walk, hdir, hname.1, hname.2.1, hname.2.2.1]

/-! ### Making directories -/

theorem walk_mono {isDir isDir' : Path → Bool} (hmono : ∀ p, isDir p = true → isDir' p = true)
    {current reached : Path} {names : List Bytes}
    (hwalk : walk isDir current names = some reached) :
    walk isDir' current names = some reached := by
  induction names generalizing current with
  | nil => exact hwalk
  | cons name names ih =>
      simp only [walk] at hwalk ⊢
      by_cases hdir : isDir current = false
      · simp [hdir] at hwalk
      · rw [if_neg hdir] at hwalk
        rw [if_neg (by simpa using hmono current (by simpa using hdir))]
        split
        · rename_i hdot
          exact ih (by simpa only [if_pos hdot] using hwalk)
        · rename_i hdot
          rw [if_neg hdot] at hwalk
          split
          · rename_i hup
            exact ih (by simpa only [if_pos hup] using hwalk)
          · rename_i hup
            exact ih (by simpa only [if_neg hup] using hwalk)

theorem resolve_mono {fs fs' : FileSystem} (hcwd : fs'.cwd = fs.cwd)
    (hmono : ∀ p, fs.isDir p = true → fs'.isDir p = true) {raw : Bytes} {path : Path}
    (hraw : fs.resolve raw = some path) : fs'.resolve raw = some path := by
  have hne := resolve_ne_nil hraw
  have horigin : fs'.origin (cString raw) = fs.origin (cString raw) := by simp [origin, hcwd]
  simp only [resolve, if_neg hne, horigin] at hraw ⊢
  exact walk_mono hmono hraw

theorem isDir_cons {fs : FileSystem} {path : Path} (new : Path) (hdir : fs.isDir path = true) :
    ({ fs with dirs := new :: fs.dirs } : FileSystem).isDir path = true := by
  simp only [isDir, Bool.or_eq_true, List.contains_iff_mem, List.mem_cons] at hdir ⊢
  tauto

theorem resolve_cons {fs : FileSystem} {raw : Bytes} {path : Path} (new : Path)
    (hraw : fs.resolve raw = some path) :
    ({ fs with dirs := new :: fs.dirs } : FileSystem).resolve raw = some path :=
  @resolve_mono fs { fs with dirs := new :: fs.dirs } rfl (fun _ => isDir_cons new) _ _ hraw

/-- Directories that are there already are walked through. -/
theorem makeDirs_append {fs : FileSystem} {current dir : Path} {names : List Bytes}
    (hwalk : walk fs.isDir current names = some dir) (hdir : fs.isDir dir = true)
    (more : List Bytes) : makeDirs fs current (names ++ more) = makeDirs fs dir more := by
  induction names generalizing current with
  | nil =>
      cases hwalk
      rfl
  | cons name names ih =>
      simp only [walk, List.cons_append, makeDirs] at hwalk ⊢
      split
      · rename_i hcurrent
        simp [hcurrent] at hwalk
      · rename_i hcurrent
        rw [if_neg hcurrent] at hwalk
        split
        · rename_i hdot
          exact ih (by simpa only [if_pos hdot] using hwalk)
        · rename_i hdot
          rw [if_neg hdot] at hwalk
          split
          · rename_i hup
            exact ih (by simpa only [if_pos hup] using hwalk)
          · rename_i hup
            rw [if_neg hup] at hwalk
            have hnext : fs.isDir (current ++ [name]) = true := by
              cases names with
              | nil =>
                  cases hwalk
                  exact hdir
              | cons name' names =>
                  by_contra hnot
                  simp [walk, hnot] at hwalk
            rw [if_pos hnext]
            exact ih hwalk

theorem createDirectories_of_isDir {fs : FileSystem} {raw : Bytes} {dir : Path}
    (hraw : fs.resolve raw = some dir) (hdir : fs.isDir dir = true) :
    fs.createDirectories raw = fs := by
  have hne := resolve_ne_nil hraw
  simp only [resolve, if_neg hne] at hraw
  simp only [createDirectories, if_neg hne]
  rw [← List.append_nil ((cString raw).splitOn 47), makeDirs_append hraw hdir]
  rfl

theorem createDirectories_child {fs : FileSystem} {raw name : Bytes} {dir : Path}
    (htext : (0 : UInt8) ∉ raw) (hraw : fs.resolve raw = some dir) (hdir : fs.isDir dir = true)
    (hname : PlainName name)
    (hnew : fs.blocked (dir ++ [name]) = false) (hfile : fs.files.lookup (dir ++ [name]) = none) :
    fs.createDirectories (raw ++ 47 :: name) =
      { fs with dirs := (dir ++ [name]) :: fs.dirs } := by
  obtain ⟨hne, hwalk⟩ := walk_of_resolve htext hraw
  have hne' : raw ++ 47 :: name ≠ [] := by simp
  simp only [createDirectories, cString_child htext hname, if_neg hne', origin_append fs hne]
  rw [List.splitOn_append_cons_self, makeDirs_append hwalk hdir,
    List.splitOn_eq_singleton hname.2.2.2.1]
  have hnot : dir ++ [name] ∉ fs.files := AList.lookup_eq_none.mp hfile
  simp [makeDirs, hdir, hname.1, hname.2.1, hname.2.2.1, hnew, (not_blocked hnew).1, hnot]

/-! ### What the operations do to a file -/

section Effects

variable {fs : FileSystem} {raw source target data old : Bytes} {path p q : Path}

theorem truncate_of_resolve (hraw : fs.resolve raw = some path) (hfile : fs.blocked path = false) :
    fs.truncate raw = (true, { fs with files := fs.files.insert path [] }) := by
  simp [truncate, hraw, hfile]

theorem append_of_resolve (hraw : fs.resolve raw = some path)
    (hold : fs.files.lookup path = some old) :
    fs.append raw data = { fs with files := fs.files.insert path (old ++ data) } := by
  simp [append, hraw, hold]

theorem rename_of_resolve (hsource : fs.resolve source = some p)
    (htarget : fs.resolve target = some q) (hdata : fs.files.lookup p = some data)
    (hfile : fs.blocked q = false) :
    fs.rename source target = (true, { fs with files := (fs.files.erase p).insert q data }) := by
  simp [rename, hsource, htarget, hdata, hfile]

theorem remove_of_resolve (hraw : fs.resolve raw = some path) :
    fs.remove raw = { fs with files := fs.files.erase path } := by
  simp [remove, hraw]

theorem read_of_resolve (hraw : fs.resolve raw = some path) (hfile : fs.blocked path = false) :
    fs.read raw = (fs.files.lookup path).elim .absent .file := by
  simp [read, hraw, (not_blocked hfile).1, (not_blocked hfile).2]

theorem list_of_resolve (hraw : fs.resolve raw = some path) (hdir : fs.isDir path = true) :
    fs.list raw = some (fs.filesIn path) := by
  simp [list, hraw, hdir]

/-- A directory lists exactly its files, with their sizes. -/
theorem mem_filesIn {dir : Path} {name : Bytes} {size : Nat} :
    (name, size) ∈ fs.filesIn dir ↔
      ∃ data, fs.files.lookup (dir ++ [name]) = some data ∧ data.length = size := by
  simp only [filesIn, List.mem_filterMap]
  constructor
  · rintro ⟨⟨path, data⟩, hmem, hentry⟩
    split at hentry
    · rename_i hparent
      obtain ⟨last, hlast, heq⟩ := Option.map_eq_some_iff.mp hentry
      simp only [Prod.mk.injEq] at heq
      refine ⟨data, ?_, heq.2⟩
      have hpath : path = dir ++ [name] := by
        rw [← heq.1, ← hparent, List.dropLast_append_getLast? last hlast]
      rw [← hpath]
      exact AList.mem_lookup_iff.mpr hmem
    · simp at hentry
  · rintro ⟨data, hlookup, hsize⟩
    exact ⟨⟨dir ++ [name], data⟩, AList.mem_lookup_iff.mp hlookup, by simp [hsize]⟩

theorem filesIn_names_nodup (dir : Path) : ((fs.filesIn dir).map Prod.fst).Nodup := by
  have hkeys := fs.files.nodupKeys
  have hfun : (fs.filesIn dir).map Prod.fst =
      fs.files.entries.filterMap fun file =>
        if file.1.dropLast = dir then file.1.getLast? else none := by
    simp only [filesIn, List.map_filterMap]
    congr 1
    funext file
    split <;> simp [Function.comp_def]
  rw [hfun]
  have hentries : fs.files.entries.Pairwise fun a b => a.1 ≠ b.1 := by
    have := List.nodupKeys_iff_pairwise.mp hkeys
    exact this
  refine List.Pairwise.filterMap _ ?_ hentries
  intro a b hab x hx y hy hxy
  subst hxy
  split at hx
  · split at hy
    · rename_i ha hb
      apply hab
      rw [← List.dropLast_append_getLast? x hx, ← List.dropLast_append_getLast? x hy, ha, hb]
    · simp at hy
  · simp at hx

end Effects

/-! ### The file a path names -/

/-- Where a file of this path is, or would be made. -/
def fileAt (fs : FileSystem) (raw : Bytes) : Option Path :=
  (fs.resolve raw).filter fun path => !fs.blocked path

section FileAt

variable {fs : FileSystem} {raw source target data : Bytes} {path p q : Path}

theorem fileAt_eq_some : fs.fileAt raw = some path ↔
    fs.resolve raw = some path ∧ fs.blocked path = false := by
  simp [fileAt, Option.filter_eq_some_iff]

theorem fileAt_files (fs : FileSystem) (files : AList fun _ : Path => Bytes) (raw : Bytes) :
    FileSystem.fileAt { fs with files := files } raw = fs.fileAt raw := by
  have hresolve := @resolve_congr fs { fs with files := files } rfl rfl raw
  unfold fileAt
  rw [hresolve]
  rfl

theorem truncate_eq (fs : FileSystem) (raw : Bytes) :
    fs.truncate raw = match fs.fileAt raw with
      | none => (false, fs)
      | some path => (true, { fs with files := fs.files.insert path [] }) := by
  unfold truncate fileAt
  cases fs.resolve raw with
  | none => rfl
  | some path => cases hdir : fs.blocked path <;> simp [Option.filter, hdir]

theorem append_truncated (hraw : fs.fileAt raw = some path) (data : Bytes) :
    FileSystem.append { fs with files := fs.files.insert path [] } raw data =
      { fs with files := fs.files.insert path data } := by
  obtain ⟨hresolve, -⟩ := fileAt_eq_some.mp hraw
  have hresolve' : FileSystem.resolve { fs with files := fs.files.insert path [] } raw =
      some path := by
    rw [← hresolve]
    exact resolve_congr rfl rfl raw
  rw [append_of_resolve hresolve' (AList.lookup_insert _), List.nil_append, AList.insert_insert]

theorem rename_eq (hsource : fs.fileAt source = some p) (hdata : fs.files.lookup p = some data) :
    fs.rename source target = match fs.fileAt target with
      | none => (false, fs)
      | some q => (true, { fs with files := (fs.files.erase p).insert q data }) := by
  obtain ⟨hresolve, -⟩ := fileAt_eq_some.mp hsource
  unfold rename fileAt
  rw [hresolve]
  cases fs.resolve target with
  | none => rfl
  | some q => cases hdir : fs.blocked q <;> simp [Option.filter, hdir, hdata]

theorem remove_of_fileAt (hraw : fs.fileAt raw = some path) :
    fs.remove raw = { fs with files := fs.files.erase path } :=
  remove_of_resolve (fileAt_eq_some.mp hraw).1

theorem read_of_fileAt (hraw : fs.fileAt raw = some path) :
    fs.read raw = (fs.files.lookup path).elim .absent .file := by
  obtain ⟨hresolve, hdir⟩ := fileAt_eq_some.mp hraw
  exact read_of_resolve hresolve hdir

theorem read_of_fileAt_none (hraw : fs.fileAt raw = none) (files : AList fun _ : Path => Bytes) :
    FileSystem.read { fs with files := files } raw = fs.read raw := by
  have hresolve := @resolve_congr fs { fs with files := files } rfl rfl raw
  unfold fileAt at hraw
  unfold read
  rw [hresolve]
  cases hpath : fs.resolve raw with
  | none => rfl
  | some path =>
      rw [hpath] at hraw
      have hblocked : fs.blocked path = true := by simpa [Option.filter] using hraw
      simp only [show FileSystem.isDir { fs with files := files } path = fs.isDir path from rfl]
      cases hdir : fs.isDir path with
      | true => rfl
      | false =>
          obtain ⟨data, hdata⟩ := Option.isSome_iff_exists.mp
            (by simpa [blocked, hdir] using hblocked)
          simp [hdata]

theorem read_congr {files : AList fun _ : Path => Bytes}
    (hraw : ∀ path, fs.fileAt raw = some path → files.lookup path = fs.files.lookup path) :
    FileSystem.read { fs with files := files } raw = fs.read raw := by
  cases hpath : fs.fileAt raw with
  | none => exact read_of_fileAt_none hpath files
  | some path =>
      have hpath' := (fileAt_files fs files raw).trans hpath
      calc FileSystem.read { fs with files := files } raw
          = (files.lookup path).elim .absent .file := read_of_fileAt hpath'
        _ = (fs.files.lookup path).elim .absent .file := by rw [hraw path hpath]
        _ = fs.read raw := (read_of_fileAt hpath).symm

end FileAt

end FileSystem

end Posix
