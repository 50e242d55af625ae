import DecentStore.Storage

/-!
# Where the store's files are

The store builds its paths by pasting a chunk id after `chunks/`. For an id of hex digits the path
resolves to a file of that name in the directory `chunks`, its temporary file is another name there,
and `metadata.db` lies beside. `Layout` says that the directories are in place; no operation but
`init` changes a directory, so every other fact is about the files alone.
-/

namespace DecentStore

open Bytes Posix FileSystem

theorem IsHashHex.plainName {hash : Bytes} (hhash : IsHashHex hash) : PlainName hash := by
  have hclass : ∀ b ∈ hash, b ≠ 47 ∧ b ≠ 46 := fun b hb =>
    ⟨(isHexDigit_class (hhash.2 b hb)).2.1, (isHexDigit_class (hhash.2 b hb)).2.2.1⟩
  have hzero : (0 : UInt8) ∉ hash := fun hb => absurd (hhash.2 0 hb) (by decide)
  refine ⟨hhash.ne_nil, ?_, ?_, fun hslash => (hclass 47 hslash).1 rfl, hzero⟩
  · rintro rfl
    exact (hclass 46 (by decide)).2 rfl
  · rintro rfl
    exact (hclass 46 (by decide)).2 rfl

theorem plainName_tmp {name : Bytes} (hname : PlainName name) :
    PlainName (name ++ str ".tmp") := by
  have hlen : 4 < (name ++ str ".tmp").length := by
    have hpos := List.length_pos_iff.mpr hname.1
    have htmp : (str ".tmp").length = 4 := by decide
    rw [List.length_append, htmp]
    omega
  refine ⟨?_, ?_, ?_, ?_, ?_⟩
  · exact fun heq => absurd (heq ▸ hlen) (by decide)
  · exact fun heq => absurd (heq ▸ hlen) (by decide)
  · exact fun heq => absurd (heq ▸ hlen) (by decide)
  · rw [List.mem_append, not_or]
    exact ⟨hname.2.2.2.1, by decide⟩
  · rw [List.mem_append, not_or]
    exact ⟨hname.2.2.2.2, by decide⟩

theorem IsHashHex.ne_tmp {hash other : Bytes} (hhash : IsHashHex hash) (hother : IsHashHex other) :
    other ≠ hash ++ str ".tmp" := by
  rintro rfl
  have hlen := hother.1
  rw [List.length_append, hhash.1] at hlen
  exact absurd hlen (by decide)

def chunksAt (dir : Path) : Path := dir ++ [str "chunks"]

def manifestsAt (dir : Path) : Path := dir ++ [str "manifests"]

def chunkAt (dir : Path) (name : Bytes) : Path := chunksAt dir ++ [name]

def metadataAt (dir : Path) : Path := dir ++ [str "metadata.db"]

/-- `base` names a directory with `chunks` and `manifests` in it and, beyond these two, nothing but
regular files below. -/
structure Layout (base : Bytes) (dir : Path) (fs : FileSystem) : Prop where
  text : (0 : UInt8) ∉ base
  resolves : fs.resolve base = some dir
  isDir_base : fs.isDir dir = true
  isDir_chunks : fs.isDir (chunksAt dir) = true
  isDir_manifests : fs.isDir (manifestsAt dir) = true
  below : ∀ p ∈ fs.dirs, dir <+: p → p = dir ∨ p = chunksAt dir ∨ p = manifestsAt dir
  regular : ∀ p, dir <+: p → fs.unseekable.lookup p = none

/-- `base` names a directory with nothing in it. -/
structure EmptyDir (base : Bytes) (dir : Path) (fs : FileSystem) : Prop where
  text : (0 : UInt8) ∉ base
  resolves : fs.resolve base = some dir
  isDir_base : fs.isDir dir = true
  no_dirs : ∀ p ∈ fs.dirs, dir <+: p → p = dir
  no_files : ∀ p, dir <+: p → fs.files.lookup p = none
  regular : ∀ p, dir <+: p → fs.unseekable.lookup p = none

/-- A disk with one directory, `/peer`. -/
def bareDisk : FileSystem where
  cwd := []
  dirs := [[str "peer"]]
  files := ∅

theorem bareDisk_empty : EmptyDir (str "/peer") [str "peer"] bareDisk where
  text := by decide
  resolves := by decide +kernel
  isDir_base := by decide
  no_dirs := by simp [bareDisk]
  no_files := fun p _ => AList.lookup_empty p
  regular := fun p _ => AList.lookup_empty p

def someId : Bytes := List.replicate 64 97

theorem someId_hash : IsHashHex someId := by decide

theorem chunkAt_ne_metadataAt (dir : Path) (name : Bytes) : chunkAt dir name ≠ metadataAt dir := by
  intro heq
  have hlen := congrArg List.length heq
  simp [chunkAt, chunksAt, metadataAt] at hlen

theorem chunkAt_injective (dir : Path) {a b : Bytes} : chunkAt dir a = chunkAt dir b ↔ a = b := by
  simp [chunkAt]

namespace Layout

variable {base : Bytes} {dir : Path} {fs : FileSystem}

theorem of_files (layout : Layout base dir fs) (files : AList fun _ : Path => Bytes) :
    Layout base dir { fs with files := files } where
  text := layout.text
  resolves := (resolve_congr rfl rfl base).trans layout.resolves
  isDir_base := layout.isDir_base
  isDir_chunks := layout.isDir_chunks
  isDir_manifests := layout.isDir_manifests
  below := layout.below
  regular := layout.regular

theorem resolve_chunksDir (layout : Layout base dir fs) :
    fs.resolve (base ++ str "/chunks") = some (chunksAt dir) :=
  resolve_child layout.text layout.resolves layout.isDir_base (by decide)

theorem text_chunksDir (layout : Layout base dir fs) : (0 : UInt8) ∉ base ++ str "/chunks" := by
  rw [List.mem_append, not_or]
  exact ⟨layout.text, by decide⟩

theorem resolve_chunk (layout : Layout base dir fs) {name : Bytes} (hname : PlainName name) :
    fs.resolve (base ++ str "/chunks" ++ 47 :: name) = some (chunkAt dir name) :=
  resolve_child layout.text_chunksDir layout.resolve_chunksDir layout.isDir_chunks hname

theorem resolve_metadata (layout : Layout base dir fs) :
    fs.resolve (base ++ str "/metadata.db") = some (metadataAt dir) :=
  resolve_child layout.text layout.resolves layout.isDir_base (by decide)

theorem not_blocked_of_below (layout : Layout base dir fs) {p : Path} (hbelow : dir <+: p)
    (hne : p ≠ dir) (hchunks : p ≠ chunksAt dir) (hmanifests : p ≠ manifestsAt dir) :
    fs.blocked p = false := by
  have hroot : p ≠ [] := by
    rintro rfl
    exact hne (List.prefix_nil.mp hbelow).symm
  have hmem : p ∉ fs.dirs := by
    intro hp
    rcases layout.below p hp hbelow with h | h | h
    · exact hne h
    · exact hchunks h
    · exact hmanifests h
  simp [blocked, isDir, hroot, hmem, layout.regular p hbelow]

theorem not_blocked_chunk (layout : Layout base dir fs) (name : Bytes) :
    fs.blocked (chunkAt dir name) = false := by
  have hlen : (chunkAt dir name).length = dir.length + 2 := by simp [chunkAt, chunksAt]
  refine layout.not_blocked_of_below ⟨[str "chunks", name], by simp [chunkAt, chunksAt]⟩ ?_ ?_ ?_
  · exact fun heq => by simp [heq] at hlen
  · exact fun heq => by simp [heq, chunksAt] at hlen
  · exact fun heq => by simp [heq, manifestsAt] at hlen

theorem not_blocked_metadata (layout : Layout base dir fs) :
    fs.blocked (metadataAt dir) = false := by
  refine layout.not_blocked_of_below ⟨[str "metadata.db"], rfl⟩ ?_ ?_ ?_
  · simp [metadataAt]
  · simp only [metadataAt, chunksAt, ne_eq, List.append_cancel_left_eq, List.cons.injEq, and_true]
    decide
  · simp only [metadataAt, manifestsAt, ne_eq, List.append_cancel_left_eq, List.cons.injEq,
      and_true]
    decide

end Layout

namespace StorageManager

variable {sm : StorageManager} {dir : Path} {fs : FileSystem}

theorem chunkPath_eq (sm : StorageManager) (hash : Bytes) :
    sm.chunkPath hash = sm.baseDir ++ str "/chunks" ++ 47 :: hash := by
  have hslash : str "/" = [47] := by decide
  simp [chunkPath, chunksDir, hslash]

theorem resolve_chunkPath (layout : Layout sm.baseDir dir fs) {hash : Bytes}
    (hhash : IsHashHex hash) : fs.resolve (sm.chunkPath hash) = some (chunkAt dir hash) := by
  rw [chunkPath_eq]
  exact layout.resolve_chunk hhash.plainName

theorem resolve_tmpPath (layout : Layout sm.baseDir dir fs) {hash : Bytes}
    (hhash : IsHashHex hash) :
    fs.resolve (sm.chunkPath hash ++ str ".tmp") = some (chunkAt dir (hash ++ str ".tmp")) := by
  rw [chunkPath_eq, List.append_assoc, List.cons_append]
  exact layout.resolve_chunk (plainName_tmp hhash.plainName)

end StorageManager

end DecentStore
