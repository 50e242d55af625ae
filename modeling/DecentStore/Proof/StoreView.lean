import DecentStore.Proof.StoreLayout
import Mathlib.Data.List.Perm.Basic

/-!
# The store without paths

All a run of the store can see of the file system is `chunks/` and `metadata.db`. `View` is the
object with these two, and `ViewStep` is the store as a machine on views. `Leaves` says what a
program does to the disk; its rules follow the programs of the store call by call.
-/

namespace DecentStore

open Bytes Posix FileSystem Interaction

/-- The files of `chunks/` by name, and the text of `metadata.db`. -/
structure Disk where
  chunk : Bytes → Option Bytes
  metadata : Option Bytes

namespace Disk

def put (d : Disk) (name data : Bytes) : Disk :=
  { d with chunk := Function.update d.chunk name (some data) }

def drop (d : Disk) (name : Bytes) : Disk :=
  { d with chunk := Function.update d.chunk name none }

def save (d : Disk) (text : Bytes) : Disk := { d with metadata := some text }

def lose (d : Disk) : Disk := { d with metadata := none }

end Disk

def diskOf (dir : Path) (fs : FileSystem) : Disk where
  chunk name := fs.files.lookup (chunkAt dir name)
  metadata := fs.files.lookup (metadataAt dir)

structure View where
  sm : StorageManager
  disk : Disk

namespace View

variable (o : Orders) (v : View)

def persist : View := { v with disk := v.disk.save (v.sm.metadataText o) }

def evict (victim : MetaEntry) : View where
  sm := { v.sm with
    usedBytes := v.sm.usedBytes - victim.2.size
    metaMap := v.sm.metaMap.erase victim.1 }
  disk := v.disk.drop victim.1

def evictLoop : Nat → View → View
  | 0, v => v
  | fuel + 1, v =>
      if v.sm.maxBytes < v.sm.usedBytes then
        match v.sm.lruVictim o with
        | none => v
        | some victim => evictLoop fuel (v.evict victim)
      else v

def enforceLimit : View :=
  if v.sm.maxBytes = 0 then v else (evictLoop o v.sm.metaMap.entries.length v).persist o

/-- The chunk is on disk and in the map; the limit is not looked at yet. -/
def write (hash data : Bytes) : View where
  sm := (v.sm.release hash).record hash (UInt64.ofNat data.length)
  disk := (v.disk.drop (hash ++ str ".tmp")).put hash data

def storeChunk (hash data : Bytes) : View := (v.write hash data).enforceLimit o

def loadChunk (hash : Bytes) : View := View.persist o { v with sm := v.sm.touch hash }

def deleteChunk (hash : Bytes) : View :=
  View.persist o
    { sm := { v.sm.release hash with metaMap := v.sm.metaMap.erase hash }
      disk := v.disk.drop hash }

def setMaxBytes (bytes : UInt64) : View :=
  View.enforceLimit o { v with sm := { v.sm with maxBytes := bytes } }

end View

/-- An object as its constructor makes it. -/
def StorageManager.fresh (baseDir : Bytes) (maxBytes : UInt64) : StorageManager :=
  { baseDir := baseDir, maxBytes := maxBytes }

/-- A walk over `chunks/`: each file once, with its size. -/
structure Disk.Scan (d : Disk) (files : List (Bytes × Nat)) : Prop where
  nodup : (files.map Prod.fst).Nodup
  mem : ∀ name size, (name, size) ∈ files ↔ ∃ data, d.chunk name = some data ∧ data.length = size

/-- `init` of a new object reads the metadata if it can and scans the disk if not. -/
inductive Boots (o : Orders) (sm : StorageManager) (d : Disk) : View → Prop where
  | recover {text : Bytes} {sm' : StorageManager} (htext : d.metadata = some text)
      (hparse : sm.parseMetadata text = some sm') : Boots o sm d ⟨sm', d⟩
  | rebuild {files : List (Bytes × Nat)}
      (hlost : ∀ text, d.metadata = some text → sm.parseMetadata text = none)
      (hscan : d.Scan files) :
      Boots o sm d (View.persist o ⟨files.foldl StorageManager.addScanned sm, d⟩)

/-- The operations on views. -/
inductive ViewStep (o : Orders) (v : View) : StoreOp → Outcome → View → Prop where
  | storeChunk (hash data : Bytes) : ViewStep o v (.storeChunk hash data) .done
      (v.storeChunk o hash data)
  | loadChunk {hash data : Bytes} (hfile : v.disk.chunk hash = some data) :
      ViewStep o v (.loadChunk hash) (.loaded data) (v.loadChunk o hash)
  | missing {hash : Bytes} (hfile : v.disk.chunk hash = none) :
      ViewStep o v (.loadChunk hash)
        (.threw (.runtimeError (str "loadChunk: missing chunk " ++ hash))) v
  | deleteChunk (hash : Bytes) : ViewStep o v (.deleteChunk hash) .done (v.deleteChunk o hash)
  | setMaxBytes (bytes : UInt64) : ViewStep o v (.setMaxBytes bytes) .done (v.setMaxBytes o bytes)
  | restart {maxBytes : UInt64} {keepMetadata : Bool} {v' : View}
      (hboot : Boots o (.fresh v.sm.baseDir maxBytes)
        (if keepMetadata then v.disk else v.disk.lose) v') :
      ViewStep o v (.restart maxBytes keepMetadata) .done v'

theorem ViewStep.of_storeChunk {o : Orders} {v v' : View} {hash data : Bytes} {outcome : Outcome}
    (hstep : ViewStep o v (.storeChunk hash data) outcome v') :
    outcome = .done ∧ v' = v.storeChunk o hash data := by
  cases hstep
  exact ⟨rfl, rfl⟩

section Leaves

variable {base : Bytes} {dir : Path} {fs : FileSystem} {α β : Type}

/-- The program returns, keeps the layout, and leaves this disk. -/
def Leaves (base : Bytes) (dir : Path) (prog : FsProg α) (fs : FileSystem) (a : α) (d : Disk) :
    Prop :=
  ∃ fs', prog.run FileSystem.handle fs = (.ok a, fs') ∧ Layout base dir fs' ∧ diskOf dir fs' = d

theorem leaves_pure (layout : Layout base dir fs) (a : α) :
    Leaves base dir (pure a) fs a (diskOf dir fs) :=
  ⟨fs, rfl, layout, rfl⟩

theorem leaves_bind {prog : FsProg α} {next : α → FsProg β} {a : α} {b : β} {d d' : Disk}
    (hprog : Leaves base dir prog fs a d)
    (hnext : ∀ fs', Layout base dir fs' → diskOf dir fs' = d →
      Leaves base dir (next a) fs' b d') :
    Leaves base dir (prog >>= next) fs b d' := by
  obtain ⟨fs', hrun, layout', hdisk⟩ := hprog
  obtain ⟨fs'', hrun', layout'', hdisk'⟩ := hnext fs' layout' hdisk
  exact ⟨fs'', by rw [Prog.run_bind_of_ok hrun, hrun'], layout'', hdisk'⟩

theorem diskOf_insert_chunk (dir : Path) (fs : FileSystem) (name data : Bytes) :
    diskOf dir { fs with files := fs.files.insert (chunkAt dir name) data } =
      (diskOf dir fs).put name data := by
  unfold diskOf Disk.put
  congr 1
  · funext other
    by_cases hname : other = name
    · subst hname
      simp
    · rw [Function.update_of_ne hname]
      exact AList.lookup_insert_ne (by simpa [chunkAt_injective] using hname)
  · exact AList.lookup_insert_ne (chunkAt_ne_metadataAt dir name).symm

theorem diskOf_erase_chunk (dir : Path) (fs : FileSystem) (name : Bytes) :
    diskOf dir { fs with files := fs.files.erase (chunkAt dir name) } =
      (diskOf dir fs).drop name := by
  unfold diskOf Disk.drop
  congr 1
  · funext other
    by_cases hname : other = name
    · subst hname
      simp
    · rw [Function.update_of_ne hname]
      exact AList.lookup_erase_ne (by simpa [chunkAt_injective] using hname)
  · exact AList.lookup_erase_ne (chunkAt_ne_metadataAt dir name).symm

theorem diskOf_insert_metadata (dir : Path) (fs : FileSystem) (text : Bytes) :
    diskOf dir { fs with files := fs.files.insert (metadataAt dir) text } =
      (diskOf dir fs).save text := by
  unfold diskOf Disk.save
  congr 1
  · funext name
    exact AList.lookup_insert_ne (chunkAt_ne_metadataAt dir name)
  · exact AList.lookup_insert _

theorem diskOf_erase_metadata (dir : Path) (fs : FileSystem) :
    diskOf dir { fs with files := fs.files.erase (metadataAt dir) } =
      (diskOf dir fs).lose := by
  unfold diskOf Disk.lose
  congr 1
  · funext name
    exact AList.lookup_erase_ne (chunkAt_ne_metadataAt dir name)
  · exact AList.lookup_erase _ _

variable {raw target name other data old : Bytes}

theorem leaves_truncate (layout : Layout base dir fs)
    (hraw : fs.resolve raw = some (chunkAt dir name)) :
    Leaves base dir (Fs.truncate raw) fs true ((diskOf dir fs).put name []) :=
  ⟨_, by rw [Fs.run_truncate, truncate_of_resolve hraw (layout.not_blocked_chunk name)],
    layout.of_files _, diskOf_insert_chunk dir fs name []⟩

theorem leaves_append (layout : Layout base dir fs)
    (hraw : fs.resolve raw = some (chunkAt dir name))
    (hold : (diskOf dir fs).chunk name = some old) :
    Leaves base dir (Fs.append raw data) fs () ((diskOf dir fs).put name (old ++ data)) :=
  ⟨_, by rw [Fs.run_append, append_of_resolve hraw hold], layout.of_files _,
    diskOf_insert_chunk dir fs name _⟩

theorem leaves_rename (layout : Layout base dir fs)
    (hraw : fs.resolve raw = some (chunkAt dir name))
    (htarget : fs.resolve target = some (chunkAt dir other))
    (hdata : (diskOf dir fs).chunk name = some data) :
    Leaves base dir (Fs.rename raw target) fs true
      (((diskOf dir fs).drop name).put other data) := by
  refine ⟨_, by
    rw [Fs.run_rename, rename_of_resolve hraw htarget hdata (layout.not_blocked_chunk other)],
    layout.of_files _, ?_⟩
  rw [← diskOf_erase_chunk, ← diskOf_insert_chunk]

theorem leaves_remove (layout : Layout base dir fs)
    (hraw : fs.resolve raw = some (chunkAt dir name)) :
    Leaves base dir (Fs.remove raw) fs () ((diskOf dir fs).drop name) :=
  ⟨_, by rw [Fs.run_remove, remove_of_resolve hraw], layout.of_files _,
    diskOf_erase_chunk dir fs name⟩

end Leaves

end DecentStore
