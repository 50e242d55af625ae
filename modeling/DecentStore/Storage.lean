import DecentStore.Basic
import DecentStore.Lib.FileSystem
import DecentStore.Lib.IStream

/-!
# The chunk store of a peer

`core/storage/storage_manager`. Each operation is a program over the file-system calls it makes, in
the order it makes them, and carries the object's own fields along; an exception leaves with the
fields as they were at the throw. The two containers whose walking order the standard library leaves
open, the unordered map `meta_` and the directory iterator, are walked in an arbitrary order.
-/

namespace DecentStore

open Bytes Posix Interaction

structure ChunkMeta where
  size : UInt64 := 0
  lastAccess : UInt64 := 0
deriving DecidableEq

/-- `meta_`, a map from chunk ids. -/
abbrev MetaMap := AList fun _ : Bytes => ChunkMeta

abbrev MetaEntry := Σ _ : Bytes, ChunkMeta

/-- An order in which a container may be walked. -/
structure WalkOrder (α : Type) where
  order : List α → List α
  perm : ∀ l, (order l).Perm l

instance {α : Type} : Inhabited (WalkOrder α) := ⟨id, fun l => List.Perm.refl l⟩

structure Orders where
  metaMap : WalkOrder MetaEntry
  directory : WalkOrder (Bytes × Nat)
deriving Inhabited

structure StorageManager where
  baseDir : Bytes
  maxBytes : UInt64
  usedBytes : UInt64 := 0
  accessCounter : UInt64 := 0
  metaMap : MetaMap := ∅

/-- Programs over the file system; an exception carries the object it leaves behind. -/
abbrev FsProg := Prog FsReply (Exc × StorageManager)

namespace StorageManager

variable (o : Orders) (sm : StorageManager)

def chunksDir : Bytes := sm.baseDir ++ str "/chunks"

def manifestsDir : Bytes := sm.baseDir ++ str "/manifests"

def metaPath : Bytes := sm.baseDir ++ str "/metadata.db"

def chunkPath (hash : Bytes) : Bytes := sm.chunksDir ++ str "/" ++ hash

/-! ### The metadata file -/

def metadataLine (entry : MetaEntry) : Bytes :=
  entry.1 ++ str " " ++ decimal entry.2.size.toNat ++ str " " ++
    decimal entry.2.lastAccess.toNat ++ str "\n"

def metadataText : Bytes :=
  decimal sm.accessCounter.toNat ++ str " " ++ decimal sm.usedBytes.toNat ++ str "\n" ++
    (o.metaMap.order sm.metaMap.entries).flatMap metadataLine

/-- Best effort: a metadata file that cannot be opened is skipped. -/
def persistMetadata : FsProg Unit := do
  let opened ← Fs.truncate sm.metaPath
  if opened = true then Fs.append sm.metaPath (metadataText o sm) else pure ()

/-- One directory entry of the scan. -/
def addScanned (sm : StorageManager) (file : Bytes × Nat) : StorageManager :=
  let size := UInt64.ofNat file.2
  { sm with
    accessCounter := sm.accessCounter + 1
    usedBytes := sm.usedBytes + size
    metaMap := sm.metaMap.insert file.1 { size := size, lastAccess := sm.accessCounter + 1 } }

def cleared : StorageManager := { sm with usedBytes := 0, accessCounter := 0, metaMap := ∅ }

def rebuildMetadataFromDisk : FsProg StorageManager := do
  let files ← Fs.list sm.chunksDir
  match files with
  | none => pure sm.cleared
  | some files =>
      let sm := (o.directory.order files).foldl addScanned sm.cleared
      persistMetadata o sm
      pure sm

/-- `while (in >> id >> m.size >> m.lastAccess)`. Every turn reads at least one byte. -/
def readEntries : Nat → IStream → MetaMap → MetaMap
  | 0, _, metaMap => metaMap
  | fuel + 1, is, metaMap =>
      let (id, is) := is.getString []
      let (size, is) := is.getUInt64 0
      let (lastAccess, is) := is.getUInt64 0
      if is.failed then metaMap
      else readEntries fuel is (metaMap.insert id { size := size, lastAccess := lastAccess })

/-- The header and the entries of a metadata text, unless the header is malformed. -/
def parseMetadata (text : Bytes) : Option StorageManager :=
  let (storedCounter, is) := IStream.getUInt64 ⟨text, false⟩ 0
  let (storedUsed, is) := is.getUInt64 0
  if is.failed then none
  else some { sm with
    accessCounter := storedCounter, usedBytes := storedUsed
    metaMap := readEntries (text.length + 1) is ∅ }

def loadMetadata : FsProg StorageManager := do
  let text ← Fs.read sm.metaPath
  match text with
  | .absent => rebuildMetadataFromDisk o sm
  | .directory _ => rebuildMetadataFromDisk o sm
  | .file text | .unseekable text =>
      match sm.parseMetadata text with
      | none => rebuildMetadataFromDisk o sm
      | some sm => pure sm

def init : FsProg StorageManager := do
  Fs.createDirectories sm.baseDir
  Fs.createDirectories sm.chunksDir
  Fs.createDirectories sm.manifestsDir
  loadMetadata o sm

/-! ### Eviction -/

/-- The scan for the minimum: an entry replaces the victim only if its access is strictly older. -/
def olderOf (victim entry : MetaEntry) : MetaEntry :=
  if entry.2.lastAccess < victim.2.lastAccess then entry else victim

def lruVictim : Option MetaEntry :=
  match o.metaMap.order sm.metaMap.entries with
  | [] => none
  | first :: rest => some (rest.foldl olderOf first)

/-- The eviction loop. It removes an entry in each turn, so as many turns as there are entries. -/
def evictLoop : Nat → StorageManager → FsProg StorageManager
  | 0, sm => pure sm
  | fuel + 1, sm =>
      if sm.maxBytes < sm.usedBytes then
        match lruVictim o sm with
        | none => pure sm
        | some victim => do
            Fs.remove (sm.chunkPath victim.1)
            evictLoop fuel { sm with
              usedBytes := sm.usedBytes - victim.2.size
              metaMap := sm.metaMap.erase victim.1 }
      else pure sm

def enforceLimit : FsProg StorageManager :=
  if sm.maxBytes = 0 then pure sm
  else do
    let sm ← evictLoop o sm.metaMap.entries.length sm
    persistMetadata o sm
    pure sm

/-! ### The operations -/

def setMaxBytes (bytes : UInt64) : FsProg StorageManager :=
  enforceLimit o { sm with maxBytes := bytes }

def touch (hash : Bytes) : StorageManager :=
  match sm.metaMap.lookup hash with
  | none => sm
  | some m =>
      { sm with
        accessCounter := sm.accessCounter + 1
        metaMap := sm.metaMap.insert hash { m with lastAccess := sm.accessCounter + 1 } }

/-- Take the recorded size of an id off the counter, never below zero. -/
def release (hash : Bytes) : StorageManager :=
  match sm.metaMap.lookup hash with
  | none => sm
  | some m =>
      { sm with usedBytes := if m.size ≤ sm.usedBytes then sm.usedBytes - m.size else 0 }

def record (hash : Bytes) (newSize : UInt64) : StorageManager :=
  { sm with
    accessCounter := sm.accessCounter + 1
    usedBytes := sm.usedBytes + newSize
    metaMap := sm.metaMap.insert hash { size := newSize, lastAccess := sm.accessCounter + 1 } }

def storeChunk (hash data : Bytes) : FsProg StorageManager :=
  if hash = [] then throw (.runtimeError (str "storeChunk: empty hash"), sm)
  else do
    let sm := sm.release hash
    let pathTmp := sm.chunkPath hash ++ str ".tmp"
    let opened ← Fs.truncate pathTmp
    if opened = false then
      throw (.runtimeError (str "storeChunk: failed to open temp file for " ++ hash), sm)
    Fs.append pathTmp data
    let renamed ← Fs.rename pathTmp (sm.chunkPath hash)
    if renamed = false then
      -- the removal reports through the same error code, so the text says how the removal went
      Fs.remove pathTmp
      throw (.runtimeError (str "storeChunk: rename failed for " ++ hash ++ str ": Success"), sm)
    enforceLimit o (sm.record hash (UInt64.ofNat data.length))

/-- The buffer for a file, as long as its end says; no regular file is longer than a container can
be. Of a directory nothing is read into it. Where there is no end to seek, `tellg` is -1, which is
the largest size there is. -/
def fileBuffer [Memory] (most : Nat) (tooLong : Exc) : Opened → Except Exc (Option Bytes)
  | .absent => .ok none
  | .file data =>
      if Memory.holds (data.length + (maxSize - most)) then .ok (some data) else .error .badAlloc
  | .directory size => do
      allocate most tooLong size
      .ok (some (List.replicate size 0))
  | .unseekable _ => .error tooLong

theorem fileBuffer_of_holds [Memory] {most : Nat} (tooLong : Exc) {data : Bytes}
    (hholds : Memory.holds (data.length + (maxSize - most)) = true) :
    fileBuffer most tooLong (.file data) = .ok (some data) := if_pos hholds

theorem fileBuffer_file (most : Nat) (tooLong : Exc) (data : Bytes) :
    fileBuffer most tooLong (.file data) = .ok (some data) := rfl

def loadChunk [Memory] (hash : Bytes) : FsProg (Bytes × StorageManager) := do
  let file ← Fs.read (sm.chunkPath hash)
  match fileBuffer maxSize (.lengthError (str "vector::_M_default_append")) file with
  | .error e => throw (e, sm)
  | .ok none => throw (.runtimeError (str "loadChunk: missing chunk " ++ hash), sm)
  | .ok (some data) =>
      let sm := sm.touch hash
      persistMetadata o sm
      pure (data, sm)

def deleteChunk (hash : Bytes) : FsProg StorageManager := do
  let sm := { sm.release hash with metaMap := sm.metaMap.erase hash }
  Fs.remove (sm.chunkPath hash)
  persistMetadata o sm
  pure sm

/-- Metadata only, no disk access. -/
def hasChunk (hash : Bytes) : Bool := (sm.metaMap.lookup hash).isSome

end StorageManager

/-! ### Runs -/

/-- An instance of the store and the disk under it. -/
structure Store where
  sm : StorageManager
  fs : FileSystem

inductive StoreOp where
  | storeChunk (hash data : Bytes)
  | loadChunk (hash : Bytes)
  | deleteChunk (hash : Bytes)
  | setMaxBytes (bytes : UInt64)
  /-- A new instance on the same directory, `metadata.db` kept or removed just before. -/
  | restart (maxBytes : UInt64) (keepMetadata : Bool)

inductive Outcome where
  | done
  | loaded (data : Bytes)
  | threw (e : Exc)
deriving DecidableEq

namespace Store

/-- A program that returns the object, run to its end. -/
def exec (prog : FsProg StorageManager) (fs : FileSystem) : Outcome × Store :=
  match prog.run FileSystem.handle fs with
  | (.ok sm, fs) => (.done, ⟨sm, fs⟩)
  | (.error (e, sm), fs) => (.threw e, ⟨sm, fs⟩)

def execLoad (prog : FsProg (Bytes × StorageManager)) (fs : FileSystem) : Outcome × Store :=
  match prog.run FileSystem.handle fs with
  | (.ok (data, sm), fs) => (.loaded data, ⟨sm, fs⟩)
  | (.error (e, sm), fs) => (.threw e, ⟨sm, fs⟩)

def boot (o : Orders) (baseDir : Bytes) (maxBytes : UInt64) (fs : FileSystem) : Outcome × Store :=
  exec (StorageManager.init o { baseDir := baseDir, maxBytes := maxBytes }) fs

def step [Memory] (s : Store) (o : Orders) (op : StoreOp) : Outcome × Store :=
  match op with
  | .storeChunk hash data => exec (s.sm.storeChunk o hash data) s.fs
  | .loadChunk hash => execLoad (s.sm.loadChunk o hash) s.fs
  | .deleteChunk hash => exec (s.sm.deleteChunk o hash) s.fs
  | .setMaxBytes bytes => exec (s.sm.setMaxBytes o bytes) s.fs
  | .restart maxBytes keepMetadata =>
      boot o s.sm.baseDir maxBytes (if keepMetadata then s.fs else s.fs.remove s.sm.metaPath)

end Store

/-- What has been done to a store, latest operation first, with how each ended. -/
abbrev Trace := List (StoreOp × Outcome)

/-- The runs from a store in which every operation is allowed in the state it meets. Each operation
meets walking orders of its own. -/
inductive Runs [Memory] (allowed : Store → StoreOp → Prop) (start : Store) :
    Trace → Store → Prop where
  | start : Runs allowed start [] start
  | step {trace : Trace} {s : Store} (o : Orders) (op : StoreOp) (hrun : Runs allowed start trace s)
      (hop : allowed s op) :
      Runs allowed start ((op, (s.step o op).1) :: trace) (s.step o op).2

end DecentStore
