import Wasapi.Config
import Wasapi.Library.WeightedMap

/-!
# The file cache

`read_entire_file_cached` and `write_entire_file`, with the cache they share. The steady clock
counts nanoseconds. The list of entries stands for the order in which the map is iterated.

The file system is an argument: `resolve` says which file a path names, and `Io` how the system
calls of one operation end. Every operation reads the steady clock once, and no two read the same
time.
-/

namespace Wasapi.FileIo

structure CachedFile where
  content : Bytes := []
  mtime : ℤ := 0
  lastCheck : ℕ
  size : ℕ := 0

/-- The globals of the cache. -/
structure FileCache where
  fileCache : AList fun _ : Bytes ↦ CachedFile := ∅
  totalCacheSize : ℕ := 0
  /-- a `uint32_t` -/
  callCounter : ℕ := 0

section

variable (cfg : GlobalConfig)

/-! ## Entries

The total is kept beside the map and is corrected at each insertion and removal. `std::min_element`
takes the first of several oldest entries in the order of iteration. -/

/-- `remove_entry_unlocked` -/
def removeEntry (filename : Bytes) (c : FileCache) : FileCache :=
  match c.fileCache.lookup filename with
  | none => c
  | some f =>
    { c with
      totalCacheSize := sizeT (c.totalCacheSize + 2 ^ 64 - f.size)
      fileCache := c.fileCache.erase filename }

/-- `insert_entry_unlocked` -/
def insertEntry (filename content : Bytes) (mtime : ℤ) (now : ℕ) (c : FileCache) : FileCache :=
  let c := removeEntry filename c
  { c with
    totalCacheSize := sizeT (c.totalCacheSize + content.length)
    fileCache := c.fileCache.insert filename
      { content := content, mtime := mtime, lastCheck := now, size := content.length } }

/-- One turn of `evict_ttl_unlocked`. -/
def evictExpired (now : ℕ) (c : FileCache) (filename : Bytes) : FileCache :=
  match c.fileCache.lookup filename with
  | none => c
  | some f =>
    if cfg.fileCacheTtl < ((now - f.lastCheck : ℕ) : ℚ) / 10 ^ 9 then removeEntry filename c else c

/-- `evict_ttl_unlocked` -/
def evictTtl (now : ℕ) (c : FileCache) : FileCache :=
  c.fileCache.keys.foldl (evictExpired cfg now) c

/-- The file whose entry `std::min_element` finds. -/
def oldest (c : FileCache) : Option Bytes :=
  (c.fileCache.entries.argmin fun e ↦ e.2.lastCheck).map Sigma.fst

/-- The loop of `evict_size_unlocked`; every turn removes an entry. -/
def evictSizeLoop : ℕ → FileCache → FileCache
  | 0, c => c
  | n + 1, c =>
    if cfg.fileCacheMaxSize < c.totalCacheSize then
      match oldest c with
      | none => c
      | some filename => evictSizeLoop n (removeEntry filename c)
    else c

/-- `evict_size_unlocked` -/
def evictSize (c : FileCache) : FileCache := evictSizeLoop cfg c.fileCache.entries.length c

/-- `maybe_maintain_unlocked` -/
def maybeMaintain (callCount now : ℕ) (c : FileCache) : FileCache :=
  if callCount % 10 = 0 then evictSize cfg (evictTtl cfg now c) else c

/-- `file_cache[filename]` -/
def indexCache (filename : Bytes) (now : ℕ) (c : FileCache) : CachedFile × FileCache :=
  match c.fileCache.lookup filename with
  | some f => (f, c)
  | none =>
    ({ lastCheck := now },
      { c with fileCache := c.fileCache.insert filename { lastCheck := now } })

/-! ## The locked sections of `read_entire_file_cached`

The mutex is held three times in one read, and what is done without it stands in between: `stat`,
and reading the file. -/

/-- The first one: the content, if it has been checked within the last second. -/
def checkFresh (filename : Bytes) (now : ℕ) (c : FileCache) : Option Bytes × FileCache :=
  let currentCall := (c.callCounter + 1) % 2 ^ 32
  let c := maybeMaintain cfg currentCall now { c with callCounter := currentCall }
  match c.fileCache.lookup filename with
  | none => (none, c)
  | some f => (if (now - f.lastCheck) / 10 ^ 9 < 1 then some f.content else none, c)

/-- The second one: the content, if the file has not changed since. -/
def checkUnchanged (filename : Bytes) (newMtime : ℤ) (now : ℕ) (c : FileCache) :
    Option Bytes × FileCache :=
  match c.fileCache.lookup filename with
  | none => (none, c)
  | some f =>
    let c := { c with fileCache := c.fileCache.insert filename { f with lastCheck := now } }
    if f.mtime = newMtime then (some f.content, c) else (none, removeEntry filename c)

/-- The third one: the content has been read. -/
def storeContent (filename content : Bytes) (newMtime : ℤ) (now : ℕ) (c : FileCache) :
    Bytes × FileCache :=
  let p := indexCache filename now (evictSize cfg (insertEntry filename content newMtime now c))
  (p.1.content, p.2)

end

/-! ## Files

How a system call ends is given from outside. A name is resolved to what identifies a file, since
two names may be one file, while the cache goes by the name. -/

structure StoredFile where
  content : Bytes
  /-- in seconds -/
  mtime : ℤ
  deriving DecidableEq

/-- How the system calls of an operation end, and when. -/
structure Io where
  /-- nanoseconds since the operation before, less one -/
  elapsed : ℕ := 0
  /-- what `std::time` returns -/
  time : ℤ := 0
  /-- the modification time a write leaves -/
  mtime : ℤ := 0
  statOk : Bool := true
  readOk : Bool := true
  openOk : Bool := true
  /-- how much is written before an error, if there is one -/
  written : Option ℕ := none
  unlinkOk : Bool := true

structure FileStore (κ : Type*) where
  /-- the files there are -/
  disk : κ → Option StoredFile
  cache : FileCache := {}
  now : ℕ := 0

section

variable {κ : Type*} (cfg : GlobalConfig) (resolve : Bytes → κ)

/-- The clock at the start of an operation. -/
def FileStore.tick (io : Io) (s : FileStore κ) : FileStore κ :=
  { s with now := s.now + io.elapsed + 1 }

def readEntireFileCached (io : Io) (filename : Bytes) (s : FileStore κ) : Bytes × FileStore κ :=
  match checkFresh cfg filename s.now s.cache with
  | (some content, c) => (content, { s with cache := c })
  | (none, c) =>
    match if io.statOk then s.disk (resolve filename) else none with
    | none => ([], { s with cache := c })
    | some file =>
      match checkUnchanged filename file.mtime s.now c with
      | (some content, c) => (content, { s with cache := c })
      | (none, c) =>
        if !io.readOk then ([], { s with cache := c })
        else if cfg.fileCacheMaxSize < file.content.length then
          (file.content, { s with cache := c })
        else
          let p := storeContent cfg filename file.content file.mtime s.now c
          (p.1, { s with cache := p.2 })

variable [DecidableEq κ]

/-- The file now has this content. -/
def FileStore.write (k : κ) (content : Bytes) (mtime : ℤ) (s : FileStore κ) : FileStore κ :=
  { s with disk := Function.update s.disk k (some ⟨content, mtime⟩) }

def writeEntireFile (io : Io) (filename content : Bytes) (s : FileStore κ) : Bool × FileStore κ :=
  if !io.openOk then (false, s)
  else
    match io.written with
    | some n => (false, s.write (resolve filename) (content.take n) io.mtime)
    | none =>
      let s := s.write (resolve filename) content io.mtime
      let c :=
        if cfg.fileCacheMaxSize < content.length then removeEntry filename s.cache
        else evictSize cfg (insertEntry filename content io.time s.now s.cache)
      (true, { s with cache := c })

/-- `::unlink`: whether there was a file to unlink. -/
def FileStore.unlink (io : Io) (filename : Bytes) (s : FileStore κ) : Bool × FileStore κ :=
  if io.unlinkOk && (s.disk (resolve filename)).isSome then
    (true, { s with disk := Function.update s.disk (resolve filename) none })
  else (false, s)

end

end Wasapi.FileIo
