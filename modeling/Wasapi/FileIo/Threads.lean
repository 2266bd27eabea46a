import Wasapi.FileIo.Cache
import Wasapi.Library.Transitions

/-!
# Threads that share the file cache

`read_entire_file_cached` and `write_entire_file`, called by any number of threads. What a thread
does with `cache_mutex` held is one step, so between two steps the mutex is free. Every other step
is one system call, one reading of the clock or one access to `call_counter`, except that a file is
closed in the step of the last `read` or `write`. Between the steps other processes change files,
and time passes.

A stream that reads a file of known size asks again after a `read` that returns less, until it has
that size or the file ends, and one that writes goes on after a `write` that takes less. Other
threads and processes may touch the file between two of these calls. A thread that writes puts its
octets where it is in the file, over what others may have put there since it was truncated. A file
is found under its name at every call, so one that is removed while it is open has nothing more to
read, and what is written to it is lost.

A read of a file that nobody else touches meanwhile is `readEntireFileCached`, however the kernel
cuts it, and a write is `writeEntireFile`. There is no counterpart in the latter to an error that
shows only at `close`, which `write_entire_file` does not look at: the call goes on to the cache,
and `noticed` says so here.
-/

namespace Wasapi.FileIo

/-- Where a thread is. In a read, `now` is what the clock said at its start. -/
inductive Call where
  | idle
  | reading (filename : Bytes)
  | counted (filename : Bytes) (currentCall : ℕ)
  /-- before the first locked section -/
  | started (filename : Bytes) (currentCall now : ℕ)
  /-- before `stat` -/
  | missed (filename : Bytes) (now : ℕ)
  /-- before the second locked section -/
  | found (filename : Bytes) (now : ℕ) (newMtime : ℤ) (fileSize : ℕ)
  /-- before `read_file_binary` opens the file -/
  | outdated (filename : Bytes) (now : ℕ) (newMtime : ℤ) (fileSize : ℕ)
  /-- the file is open, and `content` has been read from it -/
  | opened (filename : Bytes) (now : ℕ) (newMtime : ℤ) (fileSize : ℕ) (content : Bytes)
  /-- before the third locked section -/
  | loaded (filename : Bytes) (now : ℕ) (newMtime : ℤ) (content : Bytes)
  /-- has returned `content`; `ok` unless `stat` or the reading has failed -/
  | read (filename : Bytes) (now : ℕ) (content : Bytes) (ok : Bool)
  | writing (filename content : Bytes)
  /-- the file is open, and the first `count` octets have been written -/
  | truncated (filename content : Bytes) (count : ℕ)
  /-- the file is closed; before the locked section -/
  | written (filename content : Bytes)
  /-- has returned `ok` -/
  | wrote (ok : Bool)
  deriving DecidableEq

/-- Whether the thread can make a call. -/
def Call.isOver : Call → Bool
  | .idle | .read .. | .wrote _ => true
  | _ => false

structure World (ι κ : Type*) where
  /-- the files there are -/
  disk : κ → Option StoredFile
  cache : FileCache := {}
  now : ℕ := 0
  call : ι → Call := fun _ ↦ .idle
  /-- when the file was last changed, if it was; no step depends on it -/
  changedAt : κ → Option ℕ := fun _ ↦ none

/-- How the system calls of a step end. -/
structure StepIo where
  /-- whether `stat`, `read` or opening the file succeeds -/
  ok : Bool := true
  /-- how many octets, less one, a `read` or `write` moves at most, if fewer than it could -/
  octets : Option ℕ := none
  /-- what `std::time` returns -/
  time : ℤ := 0
  /-- the modification time a write leaves -/
  mtime : ℤ := 0
  /-- how much this step writes before an error, if there is one -/
  written : Option ℕ := none
  /-- whether the error occurs before `close`, where it would go unnoticed -/
  noticed : Bool := true
  /-- nanoseconds between the readings of the clock in one locked section -/
  elapsed : ℕ := 0

inductive Event (ι κ : Type*) where
  /-- nanoseconds pass -/
  | elapse (n : ℕ)
  /-- another process writes, touches or removes a file -/
  | change (k : κ) (file : Option StoredFile)
  /-- a thread calls `read_entire_file_cached` -/
  | read (t : ι) (filename : Bytes)
  /-- a thread calls `write_entire_file` -/
  | write (t : ι) (filename content : Bytes)
  /-- a thread takes the next step of its call -/
  | step (t : ι) (io : StepIo)

section

variable {ι κ : Type*} (cfg : GlobalConfig) (resolve : Bytes → κ)

/-! ## Locked sections

The same sections as for a caller alone, with the clock read more than once, since time may pass
while the mutex is held. -/

/-- The first section of a read. Maintenance reads the clock again. -/
def findFresh (filename : Bytes) (currentCall now maintained : ℕ) (c : FileCache) :
    Option Bytes × FileCache :=
  let c := maybeMaintain cfg currentCall maintained c
  match c.fileCache.lookup filename with
  | none => (none, c)
  | some f => (if (now - f.lastCheck) / 10 ^ 9 < 1 then some f.content else none, c)

/-- The third one. An entry that `file_cache[filename]` makes reads the clock again. -/
def storeRead (filename content : Bytes) (newMtime : ℤ) (now indexed : ℕ) (c : FileCache) :
    Bytes × FileCache :=
  let p := indexCache filename indexed (evictSize cfg (insertEntry filename content newMtime now c))
  (p.1.content, p.2)

/-- The section of a write. -/
def storeWritten (filename content : Bytes) (time : ℤ) (now : ℕ) (c : FileCache) : FileCache :=
  if cfg.fileCacheMaxSize < content.length then removeEntry filename c
  else evictSize cfg (insertEntry filename content time now c)

/-! ## Files

A system call that moves octets may move fewer than it could. `read_file_binary` and the stream that
writes go on from where they are, without another look at what is in front of it. -/

/-- What is in the file. -/
def World.contentOf (s : World ι κ) (k : κ) : Bytes :=
  match s.disk k with
  | some file => file.content
  | none => []

/-- What a call that is to move `n` octets of these moves. -/
def movedOctets (octets : Option ℕ) (n : ℕ) (rest : Bytes) : Bytes :=
  match octets with
  | none => rest.take n
  | some m => rest.take (min (m + 1) n)

/-- `read_file_binary` with a known size has read so much: it goes on, or the call does. -/
def Call.afterRead (filename : Bytes) (now : ℕ) (newMtime : ℤ) (fileSize : ℕ) (content : Bytes) :
    Call :=
  if content.length < fileSize then .opened filename now newMtime fileSize content
  else if cfg.fileCacheMaxSize < content.length then .read filename now content true
  else .loaded filename now newMtime content

/-- What becomes of a file when these octets are written behind the first `count`. Zeros fill a gap
that another truncation has left. -/
def overwrite (count : ℕ) (octets old : Bytes) : Bytes :=
  if octets = [] then old else old.takeD count 0 ++ octets ++ old.drop (count + octets.length)

/-- What this step writes if so much is left. An error leaves what has been written so far. -/
def StepIo.writes (io : StepIo) (rest : Bytes) : Bytes :=
  match io.written with
  | none => movedOctets io.octets rest.length rest
  | some n => rest.take n

/-- `file.write` or `close` has written so much: it goes on, or the call does. -/
def Call.afterWrite (io : StepIo) (filename content : Bytes) (count : ℕ) : Call :=
  match io.written with
  | none =>
    if count < content.length then .truncated filename content count else .written filename content
  | some _ => if io.noticed then .wrote false else .written filename content

theorem Call.afterWrite_induction {P : Call → Prop} {filename content : Bytes} {count : ℕ}
    (io : StepIo) (htruncated : P (.truncated filename content count))
    (hwritten : P (.written filename content)) (hwrote : P (.wrote false)) :
    P (.afterWrite io filename content count) := by
  rw [Call.afterWrite]
  split
  · split
    · exact htruncated
    · exact hwritten
  · split
    · exact hwrote
    · exact hwritten

/-! ## Steps

What a thread does next depends on where it is in its call. The step is the same whether anybody
else has done anything since the last one. -/

section

def World.elapse (n : ℕ) (s : World ι κ) : World ι κ := { s with now := s.now + n }

def World.setCache (c : FileCache) (s : World ι κ) : World ι κ := { s with cache := c }

def World.setCall [DecidableEq ι] (t : ι) (call : Call) (s : World ι κ) : World ι κ :=
  { s with call := Function.update s.call t call }

/-- The file is now this one. -/
def World.putFile [DecidableEq κ] (k : κ) (file : Option StoredFile) (s : World ι κ) : World ι κ :=
  { s with
    disk := Function.update s.disk k file
    changedAt := Function.update s.changedAt k (some s.now) }

/-- These octets are written behind the first `count` of the file, if it has not been removed. -/
def World.putOctets [DecidableEq κ] (k : κ) (count : ℕ) (octets : Bytes) (mtime : ℤ)
    (s : World ι κ) : World ι κ :=
  match s.disk k with
  | none => s
  | some file => s.putFile k (some ⟨overwrite count octets file.content, mtime⟩)

@[simp] theorem World.call_setCall [DecidableEq ι] (t : ι) (call : Call) (s : World ι κ) :
    (s.setCall t call).call t = call := Function.update_self _ _ _

theorem World.call_setCall_of_ne [DecidableEq ι] {t t' : ι} (h : t' ≠ t) (call : Call)
    (s : World ι κ) : (s.setCall t call).call t' = s.call t' := Function.update_of_ne h _ _

theorem World.forall_setCall [DecidableEq ι] {P : Call → Prop} {s : World ι κ}
    (h : ∀ t, P (s.call t)) (t : ι) {call : Call} (hcall : P call) (t' : ι) :
    P ((s.setCall t call).call t') := by
  by_cases ht : t' = t
  · rw [ht, World.call_setCall]
    exact hcall
  · rw [World.call_setCall_of_ne ht]
    exact h t'

@[simp] theorem World.setCall_setCall [DecidableEq ι] (t : ι) (call call' : Call) (s : World ι κ) :
    (s.setCall t call).setCall t call' = s.setCall t call' := by
  rw [World.setCall, World.setCall, World.setCall, Function.update_idem]

@[simp] theorem World.putFile_putFile [DecidableEq κ] (k : κ) (file file' : Option StoredFile)
    (s : World ι κ) : (s.putFile k file).putFile k file' = s.putFile k file' := by
  rw [World.putFile, World.putFile, World.putFile, Function.update_idem, Function.update_idem]

/-- A `write` leaves its modification time in the file, if the file is there. -/
theorem World.putOctets_eq [DecidableEq κ] (k : κ) (count : ℕ) (octets : Bytes) (mtime : ℤ)
    (s : World ι κ) :
    (s.disk k = none ∧ s.putOctets k count octets mtime = s) ∨
      ∃ content, s.putOctets k count octets mtime = s.putFile k (some ⟨content, mtime⟩) := by
  rw [World.putOctets]
  cases s.disk k with
  | none => exact .inl ⟨rfl, rfl⟩
  | some file => exact .inr ⟨_, rfl⟩

@[simp] theorem World.cache_putOctets [DecidableEq κ] (k : κ) (count : ℕ) (octets : Bytes)
    (mtime : ℤ) (s : World ι κ) : (s.putOctets k count octets mtime).cache = s.cache := by
  rw [World.putOctets]
  split <;> rfl

@[simp] theorem World.now_putOctets [DecidableEq κ] (k : κ) (count : ℕ) (octets : Bytes)
    (mtime : ℤ) (s : World ι κ) : (s.putOctets k count octets mtime).now = s.now := by
  rw [World.putOctets]
  split <;> rfl

@[simp] theorem World.call_putOctets [DecidableEq κ] (k : κ) (count : ℕ) (octets : Bytes)
    (mtime : ℤ) (s : World ι κ) : (s.putOctets k count octets mtime).call = s.call := by
  rw [World.putOctets]
  split <;> rfl

private theorem World.putOctets_setCall [DecidableEq ι] [DecidableEq κ] (k : κ) (count : ℕ)
    (octets : Bytes) (mtime : ℤ) (t : ι) (call : Call) (s : World ι κ) :
    (s.setCall t call).putOctets k count octets mtime =
      (s.putOctets k count octets mtime).setCall t call := by
  rw [World.putOctets, World.putOctets, World.setCall]
  cases s.disk k with
  | none => rfl
  | some file => rfl

@[simp] theorem World.setCache_setCall [DecidableEq ι] (c : FileCache) (t : ι) (call : Call)
    (s : World ι κ) : (s.setCall t call).setCache c = (s.setCache c).setCall t call := rfl

@[simp] theorem World.setCache_setCache (c c' : FileCache) (s : World ι κ) :
    (s.setCache c).setCache c' = s.setCache c' := rfl

@[simp] theorem World.elapse_setCall [DecidableEq ι] (n : ℕ) (t : ι) (call : Call)
    (s : World ι κ) : (s.setCall t call).elapse n = (s.elapse n).setCall t call := rfl

@[simp] theorem World.cache_setCache (c : FileCache) (s : World ι κ) :
    (s.setCache c).cache = c := rfl

@[simp] theorem World.disk_setCache (c : FileCache) (s : World ι κ) :
    (s.setCache c).disk = s.disk := rfl

@[simp] theorem World.now_setCache (c : FileCache) (s : World ι κ) :
    (s.setCache c).now = s.now := rfl

@[simp] theorem World.cache_setCall [DecidableEq ι] (t : ι) (call : Call) (s : World ι κ) :
    (s.setCall t call).cache = s.cache := rfl

@[simp] theorem World.disk_setCall [DecidableEq ι] (t : ι) (call : Call) (s : World ι κ) :
    (s.setCall t call).disk = s.disk := rfl

@[simp] theorem World.now_setCall [DecidableEq ι] (t : ι) (call : Call) (s : World ι κ) :
    (s.setCall t call).now = s.now := rfl

end

variable [DecidableEq ι] [DecidableEq κ]

/-- The next step of a thread. -/
def World.step (t : ι) (io : StepIo) (s : World ι κ) : World ι κ :=
  match s.call t with
  | .idle | .read .. | .wrote _ => s
  | .reading filename =>
    let currentCall := (s.cache.callCounter + 1) % 2 ^ 32
    (s.setCache { s.cache with callCounter := currentCall }).setCall t
      (.counted filename currentCall)
  | .counted filename currentCall => s.setCall t (.started filename currentCall s.now)
  | .started filename currentCall now =>
    let p := findFresh cfg filename currentCall now s.now s.cache
    (s.setCache p.2).setCall t
      (match p.1 with
      | some content => .read filename now content true
      | none => .missed filename now)
  | .missed filename now =>
    s.setCall t
      (match if io.ok then s.disk (resolve filename) else none with
      | some file => .found filename now file.mtime file.content.length
      | none => .read filename now [] false)
  | .found filename now newMtime fileSize =>
    let p := checkUnchanged filename newMtime now s.cache
    (s.setCache p.2).setCall t
      (match p.1 with
      | some content => .read filename now content true
      | none => .outdated filename now newMtime fileSize)
  | .outdated filename now newMtime fileSize =>
    s.setCall t
      (match if io.ok then s.disk (resolve filename) else none with
      | some _ => .afterRead cfg filename now newMtime fileSize []
      | none => .read filename now [] false)
  -- the file may have changed since `stat`, and the known size is still that of the old one
  | .opened filename now newMtime fileSize content =>
    let rest := (s.contentOf (resolve filename)).drop content.length
    s.setCall t
      (match if io.ok then movedOctets io.octets (fileSize - content.length) rest else [] with
      | [] => .read filename now [] false
      | b :: more => .afterRead cfg filename now newMtime fileSize (content ++ b :: more))
  | .loaded filename now newMtime content =>
    let p := storeRead cfg filename content newMtime s.now (s.now + io.elapsed) s.cache
    ((s.setCache p.2).elapse io.elapsed).setCall t (.read filename now p.1 true)
  | .writing filename content =>
    if io.ok then
      (s.putFile (resolve filename) (some ⟨[], io.mtime⟩)).setCall t (.truncated filename content 0)
    else s.setCall t (.wrote false)
  | .truncated filename content count =>
    let octets := io.writes (content.drop count)
    (s.putOctets (resolve filename) count octets io.mtime).setCall t
      (.afterWrite io filename content (count + octets.length))
  | .written filename content =>
    (s.setCache (storeWritten cfg filename content io.time s.now s.cache)).setCall t (.wrote true)

/-- An event that cannot take place leaves everything as it is. -/
def World.act (s : World ι κ) : Event ι κ → World ι κ
  | .elapse n => s.elapse n
  | .change k file => s.putFile k file
  | .read t filename => if (s.call t).isOver then s.setCall t (.reading filename) else s
  | .write t filename content =>
    if (s.call t).isOver then s.setCall t (.writing filename content) else s
  | .step t io => s.step cfg resolve t io

/-! ## Calls that nobody interferes with

The cutting into steps loses nothing: a call whose steps follow each other directly is the operation
as it is written for a caller alone, whatever the kernel makes of the octets. -/

/-- The steps of a thread, one after the other. -/
def World.steps (t : ι) (ios : List StepIo) (s : World ι κ) : World ι κ :=
  ios.foldl (fun s io ↦ s.step cfg resolve t io) s

/-- How the steps behind the opening of the file end, if the kernel cuts it up like this at
first. -/
def cutSteps (io : StepIo) : List ℕ → List StepIo
  | [] => [io, io]
  | n :: cuts => { io with octets := some n } :: cutSteps io cuts

/-- How the steps of a read end. -/
def readSteps (io : Io) (cuts : List ℕ) : List StepIo :=
  {} :: {} :: {} :: { ok := io.statOk } :: {} :: { ok := io.readOk } :: cutSteps {} cuts

/-- How the steps of a write end, which is cut up unless there is an error. -/
def writeSteps (io : Io) (cuts : List ℕ) : List StepIo :=
  { ok := io.openOk, mtime := io.mtime } ::
    match io.written with
    | none => cutSteps { time := io.time, mtime := io.mtime } cuts
    | some n => [{ mtime := io.mtime, written := some n }]

variable {s : World ι κ} {t : ι}

private theorem World.steps_cons (t : ι) (io : StepIo) (ios : List StepIo) (s : World ι κ) :
    s.steps cfg resolve t (io :: ios) = (s.step cfg resolve t io).steps cfg resolve t ios := rfl

variable {cfg resolve} in
private theorem World.step_of_isOver (h : (s.call t).isOver = true) (io : StepIo) :
    s.step cfg resolve t io = s := by
  rw [World.step]
  split <;> first
    | rfl
    | (next hcall => rw [hcall] at h; exact absurd h Bool.false_ne_true)

variable {cfg resolve} in
private theorem World.steps_of_isOver (h : (s.call t).isOver = true) (ios : List StepIo) :
    s.steps cfg resolve t ios = s := by
  induction ios with
  | nil => rfl
  | cons io ios ih => rw [World.steps_cons, World.step_of_isOver h, ih]

private theorem checkFresh_eq_findFresh (filename : Bytes) (now : ℕ) (c : FileCache) :
    checkFresh cfg filename now c = findFresh cfg filename ((c.callCounter + 1) % 2 ^ 32) now now
      { c with callCounter := (c.callCounter + 1) % 2 ^ 32 } := rfl

private theorem storeContent_eq_storeRead (filename content : Bytes) (newMtime : ℤ) (now : ℕ)
    (c : FileCache) : storeContent cfg filename content newMtime now c =
      storeRead cfg filename content newMtime now now c := rfl

private theorem movedOctets_eq (octets : Option ℕ) {n : ℕ} (hn : 0 < n) (rest : Bytes) :
    ∃ m, 0 < m ∧ m ≤ n ∧ movedOctets octets n rest = rest.take m := by
  cases octets with
  | none => exact ⟨n, hn, le_rfl, rfl⟩
  | some m => exact ⟨min (m + 1) n, by omega, Nat.min_le_right _ _, rfl⟩

theorem movedOctets_prefix (octets : Option ℕ) (n : ℕ) (rest : Bytes) :
    movedOctets octets n rest <+: rest := by
  cases octets with
  | none => exact List.take_prefix _ _
  | some m => exact List.take_prefix _ _

/-- One `read` of a file that is as long as it is known to be gets some way on. -/
theorem step_opened {filename : Bytes} (now : ℕ) {j : ℕ} (newMtime : ℤ) {file : StoredFile}
    (hfile : s.disk (resolve filename) = some file) (hj : j < file.content.length) (io : StepIo)
    (hok : io.ok = true) : ∃ j', j < j' ∧ (io.octets = none → j' = file.content.length) ∧
      j' ≤ file.content.length ∧
      (s.setCall t (.opened filename now newMtime file.content.length (file.content.take j))).step
          cfg resolve t io
        = s.setCall t (.afterRead cfg filename now newMtime file.content.length
          (file.content.take j')) := by
  have hlength : (file.content.take j).length = j := by
    rw [List.length_take]
    omega
  obtain ⟨m, hm, hle, hread⟩ := movedOctets_eq io.octets (n := file.content.length - j) (by omega)
    (file.content.drop j)
  refine ⟨j + m, by omega, fun hfull ↦ ?_, by omega, ?_⟩
  · -- all that was asked for
    rw [hfull, movedOctets] at hread
    have hlengths := congrArg List.length hread
    rw [List.length_take, List.length_take, List.length_drop] at hlengths
    omega
  · have hsplit : file.content.take j ++ (file.content.drop j).take m
        = file.content.take (j + m) := by rw [List.take_add]
    have hcons : (file.content.drop j).take m ≠ [] := by
      rw [ne_eq, List.take_eq_nil_iff, List.drop_eq_nil_iff]
      omega
    rw [World.step, World.call_setCall]
    simp only [hok, if_true, World.contentOf, World.disk_setCall, hfile, hlength, hread,
      World.setCall_setCall]
    cases hcut : (file.content.drop j).take m with
    | nil => exact absurd hcut hcons
    | cons b more => rw [← hsplit, hcut]

/-- **The file is read to its end**, however it is cut up, and stored if it is small enough; by
induction on the cuts. -/
theorem steps_opened {filename : Bytes} (now : ℕ) {j : ℕ} (newMtime : ℤ) {file : StoredFile}
    (hfile : s.disk (resolve filename) = some file) (hj : j ≤ file.content.length)
    (cuts : List ℕ) :
    (s.setCall t (.afterRead cfg filename now newMtime file.content.length
        (file.content.take j))).steps cfg resolve t (cutSteps {} cuts)
      = if cfg.fileCacheMaxSize < file.content.length then
          s.setCall t (.read filename now file.content true)
        else
          (s.setCache
            (storeRead cfg filename file.content newMtime s.now s.now s.cache).2).setCall t
              (.read filename now
                (storeRead cfg filename file.content newMtime s.now s.now s.cache).1 true) := by
  have hover (s : World ι κ) (content : Bytes) (ios : List StepIo) :
      (s.setCall t (.read filename now content true)).steps cfg resolve t ios =
        s.setCall t (.read filename now content true) :=
    World.steps_of_isOver (by rw [World.call_setCall]; rfl) ios
  -- behind the last octet one step stores the content, and the others do nothing
  have hend (io : StepIo) (helapsed : io.elapsed = 0) (ios : List StepIo) :
      (s.setCall t (.afterRead cfg filename now newMtime file.content.length file.content)).steps
          cfg resolve t (io :: ios)
        = if cfg.fileCacheMaxSize < file.content.length then
            s.setCall t (.read filename now file.content true)
          else
            (s.setCache
              (storeRead cfg filename file.content newMtime s.now s.now s.cache).2).setCall t
                (.read filename now
                  (storeRead cfg filename file.content newMtime s.now s.now s.cache).1 true) := by
    rw [Call.afterRead, if_neg (lt_irrefl _)]
    split
    · exact hover s _ _
    · rw [World.steps_cons, World.step, World.call_setCall]
      simp only [helapsed, Nat.add_zero, World.now_setCall, World.cache_setCall,
        World.setCache_setCall, World.elapse_setCall, World.setCall_setCall]
      exact hover (s.setCache _) _ _
  have hopened {j : ℕ} (hlt : j < file.content.length) :
      Call.afterRead cfg filename now newMtime file.content.length (file.content.take j)
        = .opened filename now newMtime file.content.length (file.content.take j) := by
    rw [Call.afterRead, if_pos]
    rw [List.length_take]
    omega
  induction cuts generalizing j with
  | nil =>
    rcases hj.eq_or_lt with rfl | hlt
    · rw [List.take_length]
      exact hend {} rfl _
    · obtain ⟨j', -, hfull, -, hstep⟩ := step_opened cfg resolve (t := t) now newMtime
        hfile hlt {} rfl
      rw [hopened hlt, cutSteps, World.steps_cons, hstep, hfull rfl, List.take_length]
      exact hend {} rfl _
  | cons n cuts ih =>
    rw [cutSteps]
    rcases hj.eq_or_lt with rfl | hlt
    · rw [List.take_length]
      exact hend _ rfl _
    · obtain ⟨j', -, -, hle, hstep⟩ := step_opened cfg resolve (t := t) now newMtime
        hfile hlt { octets := some n } rfl
      rw [hopened hlt, World.steps_cons, hstep]
      exact ih hle

/-- **A read alone.** -/
theorem steps_read (io : Io) (cuts : List ℕ) {filename : Bytes}
    (h : s.call t = .reading filename) :
    let p := readEntireFileCached cfg resolve io filename ⟨s.disk, s.cache, s.now⟩
    ∃ ok, s.steps cfg resolve t (readSteps io cuts) =
      (s.setCache p.2.cache).setCall t (.read filename s.now p.1 ok) := by
  have hover (s : World ι κ) (content : Bytes) (ok : Bool) (ios : List StepIo) :
      (s.setCall t (.read filename s.now content ok)).steps cfg resolve t ios =
        s.setCall t (.read filename s.now content ok) :=
    World.steps_of_isOver (by rw [World.call_setCall]; rfl) ios
  rw [readEntireFileCached, readSteps, World.steps_cons, World.step, h,
    World.steps_cons, World.step, World.call_setCall,
    World.steps_cons, World.step, World.call_setCall, checkFresh_eq_findFresh]
  simp only [storeContent_eq_storeRead, World.setCall_setCall, World.setCache_setCall,
    World.setCache_setCache, World.cache_setCall, World.cache_setCache, World.now_setCall,
    World.now_setCache]
  generalize findFresh cfg filename _ s.now s.now _ = p
  obtain ⟨fresh | content, c⟩ := p
  swap
  · exact ⟨true, hover (s.setCache c) _ _ _⟩
  simp only
  rw [World.steps_cons, World.step, World.call_setCall]
  simp only [World.setCall_setCall, World.disk_setCall, World.disk_setCache]
  cases hstat : (if io.statOk = true then s.disk (resolve filename) else none) with
  | none => exact ⟨false, hover (s.setCache c) _ _ _⟩
  | some file =>
  simp only
  rw [World.steps_cons, World.step, World.call_setCall]
  simp only [World.setCall_setCall, World.setCache_setCall, World.setCache_setCache,
    World.cache_setCall, World.cache_setCache]
  generalize checkUnchanged filename file.mtime s.now c = p
  obtain ⟨unchanged | content, c⟩ := p
  swap
  · exact ⟨true, hover (s.setCache c) _ _ _⟩
  simp only
  have hfile : s.disk (resolve filename) = some file := by
    split at hstat
    · exact hstat
    · cases hstat
  rw [World.steps_cons, World.step, World.call_setCall]
  simp only [World.setCall_setCall, World.disk_setCall, World.disk_setCache, hfile]
  cases io.readOk with
  | false => exact ⟨false, hover (s.setCache c) _ _ _⟩
  | true =>
  have hread := steps_opened cfg resolve (s := s.setCache c) (t := t) s.now file.mtime hfile
    (Nat.zero_le _) cuts
  rw [List.take_zero] at hread
  simp only [if_true, Bool.not_true, Bool.false_eq_true, if_false]
  rw [hread]
  split
  · exact ⟨true, rfl⟩
  · exact ⟨true, rfl⟩

/-- Where a thread is in the file, the next octets make a longer beginning. -/
theorem overwrite_take {count : ℕ} {octets content : Bytes} (h : octets <+: content.drop count) :
    overwrite count octets (content.take count) = content.take (count + octets.length) := by
  rw [overwrite]
  split
  · next hnil => rw [hnil, List.length_nil, Nat.add_zero]
  · next hne =>
    have hlt : count < content.length := by
      rw [← not_le]
      intro hle
      rw [List.drop_eq_nil_of_le hle] at h
      exact hne (List.prefix_nil.mp h)
    have hlength : (content.take count).length = count := List.length_take_of_le hlt.le
    rw [List.takeD_eq_take _ hlength.ge, List.take_take, min_self, List.take_add,
      ← List.prefix_iff_eq_take.mp h, List.drop_eq_nil_of_le (by omega), List.append_nil]

theorem writes_beginning (io : StepIo) (rest : Bytes) : io.writes rest <+: rest := by
  rw [StepIo.writes]
  split
  · exact movedOctets_prefix _ _ _
  · exact List.take_prefix _ _

omit [DecidableEq ι] in
theorem putOctets_of_disk {k : κ} {count : ℕ} {octets content : Bytes} {mtime : ℤ}
    (hfile : s.disk k = some ⟨content.take count, mtime⟩) (h : octets <+: content.drop count)
    (mtime' : ℤ) : s.putOctets k count octets mtime' =
      s.putFile k (some ⟨content.take (count + octets.length), mtime'⟩) := by
  rw [World.putOctets, hfile]
  dsimp only
  rw [overwrite_take h]

/-- One `write` gets some way on. -/
theorem step_truncated (filename : Bytes) {content : Bytes} {j : ℕ} (mtime : ℤ) (io : StepIo)
    (hj : j ≤ content.length) (hwritten : io.written = none) : ∃ j', j ≤ j' ∧
      (io.octets = none → j' = content.length) ∧ j' ≤ content.length ∧
      ((s.putFile (resolve filename) (some ⟨content.take j, mtime⟩)).setCall t
        (.truncated filename content j)).step cfg resolve t io
          = (s.putFile (resolve filename) (some ⟨content.take j', io.mtime⟩)).setCall t
            (.afterWrite io filename content j') := by
  have hwrites : io.writes (content.drop j)
      = movedOctets io.octets (content.length - j) (content.drop j) := by
    rw [StepIo.writes, hwritten, List.length_drop]
  have hprefix := writes_beginning io (content.drop j)
  have hlength := hprefix.length_le
  rw [List.length_drop] at hlength
  refine ⟨j + (io.writes (content.drop j)).length, Nat.le_add_right _ _, fun hfull ↦ ?_, by omega,
    ?_⟩
  · rw [hwrites, hfull, movedOctets, List.length_take, List.length_drop]
    omega
  · have hfile : (s.putFile (resolve filename) (some ⟨content.take j, mtime⟩)).disk
        (resolve filename) = some ⟨content.take j, mtime⟩ := Function.update_self _ _ _
    rw [World.step, World.call_setCall]
    dsimp only
    rw [World.putOctets_setCall, World.setCall_setCall, putOctets_of_disk hfile hprefix,
      World.putFile_putFile]

/-- **The file is written to its end**, however it is cut up, and goes to the cache; by induction on
the cuts. -/
theorem steps_truncated (filename : Bytes) {content : Bytes} {j : ℕ} (mtime : ℤ) (io : StepIo)
    (hj : j ≤ content.length) (hwritten : io.written = none) (hoctets : io.octets = none)
    (cuts : List ℕ) :
    ((s.putFile (resolve filename) (some ⟨content.take j, mtime⟩)).setCall t
        (.truncated filename content j)).steps cfg resolve t (cutSteps io cuts)
      = ((s.putFile (resolve filename) (some ⟨content, io.mtime⟩)).setCache
          (storeWritten cfg filename content io.time s.now s.cache)).setCall t (.wrote true) := by
  -- behind the last octet one step stores the content, and the others do nothing
  have hend (io' : StepIo) (htime : io'.time = io.time) (ios : List StepIo) :
      ((s.putFile (resolve filename) (some ⟨content, io.mtime⟩)).setCall t
          (.written filename content)).steps cfg resolve t (io' :: ios)
        = ((s.putFile (resolve filename) (some ⟨content, io.mtime⟩)).setCache
            (storeWritten cfg filename content io.time s.now s.cache)).setCall t (.wrote true) := by
    rw [World.steps_cons, World.step, World.call_setCall]
    simp only [htime, World.now_setCall, World.cache_setCall, World.setCache_setCall,
      World.setCall_setCall]
    refine World.steps_of_isOver ?_ ios
    rw [World.call_setCall]
    rfl
  induction cuts generalizing j mtime with
  | nil =>
    obtain ⟨j', -, hfull, -, hstep⟩ := step_truncated cfg resolve (s := s) (t := t)
      filename mtime io hj hwritten
    rw [cutSteps, World.steps_cons, hstep, hfull hoctets, List.take_length, Call.afterWrite,
      hwritten]
    dsimp only
    rw [if_neg (lt_irrefl _)]
    exact hend io rfl []
  | cons n cuts ih =>
    obtain ⟨j', -, -, hle, hstep⟩ := step_truncated cfg resolve (s := s) (t := t)
      filename mtime
      { io with octets := some n } hj hwritten
    rw [cutSteps, World.steps_cons, hstep, Call.afterWrite]
    simp only [hwritten]
    split
    · exact ih _ hle
    · next hfull =>
      obtain rfl := hle.antisymm (not_lt.mp hfull)
      rw [List.take_length]
      cases cuts with
      | nil => exact hend io rfl [io]
      | cons m cuts => exact hend { io with octets := some m } rfl (cutSteps io cuts)

/-- **A write alone.** -/
theorem steps_write (io : Io) (cuts : List ℕ) {filename content : Bytes}
    (h : s.call t = .writing filename content) :
    let p := writeEntireFile cfg resolve io filename content ⟨s.disk, s.cache, s.now⟩
    (s.steps cfg resolve t (writeSteps io cuts)).disk = p.2.disk ∧
      (s.steps cfg resolve t (writeSteps io cuts)).cache = p.2.cache ∧
      (s.steps cfg resolve t (writeSteps io cuts)).call t = .wrote p.1 := by
  rw [writeEntireFile, writeSteps, World.steps_cons, World.step, h]
  cases io.openOk with
  | false =>
    have hover : ((s.setCall t (.wrote false)).call t).isOver = true := by
      rw [World.call_setCall]
      rfl
    simp only [Bool.false_eq_true, if_false, Bool.not_false, if_true, World.steps_of_isOver hover]
    exact ⟨rfl, rfl, World.call_setCall t _ s⟩
  | true =>
  simp only [if_true, Bool.not_true, Bool.false_eq_true, if_false]
  cases io.written with
  | none =>
    have hwrite := steps_truncated cfg resolve (s := s) (t := t) filename io.mtime
      { time := io.time, mtime := io.mtime }
      (Nat.zero_le content.length) rfl rfl cuts
    rw [List.take_zero] at hwrite
    dsimp only
    rw [hwrite]
    exact ⟨rfl, rfl, World.call_setCall t _ _⟩
  | some n =>
    have hfile : (s.putFile (resolve filename) (some ⟨[], io.mtime⟩)).disk (resolve filename)
        = some ⟨content.take 0, io.mtime⟩ := by
      rw [List.take_zero]
      exact Function.update_self _ _ _
    have hprefix : content.take n <+: content.drop 0 := List.take_prefix n content
    have hwrites (io' : StepIo) (hwritten : io'.written = some n) :
        io'.writes (content.drop 0) = content.take n := by
      rw [StepIo.writes, hwritten, List.drop_zero]
    have hover (s : World ι κ) : ((s.setCall t (.wrote false)).call t).isOver = true := by
      rw [World.call_setCall]
      rfl
    dsimp only
    rw [World.steps_cons, World.step, World.call_setCall]
    simp only [hwrites, World.putOctets_setCall, World.setCall_setCall,
      putOctets_of_disk hfile hprefix, World.putFile_putFile, Call.afterWrite, if_true,
      World.steps_of_isOver (hover _), Nat.zero_add,
      ← List.prefix_iff_eq_take.mp (List.take_prefix n content)]
    exact ⟨rfl, rfl, World.call_setCall t _ _⟩

/-! ## Runs -/

/-- The process starts, with these files. -/
def World.initial (disk : κ → Option StoredFile) : World ι κ := { disk := disk }

end

end Wasapi.FileIo
