import Wasapi.FileIo.Accounting
import Wasapi.FileIo.Threads

/-!
# The accounting of a shared cache

Whatever the threads do, whenever `cache_mutex` is free `total_cache_size` is the sum of the sizes,
the sizes are those of the contents, and the limit is kept. A locked section keeps this, whatever
the cache looked like when the thread last held the mutex.

It follows that `total_cache_size` is never less than what is subtracted from it. For this every
locked section has a second version whose subtractions fail instead of wrapping, and the two agree.
-/

namespace Wasapi.FileIo

section

variable (cfg : GlobalConfig)

/-! ## Subtractions that do not wrap

`total_cache_size` is unsigned. Beside every function that subtracts from it stands one that gives
nothing back if the subtraction would wrap; the two agree wherever the books are in order. -/

/-- `removeEntry`, unless the subtraction wraps. -/
def removeEntryChecked (filename : Bytes) (c : FileCache) : Option FileCache :=
  match c.fileCache.lookup filename with
  | none => some c
  | some f =>
    if c.totalCacheSize < f.size then none
    else
      some
        { c with
          totalCacheSize := c.totalCacheSize - f.size
          fileCache := c.fileCache.erase filename }

/-- `insertEntry`, which has nothing to remove once the entry is gone. -/
def insertEntryChecked (filename content : Bytes) (mtime : ℤ) (now : ℕ) (c : FileCache) :
    Option FileCache :=
  (removeEntryChecked filename c).map (insertEntry filename content mtime now)

def evictExpiredChecked (now : ℕ) (c : FileCache) (filename : Bytes) : Option FileCache :=
  match c.fileCache.lookup filename with
  | none => some c
  | some f =>
    if cfg.fileCacheTtl < ((now - f.lastCheck : ℕ) : ℚ) / 10 ^ 9 then removeEntryChecked filename c
    else some c

def evictTtlChecked (now : ℕ) (c : FileCache) : Option FileCache :=
  c.fileCache.keys.foldlM (evictExpiredChecked cfg now) c

def evictSizeLoopChecked : ℕ → FileCache → Option FileCache
  | 0, c => some c
  | n + 1, c =>
    if cfg.fileCacheMaxSize < c.totalCacheSize then
      match oldest c with
      | none => some c
      | some filename => (removeEntryChecked filename c).bind (evictSizeLoopChecked n)
    else some c

def evictSizeChecked (c : FileCache) : Option FileCache :=
  evictSizeLoopChecked cfg c.fileCache.entries.length c

def maybeMaintainChecked (callCount now : ℕ) (c : FileCache) : Option FileCache :=
  if callCount % 10 = 0 then (evictTtlChecked cfg now c).bind (evictSizeChecked cfg) else some c

def checkUnchangedChecked (filename : Bytes) (newMtime : ℤ) (now : ℕ) (c : FileCache) :
    Option FileCache :=
  match c.fileCache.lookup filename with
  | none => some c
  | some f =>
    let c := { c with fileCache := c.fileCache.insert filename { f with lastCheck := now } }
    if f.mtime = newMtime then some c else removeEntryChecked filename c

def storeReadChecked (filename content : Bytes) (newMtime : ℤ) (now indexed : ℕ) (c : FileCache) :
    Option FileCache :=
  ((insertEntryChecked filename content newMtime now c).bind (evictSizeChecked cfg)).map
    fun c ↦ (indexCache filename indexed c).2

def storeWrittenChecked (filename content : Bytes) (time : ℤ) (now : ℕ) (c : FileCache) :
    Option FileCache :=
  if cfg.fileCacheMaxSize < content.length then removeEntryChecked filename c
  else (insertEntryChecked filename content time now c).bind (evictSizeChecked cfg)

/-- The cache behind the next step of a thread, if no subtraction in it wraps. Only locked sections
subtract. -/
def World.stepChecked {ι κ : Type*} [DecidableEq ι] [DecidableEq κ] (resolve : Bytes → κ) (t : ι)
    (io : StepIo) (s : World ι κ) : Option FileCache :=
  match s.call t with
  | .started _ currentCall _ => maybeMaintainChecked cfg currentCall s.now s.cache
  | .found filename now newMtime _ => checkUnchangedChecked filename newMtime now s.cache
  | .loaded filename _ newMtime content =>
    storeReadChecked cfg filename content newMtime s.now (s.now + io.elapsed) s.cache
  | .written filename content => storeWrittenChecked cfg filename content io.time s.now s.cache
  | _ => some (s.step cfg resolve t io).cache

end

variable {cfg : GlobalConfig} {c : FileCache}

private theorem Summed.removeEntryChecked (h : Summed c) (filename : Bytes) :
    removeEntryChecked filename c = some (FileIo.removeEntry filename c) := by
  rw [FileIo.removeEntryChecked]
  cases hf : c.fileCache.lookup filename with
  | none => rw [FileIo.removeEntry, hf]
  | some f =>
    have htotal := h.totalCacheSize_removeEntry hf
    rw [FileIo.removeEntry, hf] at htotal ⊢
    simp only at htotal ⊢
    rw [if_neg (by omega)]
    congr 2
    omega

private theorem insertEntry_removeEntry (filename content : Bytes) (mtime : ℤ) (now : ℕ)
    (c : FileCache) :
    insertEntry filename content mtime now (removeEntry filename c) =
      insertEntry filename content mtime now c := by
  have hgone : removeEntry filename (removeEntry filename c) = removeEntry filename c := by
    have hnone := lookup_removeEntry filename c filename
    rw [if_pos rfl] at hnone
    rw [removeEntry, hnone]
  rw [insertEntry, insertEntry, hgone]

private theorem Summed.insertEntryChecked (h : Summed c) (filename content : Bytes) (mtime : ℤ)
    (now : ℕ) :
    insertEntryChecked filename content mtime now c =
      some (FileIo.insertEntry filename content mtime now c) := by
  rw [FileIo.insertEntryChecked, h.removeEntryChecked, Option.map_some, insertEntry_removeEntry]

private theorem Summed.evictTtlChecked (h : Summed c) (now : ℕ) :
    evictTtlChecked cfg now c = some (evictTtl cfg now c) := by
  rw [FileIo.evictTtlChecked, evictTtl]
  generalize c.fileCache.keys = filenames
  induction filenames generalizing c with
  | nil => rfl
  | cons filename filenames ih =>
    -- an entry that expires is in the sum, so it can be subtracted
    have hturn : Summed (evictExpired cfg now c filename) ∧
        evictExpiredChecked cfg now c filename = some (evictExpired cfg now c filename) := by
      rw [evictExpired, evictExpiredChecked]
      cases c.fileCache.lookup filename with
      | none => exact ⟨h, rfl⟩
      | some f =>
        simp only
        split
        · exact ⟨(h.removeEntry filename).1, h.removeEntryChecked filename⟩
        · exact ⟨h, rfl⟩
    rw [List.foldlM_cons, hturn.2, List.foldl_cons]
    exact ih hturn.1

private theorem Summed.evictSizeLoopChecked (n : ℕ) (h : Summed c) :
    evictSizeLoopChecked cfg n c = some (evictSizeLoop cfg n c) := by
  induction n generalizing c with
  | zero => rfl
  | succ n ih =>
    rw [FileIo.evictSizeLoopChecked, evictSizeLoop]
    split
    · cases oldest c with
      | none => rfl
      | some filename =>
        simp only
        rw [h.removeEntryChecked, Option.bind_some]
        exact ih (h.removeEntry filename).1
    · rfl

private theorem Summed.evictSizeChecked (h : Summed c) :
    evictSizeChecked cfg c = some (evictSize cfg c) :=
  h.evictSizeLoopChecked _

private theorem Summed.maybeMaintainChecked (h : Summed c) (callCount now : ℕ) :
    maybeMaintainChecked cfg callCount now c = some (maybeMaintain cfg callCount now c) := by
  rw [FileIo.maybeMaintainChecked, maybeMaintain]
  split
  · rw [h.evictTtlChecked, Option.bind_some]
    exact (evictTtl_spec cfg h now).1.evictSizeChecked
  · rfl

private theorem Within.checkUnchangedChecked (h : Within cfg c) (filename : Bytes) (newMtime : ℤ)
    (now : ℕ) : checkUnchangedChecked filename newMtime now c =
      some (FileIo.checkUnchanged filename newMtime now c).2 := by
  rw [FileIo.checkUnchangedChecked, FileIo.checkUnchanged]
  cases hf : c.fileCache.lookup filename with
  | none => rfl
  | some f =>
    simp only
    split
    · rfl
    · exact (h.touchEntry hf now).toSummed.removeEntryChecked filename

section

variable (h : Within cfg c) (filename : Bytes) {content : Bytes} (mtime : ℤ) (now : ℕ)

include h

private theorem Within.storeChecked (hle : content.length ≤ cfg.fileCacheMaxSize) :
    (insertEntryChecked filename content mtime now c).bind (evictSizeChecked cfg) =
      some (evictSize cfg (insertEntry filename content mtime now c)) := by
  rw [h.toSummed.insertEntryChecked, Option.bind_some]
  exact (h.summed_insertEntry filename mtime now hle).evictSizeChecked

theorem Within.storeRead (hle : content.length ≤ cfg.fileCacheMaxSize) (indexed : ℕ) :
    Within cfg (storeRead cfg filename content mtime now indexed c).2 ∧
      storeReadChecked cfg filename content mtime now indexed c =
        some (FileIo.storeRead cfg filename content mtime now indexed c).2 := by
  obtain ⟨hwithin, -⟩ := h.storeEntry filename mtime now hle
  rw [storeReadChecked, h.storeChecked filename mtime now hle, Option.map_some]
  exact ⟨hwithin.indexCache filename indexed, rfl⟩

theorem Within.storeWritten :
    Within cfg (storeWritten cfg filename content mtime now c) ∧
      storeWrittenChecked cfg filename content mtime now c =
        some (FileIo.storeWritten cfg filename content mtime now c) := by
  rw [FileIo.storeWritten, storeWrittenChecked]
  split
  · exact ⟨h.removeEntry filename, h.toSummed.removeEntryChecked filename⟩
  · next hle =>
    exact ⟨(h.storeEntry filename mtime now (not_lt.mp hle)).1,
      h.storeChecked filename mtime now (not_lt.mp hle)⟩

end

/-! ## Every run

Whatever a thread knows when it enters a locked section may be out of date by then. The books do not
depend on it: a section corrects the total by the sizes of the entries it finds. -/

/-- A content that a read is about to store does not exceed the limit. -/
def Call.Bounded (cfg : GlobalConfig) : Call → Prop
  | .loaded _ _ _ content => content.length ≤ cfg.fileCacheMaxSize
  | _ => True

/-- A content above the limit is returned without being stored. -/
theorem bounded_afterRead (cfg : GlobalConfig) (filename : Bytes) (now : ℕ) (newMtime : ℤ)
    (fileSize : ℕ) (content : Bytes) :
    (Call.afterRead cfg filename now newMtime fileSize content).Bounded cfg := by
  rw [Call.afterRead]
  split
  · trivial
  split
  · trivial
  · next hle => exact not_lt.mp hle

/-- The invariant. -/
structure Balanced {ι κ : Type*} (cfg : GlobalConfig) (s : World ι κ) : Prop where
  within : Within cfg s.cache
  bounded : ∀ t, (s.call t).Bounded cfg

section

variable {ι κ : Type*} [DecidableEq ι] [DecidableEq κ] {resolve : Bytes → κ} {s : World ι κ}

omit [DecidableEq ι] [DecidableEq κ] in
theorem Balanced.setCache (h : Balanced cfg s) (hc : Within cfg c) : Balanced cfg (s.setCache c) :=
  ⟨hc, h.bounded⟩

omit [DecidableEq κ] in
theorem Balanced.setCall (h : Balanced cfg s) {t : ι} {call : Call} (hcall : call.Bounded cfg) :
    Balanced cfg (s.setCall t call) := ⟨h.within, World.forall_setCall h.bounded t hcall⟩

omit [DecidableEq ι] in
theorem Balanced.putFile (h : Balanced cfg s) (k : κ) (file : Option StoredFile) :
    Balanced cfg (s.putFile k file) := ⟨h.within, h.bounded⟩

omit [DecidableEq ι] in
theorem Balanced.putOctets (h : Balanced cfg s) (k : κ) (count : ℕ) (octets : Bytes) (mtime : ℤ) :
    Balanced cfg (s.putOctets k count octets mtime) := by
  obtain ⟨-, heq⟩ | ⟨content, heq⟩ := s.putOctets_eq k count octets mtime
  · rw [heq]
    exact h
  · rw [heq]
    exact h.putFile _ _

omit [DecidableEq ι] [DecidableEq κ] in
theorem Balanced.elapse (h : Balanced cfg s) (n : ℕ) : Balanced cfg (s.elapse n) :=
  ⟨h.within, h.bounded⟩

theorem snd_findFresh (filename : Bytes) (currentCall now maintained : ℕ) (c : FileCache) :
    (findFresh cfg filename currentCall now maintained c).2 =
      maybeMaintain cfg currentCall maintained c := by
  rw [findFresh]
  split <;> rfl

/-- **A step of a thread** keeps the accounts. -/
theorem Balanced.step (h : Balanced cfg s) (t : ι) (io : StepIo) :
    Balanced cfg (s.step cfg resolve t io) := by
  have hbounded := h.bounded t
  rw [World.step]
  split
  · exact h
  · exact h
  · exact h
  · have hcounted (n : ℕ) : Within cfg { s.cache with callCounter := n } :=
      ⟨⟨h.within.total, h.within.lt⟩, h.within.le, h.within.size⟩
    exact (h.setCache (hcounted _)).setCall trivial
  · exact h.setCall trivial
  · next filename currentCall now _ =>
    simp only [snd_findFresh]
    refine (h.setCache (h.within.maybeMaintain currentCall s.now).1).setCall ?_
    split <;> trivial
  · refine h.setCall ?_
    split <;> trivial
  · next filename now newMtime fileSize _ =>
    refine (h.setCache (h.within.checkUnchanged filename newMtime now)).setCall ?_
    split <;> trivial
  · refine h.setCall ?_
    split
    · exact bounded_afterRead ..
    · trivial
  · refine h.setCall ?_
    split
    · trivial
    · exact bounded_afterRead ..
  · next filename now newMtime content hcall =>
    rw [hcall] at hbounded
    obtain ⟨hwithin, -⟩ :=
      h.within.storeRead filename newMtime s.now hbounded (s.now + io.elapsed)
    exact ((h.setCache hwithin).elapse io.elapsed).setCall trivial
  · split
    · exact (h.putFile _ _).setCall trivial
    · exact h.setCall trivial
  · exact (h.putOctets _ _ _ _).setCall (Call.afterWrite_induction io trivial trivial trivial)
  · next filename content _ =>
    exact (h.setCache (h.within.storeWritten filename io.time s.now).1).setCall trivial

/-- **No subtraction wraps** in a step of a thread. -/
theorem Balanced.stepChecked (h : Balanced cfg s) (t : ι) (io : StepIo) :
    s.stepChecked cfg resolve t io = some (s.step cfg resolve t io).cache := by
  have hbounded := h.bounded t
  rw [World.stepChecked]
  split
  · next currentCall now hcall =>
    rw [World.step, hcall, h.within.maybeMaintainChecked, World.cache_setCall,
      World.cache_setCache, snd_findFresh]
  · next filename now newMtime _ hcall =>
    rw [World.step, hcall]
    exact h.within.checkUnchangedChecked filename newMtime now
  · next filename now newMtime content hcall =>
    rw [hcall] at hbounded
    rw [World.step, hcall]
    exact (h.within.storeRead filename newMtime s.now hbounded (s.now + io.elapsed)).2
  · next filename content hcall =>
    rw [World.step, hcall]
    exact (h.within.storeWritten filename io.time s.now).2
  · rfl

theorem Balanced.act (h : Balanced cfg s) (e : Event ι κ) : Balanced cfg (s.act cfg resolve e) := by
  cases e with
  | elapse n => exact h.elapse n
  | change k file => exact h.putFile k file
  | read t filename =>
    rw [World.act]
    split
    · exact h.setCall trivial
    · exact h
  | write t filename content =>
    rw [World.act]
    split
    · exact h.setCall trivial
    · exact h
  | step t io => exact h.step t io

omit [DecidableEq ι] [DecidableEq κ] in
theorem balanced_initial (disk : κ → Option StoredFile) :
    Balanced cfg (World.initial disk : World ι κ) :=
  ⟨⟨⟨rfl, Nat.two_pow_pos 64⟩, Nat.zero_le _, fun hf ↦ (nomatch hf)⟩, fun _ ↦ trivial⟩

variable (cfg resolve) in
/-- What the accounts say while the mutex is free. -/
structure InOrder (s : World ι κ) : Prop where
  total : s.cache.totalCacheSize = weightSum CachedFile.size s.cache.fileCache
  size : ∀ filename f, s.cache.fileCache.lookup filename = some f → f.size = f.content.length
  le : s.cache.totalCacheSize ≤ cfg.fileCacheMaxSize
  /-- whatever thread takes the next step, no subtraction wraps -/
  checked : ∀ t io, s.stepChecked cfg resolve t io = some (s.step cfg resolve t io).cache

/-- **The accounts are in order in every run.** -/
theorem always_inOrder (disk : κ → Option StoredFile) (events : List (Event ι κ)) :
    Always (World.act cfg resolve) (InOrder cfg resolve) (World.initial disk) events := by
  refine (always_of_invariant (fun s e h ↦ h.act e) (balanced_initial disk) events).mono
    fun s h ↦ ?_
  exact ⟨h.within.total, fun _ _ ↦ h.within.size, h.within.le, fun t io ↦ h.stepChecked t io⟩

end

end Wasapi.FileIo
