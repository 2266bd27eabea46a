import Wasapi.FileIo.Cache

/-!
# What the cache holds

The cache knows its size: `total_cache_size` is the sum of the sizes of the entries. So evicting by
size ends within the limit, and does not evict an entry that is newer than all others and fits.
Apart from that, an operation on one file leaves the entries of other files alone or removes them.
-/

namespace Wasapi.FileIo

variable {cfg : GlobalConfig} {c c' : FileCache} {now : ℕ}

/-- Entries have only been removed. -/
def KeptFrom (c c' : FileCache) : Prop :=
  ∀ ⦃k f⦄, c'.fileCache.lookup k = some f → c.fileCache.lookup k = some f

theorem KeptFrom.refl (c : FileCache) : KeptFrom c c := fun _ _ h ↦ h

theorem KeptFrom.trans {c₁ c₂ c₃ : FileCache} (h : KeptFrom c₁ c₂) (h' : KeptFrom c₂ c₃) :
    KeptFrom c₁ c₃ := fun _ _ hf ↦ h (h' hf)

/-- `total_cache_size` is the sum of the sizes. -/
structure Summed (c : FileCache) : Prop where
  total : c.totalCacheSize = weightSum CachedFile.size c.fileCache
  lt : c.totalCacheSize < 2 ^ 64

/-- The sizes are those of the contents, and their sum is within the limit. -/
structure Within (cfg : GlobalConfig) (c : FileCache) : Prop extends Summed c where
  le : c.totalCacheSize ≤ cfg.fileCacheMaxSize
  size {k f} : c.fileCache.lookup k = some f → f.size = f.content.length

/-- The sizes are those of the contents, their sum is within the limit, and every entry has been
checked before `now`. -/
structure Accounted (cfg : GlobalConfig) (now : ℕ) (c : FileCache) : Prop extends Summed c where
  le : c.totalCacheSize ≤ cfg.fileCacheMaxSize
  size {k f} : c.fileCache.lookup k = some f → f.size = f.content.length
  checked {k f} : c.fileCache.lookup k = some f → f.lastCheck < now

theorem Accounted.mono (h : Accounted cfg now c) {now' : ℕ} (hle : now ≤ now') :
    Accounted cfg now' c :=
  ⟨h.toSummed, h.le, h.size, fun hf ↦ (h.checked hf).trans_le hle⟩

theorem Within.of_keptFrom (h : Within cfg c) (hkept : KeptFrom c c') (hsum : Summed c')
    (hle : c'.totalCacheSize ≤ cfg.fileCacheMaxSize) : Within cfg c' :=
  ⟨hsum, hle, fun hf ↦ h.size (hkept hf)⟩

theorem Accounted.within (h : Accounted cfg now c) : Within cfg c := ⟨h.toSummed, h.le, h.size⟩

theorem Within.accounted (h : Within cfg c)
    (hchecked : ∀ {k f}, c.fileCache.lookup k = some f → f.lastCheck < now) :
    Accounted cfg now c := ⟨h.toSummed, h.le, h.size, hchecked⟩

theorem Accounted.of_keptFrom (h : Accounted cfg now c) (hkept : KeptFrom c c')
    (hwithin : Within cfg c') : Accounted cfg now c' :=
  hwithin.accounted fun hf ↦ h.checked (hkept hf)

/-! ## Removing -/

theorem lookup_removeEntry (filename : Bytes) (c : FileCache) (k : Bytes) :
    (removeEntry filename c).fileCache.lookup k =
      if k = filename then none else c.fileCache.lookup k := by
  rw [removeEntry]
  split
  · next h =>
    by_cases hk : k = filename
    · rw [if_pos hk, hk, h]
    · rw [if_neg hk]
  · by_cases hk : k = filename
    · rw [if_pos hk, hk, AList.lookup_erase]
    · rw [if_neg hk, AList.lookup_erase_ne hk]

theorem keptFrom_removeEntry (filename : Bytes) (c : FileCache) :
    KeptFrom c (removeEntry filename c) := by
  intro k f hf
  rw [lookup_removeEntry] at hf
  split at hf
  · cases hf
  · exact hf

/-- The subtraction does not wrap. -/
theorem Summed.totalCacheSize_removeEntry (h : Summed c) {filename : Bytes} {f : CachedFile}
    (hf : c.fileCache.lookup filename = some f) :
    (removeEntry filename c).totalCacheSize + f.size = c.totalCacheSize := by
  have hle := weight_le_weightSum CachedFile.size hf
  have hlt := h.lt
  rw [← h.total] at hle
  rw [removeEntry, hf]
  simp only [sizeT]
  omega

theorem Summed.removeEntry (h : Summed c) (filename : Bytes) :
    Summed (removeEntry filename c) ∧
      (FileIo.removeEntry filename c).totalCacheSize ≤ c.totalCacheSize := by
  cases hf : c.fileCache.lookup filename with
  | none =>
    rw [FileIo.removeEntry, hf]
    exact ⟨h, le_rfl⟩
  | some f =>
    have htotal := h.totalCacheSize_removeEntry hf
    have hsum := weightSum_erase CachedFile.size hf
    have hcache : (FileIo.removeEntry filename c).fileCache = c.fileCache.erase filename := by
      rw [FileIo.removeEntry, hf]
    have hlt := h.lt
    rw [← h.total] at hsum
    exact ⟨⟨by rw [hcache]; omega, by omega⟩, by omega⟩

theorem Within.removeEntry (h : Within cfg c) (filename : Bytes) :
    Within cfg (removeEntry filename c) := by
  obtain ⟨hsum, hle⟩ := h.toSummed.removeEntry filename
  exact h.of_keptFrom (keptFrom_removeEntry filename c) hsum (hle.trans h.le)

/-! ## Eviction

An entry that has just been made was checked now, and every other one before, so it is the last that
eviction by size comes to. It stays if it is within the limit by itself. -/

variable (cfg) in
theorem evictTtl_spec (h : Summed c) (now : ℕ) :
    Summed (evictTtl cfg now c) ∧ KeptFrom c (evictTtl cfg now c) ∧
      (evictTtl cfg now c).totalCacheSize ≤ c.totalCacheSize := by
  rw [evictTtl]
  refine List.foldlRecOn (motive := fun c' ↦
    Summed c' ∧ KeptFrom c c' ∧ c'.totalCacheSize ≤ c.totalCacheSize) _ _
    ⟨h, .refl c, le_rfl⟩ fun c' ⟨hsum, hkept, hle⟩ filename _ ↦ ?_
  rw [evictExpired]
  split
  · exact ⟨hsum, hkept, hle⟩
  split
  · obtain ⟨hsum', hle'⟩ := hsum.removeEntry filename
    exact ⟨hsum', hkept.trans (keptFrom_removeEntry filename c'), hle'.trans hle⟩
  · exact ⟨hsum, hkept, hle⟩

theorem oldest_eq_some {filename : Bytes} (h : oldest c = some filename) :
    ∃ f, c.fileCache.lookup filename = some f ∧
      ∀ k f', c.fileCache.lookup k = some f' → f.lastCheck ≤ f'.lastCheck := by
  obtain ⟨⟨k, f⟩, hmin, rfl⟩ := Option.map_eq_some_iff.mp h
  refine ⟨f, AList.mem_lookup_iff.mpr (List.argmin_mem hmin), fun k' f' hf' ↦ ?_⟩
  exact List.le_of_mem_argmin (f := fun e : (_ : Bytes) × CachedFile ↦ e.2.lastCheck)
    (AList.mem_lookup_iff.mp hf') hmin

theorem oldest_eq_none (h : oldest c = none) : c.fileCache.entries = [] := by
  rw [oldest, Option.map_eq_none_iff, List.argmin_eq_none] at h
  exact h

/-- The entry is newer than all others. -/
def Newest (c : FileCache) (k : Bytes) (f : CachedFile) : Prop :=
  c.fileCache.lookup k = some f ∧
    ∀ k' f', c.fileCache.lookup k' = some f' → k' ≠ k → f'.lastCheck < f.lastCheck

/-- This entry and those that have been checked no earlier are within the limit together. -/
def Fits (cfg : GlobalConfig) (c : FileCache) (f : CachedFile) : Prop :=
  weightSum (fun f' : CachedFile ↦ if f.lastCheck ≤ f'.lastCheck then f'.size else 0) c.fileCache
    ≤ cfg.fileCacheMaxSize

theorem Newest.fits {k : Bytes} {f : CachedFile} (h : Newest c k f)
    (hsize : f.size ≤ cfg.fileCacheMaxSize) : Fits cfg c f := by
  rw [Fits, weightSum_of_only _ h.1 fun k' f' hf' hk' ↦ if_neg (not_le.mpr (h.2 k' f' hf' hk')),
    if_pos le_rfl]
  exact hsize

theorem Fits.removeEntry {f : CachedFile} (h : Fits cfg c f) (filename : Bytes) :
    Fits cfg (removeEntry filename c) f := by
  rw [FileIo.removeEntry]
  split
  · exact h
  · next f' hf' =>
    have hsum := weightSum_erase
      (fun f' : CachedFile ↦ if f.lastCheck ≤ f'.lastCheck then f'.size else 0) hf'
    rw [Fits] at h ⊢
    simp only at hsum ⊢
    omega

/-- An oldest entry fits only if everything does. -/
theorem Fits.le {f : CachedFile} (h : Fits cfg c f)
    (hmin : ∀ k f', c.fileCache.lookup k = some f' → f.lastCheck ≤ f'.lastCheck) :
    weightSum CachedFile.size c.fileCache ≤ cfg.fileCacheMaxSize := by
  rw [Fits, weightSum_congr fun k f' hf' ↦ if_pos (hmin k f' hf')] at h
  exact h

/-- **Evicting by size.** The result is within the limit, and an entry that fits is not evicted. -/
theorem evictSizeLoop_spec (n : ℕ) (h : Summed c) (hn : c.fileCache.entries.length ≤ n) :
    Summed (evictSizeLoop cfg n c) ∧ KeptFrom c (evictSizeLoop cfg n c) ∧
      (evictSizeLoop cfg n c).totalCacheSize ≤ cfg.fileCacheMaxSize ∧
      ∀ k f, c.fileCache.lookup k = some f → Fits cfg c f →
        (evictSizeLoop cfg n c).fileCache.lookup k = some f := by
  have hempty : c.fileCache.entries = [] → c.totalCacheSize ≤ cfg.fileCacheMaxSize := by
    intro hnil
    rw [h.total, weightSum, hnil]
    exact Nat.zero_le _
  induction n generalizing c with
  | zero =>
    rw [evictSizeLoop]
    exact ⟨h, .refl c, hempty (List.length_eq_zero_iff.mp (Nat.le_zero.mp hn)), fun k f hf _ ↦ hf⟩
  | succ n ih =>
    rw [evictSizeLoop]
    split
    swap
    · next hle => exact ⟨h, .refl c, not_lt.mp hle, fun k f hf _ ↦ hf⟩
    next hover =>
    split
    · next hnone => exact absurd (hempty (oldest_eq_none hnone)) (not_le.mpr hover)
    next filename hold =>
    obtain ⟨f₀, hf₀, hmin⟩ := oldest_eq_some hold
    obtain ⟨hsum, -⟩ := h.removeEntry filename
    have hkept := keptFrom_removeEntry filename c
    have hlen : (removeEntry filename c).fileCache.entries.length ≤ n := by
      have hcache : (removeEntry filename c).fileCache = c.fileCache.erase filename := by
        rw [removeEntry, hf₀]
      have hlength := length_entries_erase hf₀
      rw [hcache]
      omega
    obtain ⟨hsum', hkept', hle', hfits⟩ := ih hsum hlen fun hnil ↦ by
      rw [hsum.total, weightSum, hnil]
      exact Nat.zero_le _
    refine ⟨hsum', hkept.trans hkept', hle', fun k f hf hfit ↦ ?_⟩
    -- not the oldest entry, since everything does not fit
    have hne : k ≠ filename := by
      rintro rfl
      obtain rfl := Option.some.inj (hf₀.symm.trans hf)
      have hall := hfit.le hmin
      rw [← h.total] at hall
      exact absurd hover (not_lt.mpr hall)
    refine hfits k f ?_ (hfit.removeEntry filename)
    rw [lookup_removeEntry, if_neg hne]
    exact hf

variable (cfg) in
theorem evictSize_spec (h : Summed c) :
    Summed (evictSize cfg c) ∧ KeptFrom c (evictSize cfg c) ∧
      (evictSize cfg c).totalCacheSize ≤ cfg.fileCacheMaxSize ∧
      ∀ k f, c.fileCache.lookup k = some f → Fits cfg c f →
        (evictSize cfg c).fileCache.lookup k = some f :=
  evictSizeLoop_spec _ h le_rfl

theorem Within.maybeMaintain (h : Within cfg c) (callCount now : ℕ) :
    Within cfg (maybeMaintain cfg callCount now c) ∧
      KeptFrom c (FileIo.maybeMaintain cfg callCount now c) := by
  rw [FileIo.maybeMaintain]
  split
  · obtain ⟨hsum, hkept, -⟩ := evictTtl_spec cfg h.toSummed now
    obtain ⟨hsum', hkept', hle, -⟩ := evictSize_spec cfg hsum
    exact ⟨h.of_keptFrom (hkept.trans hkept') hsum' hle, hkept.trans hkept'⟩
  · exact ⟨h, .refl c⟩

private theorem maybeMaintain_spec (h : Accounted cfg now c) (callCount : ℕ) :
    Accounted cfg now (maybeMaintain cfg callCount now c) ∧
      KeptFrom c (maybeMaintain cfg callCount now c) := by
  obtain ⟨hwithin, hkept⟩ := h.within.maybeMaintain callCount now
  exact ⟨h.of_keptFrom hkept hwithin, hkept⟩

/-! ## Inserting

What is inserted replaces the entry of the file, whose size is taken back first. The limit may be
passed by that and is kept again when eviction has ended. -/

theorem lookup_insertEntry (filename content : Bytes) (mtime : ℤ) (now : ℕ) (c : FileCache)
    (k : Bytes) :
    (insertEntry filename content mtime now c).fileCache.lookup k =
      if k = filename then
        some { content := content, mtime := mtime, lastCheck := now, size := content.length }
      else c.fileCache.lookup k := by
  rw [insertEntry]
  by_cases hk : k = filename
  · rw [if_pos hk, hk, AList.lookup_insert]
  · rw [if_neg hk, AList.lookup_insert_ne hk, lookup_removeEntry, if_neg hk]

theorem Summed.insertEntry (h : Summed c) (filename content : Bytes) (mtime : ℤ) (now : ℕ)
    (hlt : c.totalCacheSize + content.length < 2 ^ 64) :
    Summed (insertEntry filename content mtime now c) := by
  obtain ⟨hsum, hle⟩ := h.removeEntry filename
  have hsize : sizeT ((FileIo.removeEntry filename c).totalCacheSize + content.length)
      = (FileIo.removeEntry filename c).totalCacheSize + content.length := sizeT_of_lt (by omega)
  have hnone : (FileIo.removeEntry filename c).fileCache.lookup filename = none := by
    rw [lookup_removeEntry, if_pos rfl]
  constructor
  · rw [FileIo.insertEntry]
    simp only
    rw [hsize, weightSum_insert, weightSum_erase_of_none CachedFile.size hnone, hsum.total]
  · rw [FileIo.insertEntry]
    simp only
    omega

theorem Within.summed_insertEntry (h : Within cfg c) (filename : Bytes) {content : Bytes}
    (mtime : ℤ) (now : ℕ) (hle : content.length ≤ cfg.fileCacheMaxSize) :
    Summed (insertEntry filename content mtime now c) := by
  have hmax := cfg.fileCacheMaxSize_lt
  have htotal := h.le
  exact h.toSummed.insertEntry filename content mtime now (by omega)

/-- Storing a content: it is within the limit again once evicting has removed entries. -/
theorem Within.storeEntry (h : Within cfg c) (filename : Bytes) {content : Bytes} (mtime : ℤ)
    (now : ℕ) (hle : content.length ≤ cfg.fileCacheMaxSize) :
    let c' := evictSize cfg (insertEntry filename content mtime now c)
    Within cfg c' ∧ KeptFrom (insertEntry filename content mtime now c) c' := by
  obtain ⟨hsum, hkept, hlimit, -⟩ :=
    evictSize_spec cfg (h.summed_insertEntry filename mtime now hle)
  refine ⟨⟨hsum, hlimit, fun {k f} hf ↦ ?_⟩, hkept⟩
  have hf' := hkept hf
  rw [lookup_insertEntry] at hf'
  split at hf'
  · obtain rfl := Option.some.inj hf'
    rfl
  · exact h.size hf'

/-- **Storing a content.** It is found again, since its entry is newer than all others. -/
theorem storeEntry_spec (h : Accounted cfg now c) (filename : Bytes) {content : Bytes} (mtime : ℤ)
    (hle : content.length ≤ cfg.fileCacheMaxSize) :
    let c' := evictSize cfg (insertEntry filename content mtime now c)
    Accounted cfg (now + 1) c' ∧
      c'.fileCache.lookup filename
        = some { content := content, mtime := mtime, lastCheck := now, size := content.length } ∧
      ∀ k f, k ≠ filename → c'.fileCache.lookup k = some f → c.fileCache.lookup k = some f := by
  obtain ⟨hwithin, hkept⟩ := h.within.storeEntry filename mtime now hle
  have hother : ∀ k f, k ≠ filename →
      (insertEntry filename content mtime now c).fileCache.lookup k = some f →
      c.fileCache.lookup k = some f := by
    intro k f hk hf
    rwa [lookup_insertEntry, if_neg hk] at hf
  have hself : Newest (insertEntry filename content mtime now c) filename
      { content := content, mtime := mtime, lastCheck := now, size := content.length } := by
    refine ⟨by rw [lookup_insertEntry, if_pos rfl], fun k f hf hk ↦ ?_⟩
    exact h.checked (hother k f hk hf)
  obtain ⟨-, -, -, hfits⟩ := evictSize_spec cfg (h.within.summed_insertEntry filename mtime now hle)
  refine ⟨hwithin.accounted fun {k f} hf ↦ ?_, hfits _ _ hself.1 (hself.fits hle),
    fun k f hk hf ↦ hother k f hk (hkept hf)⟩
  by_cases hk : k = filename
  · rw [hk] at hf
    obtain rfl := Option.some.inj (hself.1.symm.trans (hkept hf))
    exact Nat.lt_succ_self _
  · exact Nat.lt_succ_of_lt (h.checked (hother k f hk (hkept hf)))

/-- An entry made by `file_cache[filename]` is empty. -/
theorem Within.indexCache (h : Within cfg c) (filename : Bytes) (now : ℕ) :
    Within cfg (indexCache filename now c).2 := by
  rw [FileIo.indexCache]
  cases hf : c.fileCache.lookup filename with
  | some f => exact h
  | none =>
    have hsum : weightSum CachedFile.size (c.fileCache.insert filename { lastCheck := now }) =
        weightSum CachedFile.size c.fileCache := by
      rw [weightSum_insert, weightSum_erase_of_none CachedFile.size hf, Nat.add_zero]
    refine ⟨⟨h.total.trans hsum.symm, h.lt⟩, h.le, fun {k f} hf' ↦ ?_⟩
    by_cases hk : k = filename
    · rw [hk, AList.lookup_insert] at hf'
      obtain rfl := Option.some.inj hf'
      rfl
    · rw [AList.lookup_insert_ne hk] at hf'
      exact h.size hf'

/-! ## The sections of a read

A section that finds an entry marks it as checked, and removes it when the file has changed. Neither
makes the content of an entry anything else. -/

theorem checkFresh_spec (h : Accounted cfg now c) (filename : Bytes) :
    Accounted cfg now (checkFresh cfg filename now c).2 ∧
      KeptFrom c (checkFresh cfg filename now c).2 ∧
      ∀ content ∈ (checkFresh cfg filename now c).1, ∃ f, c.fileCache.lookup filename = some f ∧
        content = f.content ∧ now - f.lastCheck < 10 ^ 9 := by
  set n := (c.callCounter + 1) % 2 ^ 32 with hn
  have hcounted : Accounted cfg now { c with callCounter := n } :=
    ⟨⟨h.total, h.lt⟩, h.le, h.size, h.checked⟩
  obtain ⟨hkeeps, hkept⟩ := maybeMaintain_spec hcounted n
  rw [checkFresh]
  simp only [← hn]
  split
  · exact ⟨hkeeps, hkept, fun content hf ↦ (nomatch hf)⟩
  next f hf =>
  refine ⟨hkeeps, hkept, fun content hcontent ↦ ?_⟩
  rw [Option.mem_def, Option.ite_none_right_eq_some] at hcontent
  obtain ⟨hage, heq⟩ := hcontent
  exact ⟨f, hkept hf, (Option.some.inj heq).symm, by omega⟩

/-- The contents of the entries come from the cache before. -/
def SameContents (c c' : FileCache) : Prop :=
  ∀ ⦃k f'⦄, c'.fileCache.lookup k = some f' →
    ∃ f, c.fileCache.lookup k = some f ∧ f'.content = f.content

private theorem KeptFrom.sameContents (h : KeptFrom c c') : SameContents c c' :=
  fun _ f hf ↦ ⟨f, h hf, rfl⟩

theorem SameContents.trans {c₁ c₂ c₃ : FileCache} (h : SameContents c₁ c₂)
    (h' : SameContents c₂ c₃) : SameContents c₁ c₃ := by
  intro k f₃ hf₃
  obtain ⟨f₂, hf₂, heq⟩ := h' hf₃
  obtain ⟨f₁, hf₁, heq'⟩ := h hf₂
  exact ⟨f₁, hf₁, heq.trans heq'⟩

/-- The entry has been checked now. -/
def touchEntry (filename : Bytes) (f : CachedFile) (now : ℕ) (c : FileCache) : FileCache :=
  { c with fileCache := c.fileCache.insert filename { f with lastCheck := now } }

theorem lookup_touchEntry (filename : Bytes) (f : CachedFile) (now : ℕ) (c : FileCache)
    (k : Bytes) : (touchEntry filename f now c).fileCache.lookup k =
      if k = filename then some { f with lastCheck := now } else c.fileCache.lookup k := by
  rw [touchEntry]
  by_cases hk : k = filename
  · rw [if_pos hk, hk, AList.lookup_insert]
  · rw [if_neg hk, AList.lookup_insert_ne hk]

/-- It does not matter that an entry has been touched if it is removed then. -/
theorem removeEntry_touchEntry {filename : Bytes} {f : CachedFile}
    (hf : c.fileCache.lookup filename = some f) (now : ℕ) :
    removeEntry filename (touchEntry filename f now c) = removeEntry filename c := by
  have herase : (c.fileCache.insert filename { f with lastCheck := now }).erase filename =
      c.fileCache.erase filename := by
    apply AList.ext
    exact List.kerase_cons_eq rfl
  rw [removeEntry, removeEntry, hf, touchEntry]
  simp only [AList.lookup_insert]
  rw [herase]

/-- **The second section**, once there is an entry. -/
theorem checkUnchanged_of_lookup {filename : Bytes} {f : CachedFile}
    (hf : c.fileCache.lookup filename = some f) (newMtime : ℤ) (now : ℕ) :
    checkUnchanged filename newMtime now c =
      if f.mtime = newMtime then (some f.content, touchEntry filename f now c)
      else (none, removeEntry filename c) := by
  rw [checkUnchanged, hf]
  simp only
  rw [← touchEntry, removeEntry_touchEntry hf]

theorem Within.touchEntry (h : Within cfg c) {filename : Bytes} {f : CachedFile}
    (hf : c.fileCache.lookup filename = some f) (now : ℕ) :
    Within cfg (touchEntry filename f now c) := by
  refine ⟨⟨h.total.trans (weightSum_insert_of_eq _ hf rfl).symm, h.lt⟩, h.le, fun {k f'} hf' ↦ ?_⟩
  rw [lookup_touchEntry] at hf'
  split at hf'
  · obtain rfl := Option.some.inj hf'
    exact (h.size hf : f.size = f.content.length)
  · exact h.size hf'

theorem Within.checkUnchanged (h : Within cfg c) (filename : Bytes) (newMtime : ℤ) (now : ℕ) :
    Within cfg (checkUnchanged filename newMtime now c).2 := by
  cases hf : c.fileCache.lookup filename with
  | none =>
    rw [FileIo.checkUnchanged, hf]
    exact h
  | some f =>
    rw [checkUnchanged_of_lookup hf]
    split
    · exact h.touchEntry hf now
    · exact h.removeEntry filename

private theorem checkUnchanged_spec (h : Accounted cfg now c) (filename : Bytes) (newMtime : ℤ) :
    Accounted cfg (now + 1) (checkUnchanged filename newMtime now c).2 ∧
      ((checkUnchanged filename newMtime now c).1 = none →
        Accounted cfg now (checkUnchanged filename newMtime now c).2) ∧
      SameContents c (checkUnchanged filename newMtime now c).2 ∧
      ∀ content ∈ (checkUnchanged filename newMtime now c).1,
        ∃ f, c.fileCache.lookup filename = some f ∧ content = f.content := by
  cases hf : c.fileCache.lookup filename with
  | none =>
    rw [checkUnchanged, hf]
    exact ⟨h.mono (Nat.le_succ now), fun _ ↦ h, (KeptFrom.refl c).sameContents,
      fun content hcontent ↦ (nomatch hcontent)⟩
  | some f =>
  rw [checkUnchanged_of_lookup hf]
  split
  · refine ⟨(h.within.touchEntry hf now).accounted fun {k f'} hf' ↦ ?_,
      fun hnone ↦ (nomatch hnone), fun k f' hf' ↦ ?_, fun content hcontent ↦ ?_⟩
    · rw [lookup_touchEntry] at hf'
      split at hf'
      · obtain rfl := Option.some.inj hf'
        exact Nat.lt_succ_self _
      · exact Nat.lt_succ_of_lt (h.checked hf')
    · rw [lookup_touchEntry] at hf'
      split at hf'
      · next hk =>
        obtain rfl := Option.some.inj hf'
        exact ⟨f, hk ▸ hf, rfl⟩
      · exact ⟨f', hf', rfl⟩
    · exact ⟨f, rfl, (Option.some.inj hcontent).symm⟩
  · have hkept := keptFrom_removeEntry filename c
    have hremoved := h.of_keptFrom hkept (h.within.removeEntry filename)
    exact ⟨hremoved.mono (Nat.le_succ now), fun _ ↦ hremoved, hkept.sameContents,
      fun content hcontent ↦ (nomatch hcontent)⟩

private theorem storeContent_spec (h : Accounted cfg now c) (filename : Bytes) {content : Bytes}
    (newMtime : ℤ) (hle : content.length ≤ cfg.fileCacheMaxSize) :
    (storeContent cfg filename content newMtime now c).1 = content ∧
      Accounted cfg (now + 1) (storeContent cfg filename content newMtime now c).2 ∧
      ∀ k f, (storeContent cfg filename content newMtime now c).2.fileCache.lookup k = some f →
        k = filename ∧ f.content = content ∨ c.fileCache.lookup k = some f := by
  obtain ⟨hkeeps, hfound, hother⟩ := storeEntry_spec h filename newMtime hle
  rw [storeContent, indexCache, hfound]
  refine ⟨rfl, hkeeps, fun k f hf ↦ ?_⟩
  by_cases hk : k = filename
  · rw [hk] at hf
    obtain rfl := Option.some.inj (hfound.symm.trans hf)
    exact .inl ⟨hk, rfl⟩
  · exact .inr (hother k f hk hf)

/-! ## Whole operations

For one caller alone the sections follow each other without anything in between. Then a read and a
write can be described by what they return, what they leave on the disk, and which entries they
leave. -/

section

variable {κ : Type*} (resolve : Bytes → κ) (io : Io) {s : FileStore κ}

/-- What a read can return. -/
structure ReadResult (filename : Bytes) (s : FileStore κ) (content : Bytes) : Prop where
  cases : (∃ f, s.cache.fileCache.lookup filename = some f ∧ content = f.content) ∨
    (∃ file, s.disk (resolve filename) = some file ∧ content = file.content) ∨
    content = [] ∧ ((io.statOk && io.readOk) = false ∨ s.disk (resolve filename) = none)

/-- The entries of the new cache have the contents they had, or the content of the file. -/
def Caches (filename : Bytes) (s : FileStore κ) (c : FileCache) : Prop :=
  ∀ ⦃k f'⦄, c.fileCache.lookup k = some f' →
    (∃ f, s.cache.fileCache.lookup k = some f ∧ f'.content = f.content) ∨
      k = filename ∧ ∃ file, s.disk (resolve filename) = some file ∧ f'.content = file.content

/-- **Reading a file.** -/
theorem readEntireFileCached_spec (h : Accounted cfg s.now s.cache) (filename : Bytes) :
    let p := readEntireFileCached cfg resolve io filename s
    Accounted cfg (s.now + 1) p.2.cache ∧ p.2.disk = s.disk ∧ p.2.now = s.now ∧
      Caches resolve filename s p.2.cache ∧ ReadResult resolve io filename s p.1 := by
  obtain ⟨hkeeps₁, hkept₁, hfresh⟩ := checkFresh_spec h filename
  have hcaches₁ {c' : FileCache}
      (hsame : SameContents (checkFresh cfg filename s.now s.cache).2 c') :
      Caches resolve filename s c' := fun k f' hf' ↦ .inl ((hkept₁.sameContents.trans hsame) hf')
  have hcaches₁' := hcaches₁ (KeptFrom.refl _).sameContents
  rw [readEntireFileCached]
  split
  · next content c₁ heq =>
    rw [heq] at hkeeps₁ hcaches₁' hfresh
    obtain ⟨f, hf, hcontent, -⟩ := hfresh content rfl
    exact ⟨hkeeps₁.mono (Nat.le_succ _), rfl, rfl, hcaches₁', ⟨.inl ⟨f, hf, hcontent⟩⟩⟩
  next c₁ heq =>
  rw [heq] at hkeeps₁ hcaches₁ hcaches₁' hkept₁
  split
  · next hstat =>
    refine ⟨hkeeps₁.mono (Nat.le_succ _), rfl, rfl, hcaches₁', ⟨.inr (.inr ⟨rfl, ?_⟩)⟩⟩
    cases hok : io.statOk with
    | false => exact .inl rfl
    | true =>
      rw [hok, if_pos rfl] at hstat
      exact .inr hstat
  next file hfile =>
  have hdisk : s.disk (resolve filename) = some file := by
    split at hfile
    · exact hfile
    · cases hfile
  obtain ⟨hkeeps₂, hnone₂, hsame₂, hunchanged⟩ := checkUnchanged_spec hkeeps₁ filename file.mtime
  split
  · next content c₂ heq₂ =>
    rw [heq₂] at hkeeps₂ hsame₂ hunchanged
    obtain ⟨f, hf, hcontent⟩ := hunchanged content rfl
    exact ⟨hkeeps₂, rfl, rfl, hcaches₁ hsame₂, ⟨.inl ⟨f, hkept₁ hf, hcontent⟩⟩⟩
  next c₂ heq₂ =>
  rw [heq₂] at hkeeps₂ hsame₂ hnone₂
  split
  · next hread =>
    refine ⟨hkeeps₂, rfl, rfl, hcaches₁ hsame₂, ⟨.inr (.inr ⟨rfl, .inl ?_⟩)⟩⟩
    rw [Bool.not_eq_true'] at hread
    rw [hread, Bool.and_false]
  split
  · exact ⟨hkeeps₂, rfl, rfl, hcaches₁ hsame₂, ⟨.inr (.inl ⟨file, hdisk, rfl⟩)⟩⟩
  · next hle =>
    obtain ⟨hresult, hkeeps₃, hcaches₃⟩ :=
      storeContent_spec (hnone₂ rfl) filename file.mtime (not_lt.mp hle)
    refine ⟨hkeeps₃, rfl, rfl, fun k f' hf' ↦ ?_, ⟨.inr (.inl ⟨file, hdisk, hresult⟩)⟩⟩
    rcases hcaches₃ k f' hf' with ⟨hk, hcontent⟩ | hf'
    · exact .inr ⟨hk, file, hdisk, hcontent⟩
    · exact hcaches₁ hsame₂ hf'

variable [DecidableEq κ]

/-- **Writing a file.** Only the file it names changes, and only its entry. -/
theorem writeEntireFile_spec (h : Accounted cfg s.now s.cache) (filename content : Bytes) :
    let p := writeEntireFile cfg resolve io filename content s
    Accounted cfg (s.now + 1) p.2.cache ∧ p.2.now = s.now ∧
      (∀ k ≠ resolve filename, p.2.disk k = s.disk k) ∧
      (∀ k f, k ≠ filename → p.2.cache.fileCache.lookup k = some f →
        s.cache.fileCache.lookup k = some f) ∧
      (p.1 = true → (∃ mtime, p.2.disk (resolve filename) = some ⟨content, mtime⟩) ∧
        ∀ f, p.2.cache.fileCache.lookup filename = some f → f.content = content) := by
  have hwrite (content : Bytes) (mtime : ℤ) : ∀ k ≠ resolve filename,
      (s.write (resolve filename) content mtime).disk k = s.disk k :=
    fun k hk ↦ Function.update_of_ne hk _ _
  rw [writeEntireFile]
  split
  · exact ⟨h.mono (Nat.le_succ _), rfl, fun k _ ↦ rfl, fun k f _ hf ↦ hf, fun hf ↦ (nomatch hf)⟩
  split
  · exact ⟨h.mono (Nat.le_succ _), rfl, hwrite _ _, fun k f _ hf ↦ hf, fun hf ↦ (nomatch hf)⟩
  simp only
  have hdisk : ∃ mtime, (s.write (resolve filename) content io.mtime).disk (resolve filename)
      = some ⟨content, mtime⟩ := ⟨io.mtime, Function.update_self _ _ _⟩
  split
  · have hkept := keptFrom_removeEntry filename s.cache
    have hremoved := h.of_keptFrom hkept (h.within.removeEntry filename)
    refine ⟨hremoved.mono (Nat.le_succ _), rfl, hwrite _ _,
      fun k f _ hf ↦ hkept hf, fun _ ↦ ⟨hdisk, fun f hf ↦ ?_⟩⟩
    have hnone := lookup_removeEntry filename s.cache filename
    rw [if_pos rfl] at hnone
    exact absurd (hnone.symm.trans hf) (Option.some_ne_none f).symm
  · next hle =>
    obtain ⟨hkeeps, hfound, hother⟩ := storeEntry_spec h filename io.time (not_lt.mp hle)
    refine ⟨hkeeps, rfl, hwrite _ _, hother, fun _ ↦ ⟨hdisk, fun f hf ↦ ?_⟩⟩
    obtain rfl := Option.some.inj (hfound.symm.trans hf)
    rfl

end

end Wasapi.FileIo
