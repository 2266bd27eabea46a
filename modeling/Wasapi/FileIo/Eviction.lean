import Wasapi.FileIo.SharedAccounting

/-!
# What the cache forgets

The loops of `evict_size_unlocked` and `evict_ttl_unlocked` without a loop: an entry is evicted for
its size only after every older one, and only if the rest would still be too large; an entry expires
when its last check is too long ago, and no other does.

`CacheMove` is the cache as its users may think of it, a map from names to entries that changes in
six ways. Every step of a thread is one of them.
-/

namespace Wasapi.FileIo

section

variable (cfg : GlobalConfig)

/-- The last check is longer ago than an entry may live. -/
def Expired (now : ℕ) (f : CachedFile) : Prop :=
  cfg.fileCacheTtl < ((now - f.lastCheck : ℕ) : ℚ) / 10 ^ 9

instance (now : ℕ) (f : CachedFile) : Decidable (Expired cfg now f) :=
  inferInstanceAs (Decidable (_ < _))

/-- The entry is there at first and not in the end. -/
def Evicted (c c' : FileCache) (k : Bytes) (f : CachedFile) : Prop :=
  c.fileCache.lookup k = some f ∧ c'.fileCache.lookup k = none

/-- **Eviction by size.** -/
structure EvictsOldest (c c' : FileCache) : Prop where
  kept : KeptFrom c c'
  fits : c'.totalCacheSize ≤ cfg.fileCacheMaxSize
  /-- what is evicted is no newer than what is kept -/
  oldest : ∀ k f k' f', Evicted c c' k f → c'.fileCache.lookup k' = some f' →
    f.lastCheck ≤ f'.lastCheck
  /-- a newest of the evicted entries would not have fitted with those that are kept -/
  needed : c' = c ∨ ∃ k f, Evicted c c' k f ∧ cfg.fileCacheMaxSize < c'.totalCacheSize + f.size ∧
    ∀ k' f', Evicted c c' k' f' → f'.lastCheck ≤ f.lastCheck

/-- How the entries may change in one step of a thread, at `now`. -/
inductive CacheMove (now : ℕ) (c : FileCache) : FileCache → Prop where
  | same {c' : FileCache} (h : c'.fileCache = c.fileCache) : CacheMove now c c'
  /-- maintenance forgets what has expired -/
  | expire {c' : FileCache}
    (h : ∀ k f, c'.fileCache.lookup k = some f ↔ c.fileCache.lookup k = some f ∧
      ¬Expired cfg now f) : CacheMove now c c'
  /-- the file has not changed -/
  | check {c' : FileCache} (filename : Bytes) (f : CachedFile) (checked : ℕ)
    (hf : c.fileCache.lookup filename = some f)
    (h : ∀ k, c'.fileCache.lookup k =
      if k = filename then some { f with lastCheck := checked } else c.fileCache.lookup k) :
    CacheMove now c c'
  /-- the file has changed, or what has been written is too large -/
  | drop {c' : FileCache} (filename : Bytes)
    (h : ∀ k, c'.fileCache.lookup k = if k = filename then none else c.fileCache.lookup k) :
    CacheMove now c c'
  /-- a content is stored, and makes room for itself -/
  | store {c' : FileCache} (filename content : Bytes) (mtime : ℤ)
    (h : EvictsOldest cfg (insertEntry filename content mtime now c) c') : CacheMove now c c'
  /-- the same, but what has been stored is evicted at once, and an empty entry takes its place -/
  | storeEmpty {c' : FileCache} (filename content : Bytes) (mtime : ℤ) (indexed : ℕ)
    (hgone : c'.fileCache.lookup filename = none)
    (h : EvictsOldest cfg (insertEntry filename content mtime now c) c') :
    CacheMove now c (indexCache filename indexed c').2

end

variable {cfg : GlobalConfig} {c c' : FileCache}

/-! ## Eviction by size

The loop looks for the oldest entry in every turn. Its result can be said without the loop: what is
gone is older than what is left, and if any less were gone the rest would be too large. -/

/-- One turn of the loop: the oldest entry is evicted, since everything is too large. -/
theorem EvictsOldest.cons (hsum : Summed c) {filename : Bytes}
    (hold : FileIo.oldest c = some filename) (hover : cfg.fileCacheMaxSize < c.totalCacheSize)
    (h : EvictsOldest cfg (removeEntry filename c) c') : EvictsOldest cfg c c' := by
  obtain ⟨f₀, hf₀, hmin⟩ := oldest_eq_some hold
  have htotal := hsum.totalCacheSize_removeEntry hf₀
  have hkept := keptFrom_removeEntry filename c
  -- what is evicted is the oldest entry, or evicted in a later turn
  have hevicted {k : Bytes} {f : CachedFile} (hk : Evicted c c' k f) :
      f = f₀ ∨ Evicted (removeEntry filename c) c' k f := by
    by_cases hkey : k = filename
    · subst hkey
      exact .inl (Option.some.inj (hk.1.symm.trans hf₀))
    · refine .inr ⟨?_, hk.2⟩
      rw [lookup_removeEntry, if_neg hkey]
      exact hk.1
  have hfirst : Evicted c c' filename f₀ := by
    refine ⟨hf₀, ?_⟩
    cases hlookup : c'.fileCache.lookup filename with
    | none => rfl
    | some f =>
      have hstill := h.kept hlookup
      rw [lookup_removeEntry, if_pos rfl] at hstill
      cases hstill
  refine ⟨hkept.trans h.kept, h.fits, fun k f k' f' hk hk' ↦ ?_, .inr ?_⟩
  · obtain rfl | hk := hevicted hk
    · exact hmin k' f' (hkept (h.kept hk'))
    · exact h.oldest k f k' f' hk hk'
  · obtain rfl | ⟨k, f, hk, hlt, hnewest⟩ := h.needed
    · refine ⟨filename, f₀, hfirst, by omega, fun k' f' hk' ↦ ?_⟩
      obtain rfl | hk' := hevicted hk'
      · exact le_rfl
      · exact absurd (hk'.1.symm.trans hk'.2) (Option.some_ne_none f')
    · refine ⟨k, f, ⟨hkept hk.1, hk.2⟩, hlt, fun k' f' hk' ↦ ?_⟩
      obtain rfl | hk' := hevicted hk'
      · exact hmin k f (hkept hk.1)
      · exact hnewest k' f' hk'

private theorem evictsOldest_evictSizeLoop (n : ℕ) (h : Summed c)
    (hn : c.fileCache.entries.length ≤ n) : EvictsOldest cfg c (evictSizeLoop cfg n c) := by
  have hself (hle : c.totalCacheSize ≤ cfg.fileCacheMaxSize) : EvictsOldest cfg c c :=
    ⟨.refl c, hle, fun k f _ _ hk _ ↦ absurd (hk.1.symm.trans hk.2) (Option.some_ne_none f),
      .inl rfl⟩
  have hempty : c.fileCache.entries = [] → c.totalCacheSize ≤ cfg.fileCacheMaxSize := by
    intro hnil
    rw [h.total, weightSum, hnil]
    exact Nat.zero_le _
  induction n generalizing c with
  | zero =>
    rw [evictSizeLoop]
    exact hself (hempty (List.length_eq_zero_iff.mp (Nat.le_zero.mp hn)))
  | succ n ih =>
    rw [evictSizeLoop]
    by_cases hover : cfg.fileCacheMaxSize < c.totalCacheSize
    · rw [if_pos hover]
      cases hold : oldest c with
      | none => exact absurd (hempty (oldest_eq_none hold)) (not_le.mpr hover)
      | some filename =>
        obtain ⟨f₀, hf₀, -⟩ := oldest_eq_some hold
        have hlength := length_entries_erase hf₀
        have hcache : (removeEntry filename c).fileCache = c.fileCache.erase filename := by
          rw [removeEntry, hf₀]
        obtain ⟨hsum, -⟩ := h.removeEntry filename
        have hlen : (removeEntry filename c).fileCache.entries.length ≤ n := by
          rw [hcache]
          omega
        refine EvictsOldest.cons h hold hover (ih hsum hlen ?_ ?_)
        · intro hle
          exact ⟨.refl _, hle, fun k f _ _ hk _ ↦
            absurd (hk.1.symm.trans hk.2) (Option.some_ne_none f), .inl rfl⟩
        · intro hnil
          rw [hsum.total, weightSum, hnil]
          exact Nat.zero_le _
    · rw [if_neg hover]
      exact hself (not_lt.mp hover)

/-- **Eviction by size takes the oldest entries**, and no more than it has to. -/
theorem evictsOldest_evictSize (h : Summed c) : EvictsOldest cfg c (evictSize cfg c) :=
  evictsOldest_evictSizeLoop _ h le_rfl

private theorem evictSize_of_le (h : c.totalCacheSize ≤ cfg.fileCacheMaxSize) :
    evictSize cfg c = c := by
  rw [evictSize]
  cases c.fileCache.entries.length with
  | zero => rfl
  | succ n => rw [evictSizeLoop, if_neg (not_lt.mpr h)]

/-! ## Expiry

The loop goes over the keys there were at first and removes what has expired, so what is left is
decided for each entry by itself. -/

private theorem lookup_evictExpired (now : ℕ) (c : FileCache) (filename k : Bytes)
    (f : CachedFile) : (evictExpired cfg now c filename).fileCache.lookup k = some f ↔
      c.fileCache.lookup k = some f ∧ ¬(k = filename ∧ Expired cfg now f) := by
  rw [evictExpired]
  cases hf₀ : c.fileCache.lookup filename with
  | none =>
    refine ⟨fun hk ↦ ⟨hk, ?_⟩, And.left⟩
    rintro ⟨rfl, -⟩
    rw [hf₀] at hk
    cases hk
  | some f₀ =>
    change (if Expired cfg now f₀ then removeEntry filename c else c).fileCache.lookup k = _ ↔ _
    by_cases hexpired : Expired cfg now f₀
    · rw [if_pos hexpired, lookup_removeEntry]
      by_cases hk : k = filename
      · subst hk
        rw [if_pos rfl, hf₀]
        refine iff_of_false (Option.some_ne_none f).symm ?_
        rintro ⟨heq, hnot⟩
        obtain rfl := Option.some.inj heq
        exact hnot ⟨rfl, hexpired⟩
      · rw [if_neg hk]
        exact (and_iff_left fun h ↦ hk h.1).symm
    · rw [if_neg hexpired]
      refine (and_iff_left_of_imp fun heq hboth ↦ ?_).symm
      obtain ⟨rfl, hf⟩ := hboth
      rw [hf₀] at heq
      obtain rfl := Option.some.inj heq
      exact hexpired hf

/-- **Exactly what has expired is forgotten.** -/
theorem lookup_evictTtl (now : ℕ) (c : FileCache) (k : Bytes) (f : CachedFile) :
    (evictTtl cfg now c).fileCache.lookup k = some f ↔
      c.fileCache.lookup k = some f ∧ ¬Expired cfg now f := by
  have hfold (filenames : List Bytes) (c : FileCache) :
      (filenames.foldl (evictExpired cfg now) c).fileCache.lookup k = some f ↔
        c.fileCache.lookup k = some f ∧ ¬(k ∈ filenames ∧ Expired cfg now f) := by
    induction filenames generalizing c with
    | nil => simp
    | cons filename filenames ih =>
      rw [List.foldl_cons, ih, lookup_evictExpired, List.mem_cons]
      tauto
  rw [evictTtl, hfold]
  refine and_congr_right fun hf ↦ not_congr (and_iff_right ?_)
  exact AList.mem_keys.mpr (AList.lookup_isSome.mp (Option.isSome_of_mem hf))

/-! ## Every run

A step of a thread changes the cache in at most one locked section. So its effect on the entries is
that of one section, whichever thread takes the step and however its system calls end. -/

variable {ι κ : Type*} [DecidableEq ι] [DecidableEq κ] {resolve : Bytes → κ} {s : World ι κ}

private theorem cacheMove_maybeMaintain (h : Within cfg c) (callCount now : ℕ) :
    CacheMove cfg now c (maybeMaintain cfg callCount now c) := by
  rw [maybeMaintain]
  split
  · have hle := (evictTtl_spec cfg h.toSummed now).2.2
    rw [evictSize_of_le (hle.trans h.le)]
    exact .expire (lookup_evictTtl now c)
  · exact .same rfl

private theorem cacheMove_checkUnchanged (filename : Bytes) (newMtime : ℤ) (checked now : ℕ)
    (c : FileCache) : CacheMove cfg now c (checkUnchanged filename newMtime checked c).2 := by
  cases hf : c.fileCache.lookup filename with
  | none =>
    rw [checkUnchanged, hf]
    exact .same rfl
  | some f =>
    rw [checkUnchanged_of_lookup hf]
    split
    · exact .check filename f checked hf (lookup_touchEntry filename f checked c)
    · exact .drop filename (lookup_removeEntry filename c)

private theorem cacheMove_storeRead (h : Within cfg c) (filename : Bytes) {content : Bytes}
    (mtime : ℤ) (now indexed : ℕ) (hle : content.length ≤ cfg.fileCacheMaxSize) :
    CacheMove cfg now c (storeRead cfg filename content mtime now indexed c).2 := by
  have hevicts : EvictsOldest cfg _ _ :=
    evictsOldest_evictSize (h.summed_insertEntry filename mtime now hle)
  rw [storeRead]
  dsimp only
  cases hf : (evictSize cfg (insertEntry filename content mtime now c)).fileCache.lookup filename
    with
  | none => exact .storeEmpty filename content mtime indexed hf hevicts
  | some f =>
    rw [indexCache, hf]
    exact .store filename content mtime hevicts

private theorem cacheMove_storeWritten (h : Within cfg c) (filename content : Bytes) (mtime : ℤ)
    (now : ℕ) : CacheMove cfg now c (storeWritten cfg filename content mtime now c) := by
  rw [storeWritten]
  split
  · exact .drop filename (lookup_removeEntry filename c)
  · next hle =>
    exact .store filename content mtime
      (evictsOldest_evictSize (h.summed_insertEntry filename mtime now (not_lt.mp hle)))

private theorem Balanced.cacheMove (hb : Balanced cfg s) (t : ι) (io : StepIo) :
    CacheMove cfg s.now s.cache (s.step cfg resolve t io).cache := by
  have hbounded := hb.bounded t
  rw [World.step]
  cases hcall : s.call t with
  | reading filename => exact .same rfl
  | started filename currentCall now =>
    dsimp only
    rw [World.cache_setCall, World.cache_setCache, snd_findFresh]
    exact cacheMove_maybeMaintain hb.within currentCall s.now
  | found filename now newMtime fileSize =>
    exact cacheMove_checkUnchanged filename newMtime now s.now s.cache
  | loaded filename now newMtime content =>
    rw [hcall] at hbounded
    exact cacheMove_storeRead hb.within filename newMtime s.now (s.now + io.elapsed) hbounded
  | writing filename content =>
    dsimp only
    split <;> exact .same rfl
  | truncated filename content count =>
    refine .same ?_
    rw [World.cache_setCall, World.cache_putOctets]
  | written filename content =>
    exact cacheMove_storeWritten hb.within filename content io.time s.now
  | _ => exact .same rfl

variable (cfg resolve) in
/-- **The cache moves as it may.** In every state of every run, whatever thread takes the next step,
and however its system calls end, what becomes of the cache is one of the six moves; in particular
what is evicted for its size is never newer than what is kept, and never more than is needed. -/
theorem always_cacheMove (disk : κ → Option StoredFile) (events : List (Event ι κ)) :
    Always (World.act cfg resolve)
      (fun s ↦ ∀ t io, CacheMove cfg s.now s.cache (s.step cfg resolve t io).cache)
      (World.initial disk) events :=
  (always_of_invariant (fun _ e h ↦ h.act e) (balanced_initial disk) events).mono
    fun _ h t io ↦ h.cacheMove t io

end Wasapi.FileIo
