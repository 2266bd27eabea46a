import Wasapi.FileIo.Accounting
import Wasapi.Session.Session

/-!
# What a session operation does to the files

Saving and clearing change the file of the session only, loading changes none, and what the cache
holds for a file afterwards it held before or has just read.
-/

namespace Wasapi.Session

open FileIo Json

variable {κ : Type*} {cfg : GlobalConfig} {resolve : Bytes → κ}

/-- The operation neither writes nor removes the file of the session. -/
def Op.Spares (cfg : GlobalConfig) (resolve : Bytes → κ) (id : Bytes) (op : Op) : Prop :=
  ∀ id' ∈ op.changes, resolve (sessionPath cfg id) ≠ resolve (sessionPath cfg id')

/-- Every cached content was cached before, or is that of the file. -/
def CachesFiles (resolve : Bytes → κ) (s : FileStore κ) (c : FileCache) : Prop :=
  ∀ ⦃path f'⦄, c.fileCache.lookup path = some f' →
    (∃ f, s.cache.fileCache.lookup path = some f ∧ f'.content = f.content) ∨
      ∃ file, s.disk (resolve path) = some file ∧ f'.content = file.content

private theorem cachesFiles_self (resolve : Bytes → κ) (s : FileStore κ) :
    CachesFiles resolve s s.cache :=
  fun _ f hf ↦ .inl ⟨f, hf, rfl⟩

theorem Accounted.tick {s : FileStore κ} (h : Accounted cfg (s.now + 1) s.cache) (io : Io) :
    Accounted cfg (s.tick io).now (s.tick io).cache := by
  refine h.mono ?_
  simp only [FileStore.tick]
  omega

variable (resolve) in
theorem sessionLoad_spec {s : FileStore κ} (io : Io) (h : Accounted cfg s.now s.cache)
    (r : Request) :
    let p := sessionLoad cfg resolve io r s
    Accounted cfg (s.now + 1) p.2.2.cache ∧ p.2.2.disk = s.disk ∧ p.2.2.now = s.now ∧
      CachesFiles resolve s p.2.2.cache ∧ p.2.1.sessionId = r.sessionId := by
  obtain ⟨hkeeps, hdisk, hnow, hcaches, -⟩ :=
    readEntireFileCached_spec resolve io h (sessionPath cfg r.sessionId)
  rw [sessionLoad]
  split
  · exact ⟨h.mono (Nat.le_succ _), rfl, rfl, cachesFiles_self resolve s, rfl⟩
  have hfiles : CachesFiles resolve s
      (readEntireFileCached cfg resolve io (sessionPath cfg r.sessionId) s).2.cache := by
    intro path f' hf'
    refine (hcaches hf').imp_right ?_
    rintro ⟨rfl, hfile⟩
    exact hfile
  simp only
  split
  · exact ⟨hkeeps, hdisk, hnow, hfiles, rfl⟩
  · split <;> exact ⟨hkeeps, hdisk, hnow, hfiles, rfl⟩

variable (cfg resolve) in
/-- `session_start` loads the session of the id it has chosen. -/
theorem sessionStart_eq (io : Io) (random : Bytes) (r : Request) (s : FileStore κ) :
    ∃ r', r'.sessionId = (sessionGetId true random r).1 ∧
      sessionStart cfg resolve io random r s =
        let p := sessionLoad cfg resolve io r' s
        (p.1, if p.1 then p.2.1 else { p.2.1 with session := .null }, p.2.2) := by
  have hid : (sessionGetId true random r).2.sessionId = (sessionGetId true random r).1 := by
    rw [sessionGetId]
    split <;> rfl
  refine ⟨_, ?_, rfl⟩
  split <;> exact hid

private theorem toFileStore_record (id : Bytes) (loaded : Bool) (w : World κ) :
    (w.record id loaded).toFileStore = w.toFileStore := by
  rw [World.record]
  split <;> rfl

theorem accounted_initial (disk : κ → Option StoredFile) :
    Accounted cfg ((initial disk).now + 1) (initial disk).cache := by
  have hnone : ∀ {k f}, (initial disk).cache.fileCache.lookup k = some f → False := by
    intro k f hf
    rw [initial, AList.lookup_empty] at hf
    cases hf
  exact ⟨⟨rfl, Nat.two_pow_pos 64⟩, Nat.zero_le _, fun hf ↦ (hnone hf).elim,
    fun hf ↦ (hnone hf).elim⟩

variable [DecidableEq κ]

variable (resolve) in
theorem sessionSave_spec {s : FileStore κ} (io : Io) (h : Accounted cfg s.now s.cache)
    (r : Request) :
    let p := sessionSave cfg resolve io r s
    Accounted cfg (s.now + 1) p.2.cache ∧ p.2.now = s.now ∧
      (∀ k ≠ resolve (sessionPath cfg r.sessionId), p.2.disk k = s.disk k) ∧
      (∀ path f, path ≠ sessionPath cfg r.sessionId → p.2.cache.fileCache.lookup path = some f →
        s.cache.fileCache.lookup path = some f) ∧
      (p.1 = true → r.sessionId ≠ [] ∧ ∃ content, toJson r.session false 0 = some content ∧
        (∃ mtime, p.2.disk (resolve (sessionPath cfg r.sessionId)) = some ⟨content, mtime⟩) ∧
        ∀ f, p.2.cache.fileCache.lookup (sessionPath cfg r.sessionId) = some f →
          f.content = content) := by
  have hunchanged : Accounted cfg (s.now + 1) s.cache := h.mono (Nat.le_succ _)
  rw [sessionSave]
  split
  · exact ⟨hunchanged, rfl, fun k _ ↦ rfl, fun path f _ hf ↦ hf, fun hf ↦ (nomatch hf)⟩
  next hid =>
  split
  · exact ⟨hunchanged, rfl, fun k _ ↦ rfl, fun path f _ hf ↦ hf, fun hf ↦ (nomatch hf)⟩
  next content hcontent =>
  obtain ⟨hkeeps, hnow, hdisk, hother, hdone⟩ := writeEntireFile_spec resolve io h
    (sessionPath cfg r.sessionId) content
  refine ⟨hkeeps, hnow, hdisk, hother, fun htrue ↦ ⟨?_, content, hcontent, hdone htrue⟩⟩
  rwa [List.isEmpty_iff] at hid

variable (resolve) in
theorem unlink_spec (io : Io) (filename : Bytes) (s : FileStore κ) :
    (∀ k ≠ resolve filename, (s.unlink resolve io filename).2.disk k = s.disk k) ∧
      (s.unlink resolve io filename).2.cache = s.cache ∧
      (s.unlink resolve io filename).2.now = s.now ∧
      ((s.unlink resolve io filename).1 = true →
        (s.unlink resolve io filename).2.disk (resolve filename) = none) := by
  rw [FileStore.unlink]
  split
  · exact ⟨fun k hk ↦ Function.update_of_ne hk _ _, rfl, rfl, fun _ ↦ Function.update_self _ _ _⟩
  · exact ⟨fun k _ ↦ rfl, rfl, rfl, fun hf ↦ (nomatch hf)⟩

/-- What one operation leaves alone. -/
structure Touches (cfg : GlobalConfig) (resolve : Bytes → κ) (op : Op) (s s' : FileStore κ) :
    Prop where
  accounted : Accounted cfg (s'.now + 1) s'.cache
  disk : ∀ k, (∀ id ∈ op.changes, k ≠ resolve (sessionPath cfg id)) → s'.disk k = s.disk k
  cache : ∀ path f', (∀ id ∈ op.changes, path ≠ sessionPath cfg id) →
    s'.cache.fileCache.lookup path = some f' →
      (∃ f, s.cache.fileCache.lookup path = some f ∧ f'.content = f.content) ∨
        ∃ file, s.disk (resolve path) = some file ∧ f'.content = file.content

variable (resolve) in
/-- **One operation.** -/
theorem touches_step {w : World κ} (h : Accounted cfg (w.now + 1) w.cache) (op : Op) :
    Touches cfg resolve op w.toFileStore (step cfg resolve w op).toFileStore := by
  have hload (io : Io) (r : Request) {op : Op} (hop : op.changes = none) :
      Touches cfg resolve op w.toFileStore (sessionLoad cfg resolve io r (w.tick io)).2.2 := by
    obtain ⟨hkeeps, hdisk, hnow, hcaches, -⟩ :=
      sessionLoad_spec resolve io (Accounted.tick h io) r
    exact ⟨by rw [hnow]; exact hkeeps, fun k _ ↦ congrFun hdisk k, fun path f' _ hf' ↦ hcaches hf'⟩
  cases op with
  | save io r =>
    obtain ⟨hkeeps, hnow, hdisk, hother, -⟩ :=
      sessionSave_spec resolve io (Accounted.tick h io) r
    refine ⟨?_, fun k hk ↦ hdisk k (hk _ rfl), fun path f' hpath hf' ↦ ?_⟩
    · rw [step, hnow]
      exact hkeeps
    · exact .inl ⟨f', hother path f' (hpath _ rfl) hf', rfl⟩
  | load io r =>
    rw [step, toFileStore_record]
    exact hload io r rfl
  | start io random r =>
    obtain ⟨r', -, hstart⟩ := sessionStart_eq cfg resolve io random r (w.tick io)
    rw [step, toFileStore_record, hstart]
    exact hload io r' rfl
  | clear io r =>
    have hunchanged : Touches cfg resolve (.clear io r) w.toFileStore (w.tick io) :=
      ⟨(Accounted.tick h io).mono (Nat.le_succ _), fun k _ ↦ rfl,
        fun path f' _ hf' ↦ .inl ⟨f', hf', rfl⟩⟩
    obtain ⟨hdisk, hcache, hnow, -⟩ :=
      unlink_spec resolve io (sessionPath cfg r.sessionId) (w.tick io)
    rw [step, sessionClear]
    simp only
    split
    · exact hunchanged
    · refine ⟨?_, fun k hk ↦ (hdisk k (hk _ rfl)).trans (hunchanged.disk k hk),
        fun path f' _ hf' ↦ ?_⟩
      · rw [hcache, hnow]
        exact hunchanged.accounted
      · rw [hcache] at hf'
        exact .inl ⟨f', hf', rfl⟩

/-- **Every run keeps the accounts.** -/
theorem accounted_run (disk : κ → Option StoredFile) (ops : List Op) :
    Accounted cfg ((ops.foldl (step cfg resolve) (initial disk)).now + 1)
      (ops.foldl (step cfg resolve) (initial disk)).cache :=
  List.foldlRecOn (motive := fun w : World κ ↦ Accounted cfg (w.now + 1) w.cache) ops _
    (accounted_initial disk) fun _ hw op _ ↦ (touches_step resolve hw op).accounted

end Wasapi.Session
