import Wasapi.Library.Transitions
import Wasapi.Session.Files

/-!
# What has been cleared is gone

`session_clear` unlinks the file of a session and leaves its entry in the cache, where
`session_load` looks first. So a cleared session comes back while the entry is fresh, and not any
more once a second has passed since the file was last looked at.
-/

namespace Wasapi.Session

open FileIo Json

variable {κ : Type*} {cfg : GlobalConfig} {resolve : Bytes → κ}

/-- What is cached for the session was last checked a second ago or earlier. -/
def Stale (cfg : GlobalConfig) (id : Bytes) (s : FileStore κ) : Prop :=
  ∀ f ∈ s.cache.fileCache.lookup (sessionPath cfg id), 10 ^ 9 ≤ s.now - f.lastCheck

instance (id : Bytes) (s : FileStore κ) : Decidable (Stale cfg id s) :=
  inferInstanceAs (Decidable (∀ f ∈ s.cache.fileCache.lookup (sessionPath cfg id),
    10 ^ 9 ≤ s.now - f.lastCheck))

/-- A cleared session is loaded late enough, and no other session shares its file. -/
def ClearsHold (cfg : GlobalConfig) (resolve : Bytes → κ) (w : World κ) : Op → Prop
  | .load io r => r.sessionId ∈ w.cleared → Stale cfg r.sessionId (w.tick io)
  | .start io random r =>
    (sessionGetId true random r).1 ∈ w.cleared →
      Stale cfg (sessionGetId true random r).1 (w.tick io)
  | .save _ r =>
    ∀ id ∈ w.cleared, id ≠ r.sessionId →
      resolve (sessionPath cfg id) ≠ resolve (sessionPath cfg r.sessionId)
  | .clear _ _ => True

instance [DecidableEq κ] (w : World κ) : ∀ op, Decidable (ClearsHold cfg resolve w op)
  | .load _ _ => inferInstanceAs (Decidable (_ → _))
  | .start _ _ _ => inferInstanceAs (Decidable (_ → _))
  | .save _ r =>
    inferInstanceAs (Decidable (∀ id ∈ w.cleared, id ≠ r.sessionId →
      resolve (sessionPath cfg id) ≠ resolve (sessionPath cfg r.sessionId)))
  | .clear _ _ => inferInstanceAs (Decidable True)

/-- No cleared session has been loaded. -/
def Gone (w : World κ) : Prop := w.revived = []

/-- The cleared sessions have no files. -/
structure Unlinked (cfg : GlobalConfig) (resolve : Bytes → κ) (w : World κ) : Prop where
  accounted : Accounted cfg (w.now + 1) w.cache
  disk : ∀ id ∈ w.cleared, w.disk (resolve (sessionPath cfg id)) = none
  gone : Gone w

/-! ## Loading a session without a file

The read asks the cache first. An entry that was checked within the last second is returned without
a look at the disk; an older one leads to `stat`, which finds no file. -/

private theorem readEntireFileCached_of_stale {s : FileStore κ} (h : Accounted cfg s.now s.cache)
    {id : Bytes}
    (hstale : Stale cfg id s) (hdisk : s.disk (resolve (sessionPath cfg id)) = none) (io : Io) :
    (readEntireFileCached cfg resolve io (sessionPath cfg id) s).1 = [] := by
  rw [readEntireFileCached]
  split
  · next content c hfresh =>
    obtain ⟨-, -, hentry⟩ := checkFresh_spec h (sessionPath cfg id)
    rw [hfresh] at hentry
    obtain ⟨f, hf, -, hlt⟩ := hentry content rfl
    exact absurd hlt (Nat.not_lt.mpr (hstale f hf))
  · rw [hdisk, ite_self]

private theorem sessionLoad_of_stale {s : FileStore κ} (h : Accounted cfg s.now s.cache)
    {r : Request} (hstale : Stale cfg r.sessionId s)
    (hdisk : s.disk (resolve (sessionPath cfg r.sessionId)) = none) (io : Io) :
    (sessionLoad cfg resolve io r s).1 = false := by
  rw [sessionLoad]
  split
  · rfl
  · simp only [readEntireFileCached_of_stale h hstale hdisk io, List.isEmpty_nil, if_true]

private theorem record_of_not {w : World κ} {id : Bytes} {loaded : Bool}
    (h : id ∈ w.cleared → loaded = false) : w.record id loaded = w := by
  rw [World.record, if_neg]
  intro hrevived
  rw [Bool.and_eq_true, decide_eq_true_eq] at hrevived
  rw [h hrevived.2] at hrevived
  cases hrevived.1

/-- A load of a session that is not cleared, or late enough. -/
private theorem unlinked_record {w : World κ} (h : Unlinked cfg resolve w) {io : Io} {r : Request}
    (hlate : r.sessionId ∈ w.cleared → Stale cfg r.sessionId (w.tick io)) :
    Unlinked cfg resolve
      ({ w with toFileStore := (sessionLoad cfg resolve io r (w.tick io)).2.2 }.record r.sessionId
        (sessionLoad cfg resolve io r (w.tick io)).1) := by
  have htick := Accounted.tick h.accounted io
  obtain ⟨hkeeps, hdisk, hnow, -, -⟩ := sessionLoad_spec resolve io htick r
  rw [record_of_not]
  · refine ⟨?_, fun id hid ↦ ?_, h.gone⟩
    · simp only
      rw [hnow]
      exact hkeeps
    · exact (congrFun hdisk _).trans (h.disk id hid)
  · exact fun hid ↦ sessionLoad_of_stale htick (hlate hid) (h.disk _ hid) io

/-! ## Runs

The condition looks at the loads of cleared sessions and at nothing else: when each of them comes,
and that no other session has the file of the cleared one. -/

variable [DecidableEq κ]

/-- Clearing makes no file, and the file it has unlinked is gone. -/
theorem disk_sessionClear (cfg : GlobalConfig) (resolve : Bytes → κ) (io : Io) (r : Request)
    (s : FileStore κ) :
    (∀ k, s.disk k = none → (sessionClear cfg resolve io r s).2.2.disk k = none) ∧
      ((sessionClear cfg resolve io r s).1 = true →
        (sessionClear cfg resolve io r s).2.2.disk (resolve (sessionPath cfg r.sessionId))
          = none) := by
  rw [sessionClear]
  simp only
  split
  · exact ⟨fun k hk ↦ hk, fun hf ↦ absurd hf Bool.false_ne_true⟩
  obtain ⟨hother, -, -, hunlinked⟩ := unlink_spec resolve io (sessionPath cfg r.sessionId) s
  refine ⟨fun k hk ↦ ?_, hunlinked⟩
  by_cases hpath : k = resolve (sessionPath cfg r.sessionId)
  · rw [FileStore.unlink, ← hpath, hk]
    split
    · exact Function.update_self k none s.disk
    · exact hk
  · exact (hother k hpath).trans hk

theorem Unlinked.step {w : World κ} (h : Unlinked cfg resolve w) {op : Op}
    (hop : ClearsHold cfg resolve w op) : Unlinked cfg resolve (Session.step cfg resolve w op) := by
  have haccounted := (touches_step resolve h.accounted op).accounted
  cases op with
  | load io r => exact unlinked_record h hop
  | start io random r =>
    obtain ⟨r', hr', hstart⟩ := sessionStart_eq cfg resolve io random r (w.tick io)
    rw [Session.step, hstart]
    rw [ClearsHold, ← hr'] at hop
    rw [← hr']
    exact unlinked_record h hop
  | save io r =>
    obtain ⟨-, -, hdisk, -, -⟩ := sessionSave_spec resolve io (Accounted.tick h.accounted io) r
    refine ⟨haccounted, fun id hid ↦ ?_, h.gone⟩
    obtain ⟨hid, hne⟩ := List.mem_filter.mp hid
    exact (hdisk _ (hop id hid (of_decide_eq_true hne))).trans (h.disk id hid)
  | clear io r =>
    refine ⟨haccounted, fun id hid ↦ ?_, h.gone⟩
    obtain ⟨hkept, hunlinked⟩ := disk_sessionClear cfg resolve io r (w.tick io)
    rw [Session.step] at hid
    simp only at hid
    split at hid
    · next htrue =>
      obtain rfl | hid := List.mem_cons.mp hid
      · exact hunlinked htrue
      · exact hkept _ (h.disk id hid)
    · exact hkept _ (h.disk id hid)

/-- **A cleared session is gone**, in every run that loads it late enough. -/
theorem gone_of_clearsHold (disk : κ → Option StoredFile) {ops : List Op}
    (h : Meets (step cfg resolve) (ClearsHold cfg resolve) (initial disk) ops) :
    Always (step cfg resolve) Gone (initial disk) ops := by
  have hinitial : Unlinked cfg resolve (initial disk) :=
    ⟨accounted_initial disk, fun id hid ↦ (nomatch hid), rfl⟩
  exact (h.always (fun w op hw hop ↦ hw.step hop) hinitial).mono fun w hw ↦ hw.gone

def ada : Request where
  sessionId := ascii "a1"
  session := .object [(ascii "user", .string (ascii "ada"))]

/-- A session is cleared, and loaded `elapsed` nanoseconds later. -/
def logsOut (elapsed : ℕ) : List Op :=
  [.save {} ada, .clear {} ada, .save {} { ada with sessionId := ascii "b2" },
    .load { elapsed := elapsed } ada]

theorem gone_of_clearsHold_logsOut :
    Always (step {} id) Gone (initial fun _ ↦ none) (logsOut (10 ^ 9)) :=
  gone_of_clearsHold (fun _ ↦ none) (by decide +kernel)

/-- The user logs out and the session can still be read. -/
theorem not_gone_logsOut :
    ¬Always (step {} id) Gone (initial fun _ ↦ none) (logsOut 1000) := by
  intro h
  have hlast : ((logsOut 1000).foldl (step {} id) (initial fun _ ↦ none)).revived = [] := h.last
  revert hlast
  decide +kernel

end Wasapi.Session
