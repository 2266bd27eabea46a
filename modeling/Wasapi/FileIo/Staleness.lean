import Wasapi.FileIo.Overwriting
import Wasapi.FileIo.SharedAccounting

/-!
# How stale a cached file can be

A read that starts more than a second after the last change of a file should return its content.
What speaks for it: an entry that has been checked within a second before the start has been checked
after the change, and any other entry is compared with the file first, by its modification time.

That need not be enough. A modification time has whole seconds, so two changes within one cannot be
told apart; a write stores what it has written, with the time of day, although somebody else may
have written since; and a read may store what the file no longer holds. `Orderly` says of an event
that it does none of this: it touches no file that somebody else is writing or loading into the
cache, and it leaves a modification time that no entry has, unless the write goes on to replace that
entry.

In a run of such events every entry is up to date as of its last check, and an entry that has the
modification time of its file has its content too, except while it is about to be replaced.
-/

namespace Wasapi.FileIo

section

variable {ι κ : Type*} (cfg : GlobalConfig) (resolve : Bytes → κ)

/-! ## What is known about a file

What a thread has found out about a file may be wrong only because the file has been changed since.
So it is stated with a moment: it is so, unless there has been a change at that moment or later. -/

/-- The file there is satisfies `P`, unless the file has been changed at `since` or later. -/
def Known (s : World ι κ) (k : κ) (since : ℕ) (P : StoredFile → Prop) : Prop :=
  (∃ T ∈ s.changedAt k, since ≤ T) ∨ ∀ file ∈ s.disk k, P file

/-- The file has this content, unless it has been changed at `since` or later. -/
def UpToDate (s : World ι κ) (k : κ) (since : ℕ) (content : Bytes) : Prop :=
  Known s k since fun file ↦ content = file.content

/-- **Bounded staleness.** What a read returns is the content of the file, if the read has started
more than a second after the last change of the file. -/
def BoundedStaleness (s : World ι κ) : Prop :=
  ∀ t filename now content, s.call t = .read filename now content true →
    ∀ file, s.disk (resolve filename) = some file →
      (∀ T ∈ s.changedAt (resolve filename), T + 10 ^ 9 < now) → content = file.content

/-! ## Orderly events

The condition looks at an event and at the state before it: which threads are in the middle of the
file, which modification times the entries have, how long the file is. Whether any content is the
right one is not asked. -/

/-- The file that the thread is writing or loading: it has truncated it, or has read the first part,
and has not stored the content in the cache. -/
def Call.unfinished : Call → Option κ
  | .truncated filename _ _ | .written filename _ | .loaded filename _ _ _
  | .opened filename _ _ _ (_ :: _) => some (resolve filename)
  | _ => none

/-- The name under which the thread is going to store what it writes. -/
def Call.storing : Call → Option Bytes
  | .truncated filename _ _ | .written filename _ => some filename
  | _ => none

/-- The modification time of the file that the event touches. -/
def stamp : Event ι κ → Option ℤ
  | .change _ file => file.map StoredFile.mtime
  | .step _ io => some io.mtime
  | _ => none

/-- The name under which the event's thread is going to store what it writes. -/
def goesOn (s : World ι κ) : Event ι κ → Option Bytes
  | .step t io =>
    match s.call t with
    | .writing filename _ => some filename
    | .truncated filename _ _ => if io.written.isSome && io.noticed then none else some filename
    | _ => none
  | _ => none

/-- What the event does to a file can be told from the modification time: no entry has it already,
but for the one that is going to be replaced. -/
def Dated (s : World ι κ) (e : Event ι κ) : Prop :=
  ∀ k ∈ touched resolve s e, ∀ mtime ∈ stamp e, ∀ entry ∈ s.cache.fileCache.entries,
    resolve entry.1 = k → entry.2.mtime = mtime → goesOn s e = some entry.1

/-- The condition on a step of the call. An entry is not taken for unchanged while it is about to be
replaced, unless the file has been changed since the read started; a file has not grown between
`stat` and the first `read`; what is stored fits into the cache; and an error of a write does not
remain unnoticed, unless all has been written or nothing will be stored. -/
def Call.Orderly (s : World ι κ) (io : StepIo) : Call → Prop
  | .found filename now newMtime _ =>
    ∀ f ∈ s.cache.fileCache.lookup filename, f.mtime = newMtime →
      (∃ T ∈ s.changedAt (resolve filename), now ≤ T) ∨ ∀ t, (s.call t).storing ≠ some filename
  | .outdated filename _ _ fileSize =>
    fileSize = 0 → (s.contentOf (resolve filename)).length ≤ fileSize
  | .opened filename _ _ fileSize content =>
    content = [] → (s.contentOf (resolve filename)).length ≤ fileSize
  | .loaded filename _ newMtime content =>
    Fits cfg (insertEntry filename content newMtime s.now s.cache)
      { content := content, mtime := newMtime, lastCheck := s.now, size := content.length }
  | .truncated _ content count =>
    ∀ n ∈ io.written, io.noticed = true ∨ cfg.fileCacheMaxSize < content.length ∨
      content.length ≤ count + n
  | _ => True

/-- The condition on the step an event takes. -/
def StepOrderly (s : World ι κ) : Event ι κ → Prop
  | .step t io => (s.call t).Orderly cfg resolve s io
  | _ => True

/-- The condition on an event. -/
structure Orderly (s : World ι κ) (e : Event ι κ) : Prop where
  undisturbed : Undisturbed resolve (Call.unfinished resolve) s e
  dated : Dated resolve s e
  step : StepOrderly cfg resolve s e

end

variable {ι κ : Type*} {cfg : GlobalConfig} {resolve : Bytes → κ} {s s' : World ι κ}

section Decidable

variable [DecidableEq κ]

instance {e : Event ι κ} : Decidable (Dated resolve s e) := by
  unfold Dated
  infer_instance

variable [DecidableEq ι] [Fintype ι]

instance {c : FileCache} {f : CachedFile} : Decidable (Fits cfg c f) :=
  inferInstanceAs (Decidable (_ ≤ _))

instance {io : StepIo} : ∀ call : Call, Decidable (call.Orderly cfg resolve s io)
  | .found .. => inferInstanceAs (Decidable (∀ f ∈ _, _ → _ ∨ _))
  | .outdated .. | .opened .. => inferInstanceAs (Decidable (_ → _))
  | .loaded .. => inferInstanceAs (Decidable (Fits ..))
  | .truncated .. => inferInstanceAs (Decidable (∀ n ∈ _, _ ∨ _ ∨ _))
  | .idle | .reading _ | .counted .. | .started .. | .missed .. | .read .. | .writing ..
  | .written .. | .wrote _ => .isTrue trivial

instance : ∀ e : Event ι κ, Decidable (StepOrderly cfg resolve s e)
  | .step t io => inferInstanceAs (Decidable ((s.call t).Orderly cfg resolve s io))
  | .elapse _ | .change .. | .read .. | .write .. => .isTrue trivial

instance {e : Event ι κ} : Decidable (Orderly cfg resolve s e) :=
  decidable_of_iff (Undisturbed resolve (Call.unfinished resolve) s e ∧ Dated resolve s e ∧
    StepOrderly cfg resolve s e) ⟨fun h ↦ ⟨h.1, h.2.1, h.2.2⟩, fun h ↦ ⟨h.1, h.2, h.3⟩⟩

end Decidable

/-- A file a thread is in the middle of is one it has not finished. -/
theorem unfinished_of_midway {call : Call} {k : κ} (h : call.midway resolve = some k) :
    call.unfinished resolve = some k := by
  cases call with
  | truncated filename content => exact h
  | opened filename now newMtime fileSize content =>
    cases content with
    | nil => cases h
    | cons b content => exact h
  | _ => cases h

theorem Undisturbed.midway {e : Event ι κ}
    (h : Undisturbed resolve (Call.unfinished resolve) s e) :
    Undisturbed resolve (Call.midway resolve) s e :=
  fun t k hk ↦ h t k (unfinished_of_midway hk)

theorem Known.mono {k : κ} {since since' : ℕ} {P : StoredFile → Prop} (h : Known s k since P)
    (hle : since' ≤ since) : Known s k since' P := by
  rcases h with ⟨T, hT, hsince⟩ | h
  · exact .inl ⟨T, hT, hle.trans hsince⟩
  · exact .inr h

theorem Known.imp {k : κ} {since : ℕ} {P Q : StoredFile → Prop} (h : Known s k since P)
    (himp : ∀ file ∈ s.disk k, P file → Q file) : Known s k since Q :=
  h.imp_right fun h file hfile ↦ himp file hfile (h file hfile)

/-- A later state: a file is as it was, or has been changed meanwhile. -/
structure Later (s s' : World ι κ) : Prop where
  now_le : s.now ≤ s'.now
  file : ∀ k, (s'.disk k = s.disk k ∧ s'.changedAt k = s.changedAt k) ∨
    ∃ T ∈ s'.changedAt k, s.now ≤ T

theorem Later.refl (s : World ι κ) : Later s s := ⟨le_rfl, fun _ ↦ .inl ⟨rfl, rfl⟩⟩

private theorem later_elapse (n : ℕ) (s : World ι κ) : Later s (s.elapse n) :=
  ⟨Nat.le_add_right _ _, fun _ ↦ .inl ⟨rfl, rfl⟩⟩

private theorem later_putFile [DecidableEq κ] (k : κ) (file : Option StoredFile) (s : World ι κ) :
    Later s (s.putFile k file) := by
  refine ⟨le_rfl, fun k' ↦ ?_⟩
  by_cases hk : k' = k
  · rw [hk]
    exact .inr ⟨s.now, Function.update_self _ _ _, le_rfl⟩
  · exact .inl ⟨Function.update_of_ne hk _ _, Function.update_of_ne hk _ _⟩

/-- What was known stays known. -/
theorem Known.later {k : κ} {since : ℕ} {P : StoredFile → Prop} (h : Known s k since P)
    (hlater : Later s s') (hle : since ≤ s.now) : Known s' k since P := by
  rcases hlater.file k with ⟨hdisk, hchanged⟩ | ⟨T, hT, hnow⟩
  · rw [Known, hdisk, hchanged]
    exact h
  · exact .inl ⟨T, hT, hle.trans hnow⟩

/-! ## The invariant

An entry carries two promises, one for each way it can be used. It was up to date when it was last
checked; and as long as its modification time is that of the file, so is its content. -/

variable (resolve) in
/-- An entry is up to date as of its last check. -/
def EntriesUpToDate (s : World ι κ) (c : FileCache) : Prop :=
  ∀ ⦃filename f⦄, c.fileCache.lookup filename = some f →
    f.lastCheck ≤ s.now ∧ UpToDate s (resolve filename) f.lastCheck f.content

/-- The entry has the content of its file if it has the modification time, unless it is about to be
replaced. -/
def Stamped (s : World ι κ) (k : κ) (filename : Bytes) (f : CachedFile) : Prop :=
  (∃ t, (s.call t).storing = some filename) ∨
    ∀ file ∈ s.disk k, f.mtime = file.mtime → f.content = file.content

variable (cfg resolve) in
/-- What a read knows of its file was so at its start, or has become so since. What it returns may
be a second older. What is to be stored is in the file. -/
def Call.Informed (s : World ι κ) : Call → Prop
  | .started _ _ now | .missed _ now | .outdated _ now _ _ => now ≤ s.now
  | .found filename now newMtime _ =>
    now ≤ s.now ∧ Known s (resolve filename) now fun file ↦ file.mtime = newMtime
  | .opened filename now _ fileSize content =>
    now ≤ s.now ∧ (content ≠ [] → (s.contentOf (resolve filename)).length ≤ fileSize)
  | .loaded filename now _ content => now ≤ s.now ∧ s.contentOf (resolve filename) = content
  | .read filename now content ok =>
    now ≤ s.now ∧ (ok = true → UpToDate s (resolve filename) (now - 10 ^ 9) content)
  | .written filename content =>
    content.length ≤ cfg.fileCacheMaxSize → s.contentOf (resolve filename) = content
  | _ => True

variable (cfg resolve) in
/-- The invariant, besides the accounts. -/
structure Informed (s : World ι κ) : Prop where
  entries : EntriesUpToDate resolve s s.cache
  stamped {filename f} : s.cache.fileCache.lookup filename = some f →
    Stamped s (resolve filename) filename f
  inHand : ∀ t, (s.call t).InHand resolve s
  calls : ∀ t, (s.call t).Informed cfg resolve s

private theorem Informed.boundedStaleness (h : Informed cfg resolve s) :
    BoundedStaleness resolve s := by
  intro t filename now content hcall file hfile hchanged
  have hinformed := h.calls t
  rw [hcall] at hinformed
  rcases hinformed.2 rfl with ⟨T, hT, hsince⟩ | hcontent
  · have hlt := hchanged T hT
    omega
  · exact hcontent file hfile

private theorem content_of_contentOf {k : κ} {content : Bytes} (h : s.contentOf k = content) :
    ∀ file ∈ s.disk k, content = file.content := by
  intro file hfile
  rw [World.contentOf, Option.mem_def.mp hfile] at h
  exact h.symm

theorem EntriesUpToDate.of_keptFrom {c c' : FileCache} (h : EntriesUpToDate resolve s c)
    (hkept : KeptFrom c c') : EntriesUpToDate resolve s c' := fun _ _ hf ↦ h (hkept hf)

theorem EntriesUpToDate.later {c : FileCache} (h : EntriesUpToDate resolve s c)
    (hlater : Later s s') : EntriesUpToDate resolve s' c := by
  intro filename f hf
  obtain ⟨hle, hknown⟩ := h hf
  exact ⟨hle.trans hlater.now_le, hknown.later hlater hle⟩

/-- What a thread knows stays so, if nobody touches the file it is writing or loading. -/
theorem Call.Informed.later {call : Call} (h : call.Informed cfg resolve s) (hlater : Later s s')
    (hdisk : ∀ k ∈ call.unfinished resolve, s'.disk k = s.disk k) :
    call.Informed cfg resolve s' := by
  cases call with
  | started filename currentCall now => exact le_trans h hlater.now_le
  | missed filename now => exact le_trans h hlater.now_le
  | outdated filename now newMtime fileSize => exact le_trans h hlater.now_le
  | found filename now newMtime fileSize =>
    exact ⟨h.1.trans hlater.now_le, h.2.later hlater h.1⟩
  | opened filename now newMtime fileSize content =>
    refine ⟨h.1.trans hlater.now_le, fun hne ↦ ?_⟩
    obtain ⟨b, content, rfl⟩ := List.exists_cons_of_ne_nil hne
    rw [contentOf_congr (hdisk _ rfl)]
    exact h.2 hne
  | loaded filename now newMtime content =>
    exact ⟨h.1.trans hlater.now_le, (contentOf_congr (hdisk _ rfl)).trans h.2⟩
  | read filename now content ok =>
    exact ⟨h.1.trans hlater.now_le, fun hok ↦
      (h.2 hok).later hlater ((Nat.sub_le _ _).trans h.1)⟩
  | written filename content => exact fun hle ↦ (contentOf_congr (hdisk _ rfl)).trans (h hle)
  | _ => trivial

/-! ## Locked sections

Entries come out of a section as they went in, checked, replaced, or not at all. `Origin` lists
where an entry behind a section comes from, with what is then known of its content. -/

/-- What the first section returns has been checked within a second. -/
theorem EntriesUpToDate.findFresh (hb : Balanced cfg s) (h : EntriesUpToDate resolve s s.cache)
    (filename : Bytes) (currentCall now maintained : ℕ) :
    ∀ content ∈ (findFresh cfg filename currentCall now maintained s.cache).1,
      UpToDate s (resolve filename) (now - 10 ^ 9) content := by
  have hentries := h.of_keptFrom (hb.within.maybeMaintain currentCall maintained).2
  intro content hcontent
  rw [FileIo.findFresh] at hcontent
  split at hcontent
  · cases hcontent
  · next f hf =>
    rw [Option.mem_def, Option.ite_none_right_eq_some] at hcontent
    obtain ⟨hage, heq⟩ := hcontent
    obtain rfl := Option.some.inj heq
    -- the age is rounded down, so the check is less than a second old
    exact (hentries hf).2.mono (by omega)

/-- An entry that has the modification time `stat` has found has the content too. -/
theorem Informed.upToDate_of_found (h : Informed cfg resolve s) {t : ι} {filename : Bytes}
    {now : ℕ} {newMtime : ℤ} {fileSize : ℕ} {f : CachedFile}
    (hcall : s.call t = .found filename now newMtime fileSize)
    (horderly : ∀ f ∈ s.cache.fileCache.lookup filename, f.mtime = newMtime →
      (∃ T ∈ s.changedAt (resolve filename), now ≤ T) ∨ ∀ t, (s.call t).storing ≠ some filename)
    (hf : s.cache.fileCache.lookup filename = some f) (hmtime : f.mtime = newMtime) :
    UpToDate s (resolve filename) now f.content := by
  have hinformed := h.calls t
  rw [hcall] at hinformed
  rcases horderly f hf hmtime with hchanged | hidle
  · exact .inl hchanged
  · refine hinformed.2.imp fun file hfile hnewMtime ↦ ?_
    rcases h.stamped hf with ⟨t', hstoring⟩ | hstamped
    · exact absurd hstoring (hidle t')
    · exact hstamped file hfile (hmtime.trans hnewMtime.symm)

/-- Where an entry comes from that is there behind a step of the call: it was there, and is not the
one that a write replaces; it was found unchanged; or its content has been stored. -/
inductive Origin (s : World ι κ) (k : κ) (filename : Bytes) (f' : CachedFile) : Call → Prop
  | kept {call : Call} (hf : s.cache.fileCache.lookup filename = some f')
    (hcall : ∀ content, call ≠ .written filename content) : Origin s k filename f' call
  | found {now fileSize : ℕ} {f : CachedFile} (hf : s.cache.fileCache.lookup filename = some f)
    (heq : f' = { f with lastCheck := now }) :
    Origin s k filename f' (.found filename now f.mtime fileSize)
  | loaded {now : ℕ} {newMtime : ℤ} {content : Bytes} (hcontent : s.contentOf k = f'.content)
    (hcheck : f'.lastCheck = s.now) :
    Origin s k filename f' (.loaded filename now newMtime content)
  | written {content : Bytes} (hcontent : s.contentOf k = f'.content)
    (hcheck : f'.lastCheck = s.now) : Origin s k filename f' (.written filename content)

variable [DecidableEq ι] [DecidableEq κ]

private theorem origin_step (hb : Balanced cfg s) (h : Informed cfg resolve s) {t : ι} {io : StepIo}
    (horderly : (s.call t).Orderly cfg resolve s io) {filename : Bytes} {f' : CachedFile}
    (hf' : (s.step cfg resolve t io).cache.fileCache.lookup filename = some f') :
    Origin s (resolve filename) filename f' (s.call t) := by
  have hbounded := hb.bounded t
  have hinformed := h.calls t
  rw [World.step] at hf'
  cases hcall : s.call t with
  | started filename' currentCall now =>
    rw [hcall] at hf'
    simp only [World.cache_setCall, World.cache_setCache, snd_findFresh] at hf'
    exact .kept ((hb.within.maybeMaintain currentCall s.now).2 hf') fun _ ↦ by simp
  | found filename' now newMtime fileSize =>
    rw [hcall] at hf'
    simp only [World.cache_setCall, World.cache_setCache] at hf'
    cases hf : s.cache.fileCache.lookup filename' with
    | none =>
      rw [checkUnchanged, hf] at hf'
      exact .kept hf' fun _ ↦ by simp
    | some f =>
      rw [checkUnchanged_of_lookup hf] at hf'
      split at hf'
      · next hmtime =>
        rw [lookup_touchEntry] at hf'
        split at hf'
        · next hk =>
          subst hk hmtime
          exact .found hf (Option.some.inj hf').symm
        · exact .kept hf' fun _ ↦ by simp
      · exact .kept (keptFrom_removeEntry filename' s.cache hf') fun _ ↦ by simp
  | loaded filename' now newMtime content =>
    rw [hcall] at hf' hbounded hinformed horderly
    simp only [World.cache_setCall] at hf'
    -- the entry is not evicted at once, so none is made anew
    have hinserted := lookup_insertEntry filename' content newMtime s.now s.cache filename'
    rw [if_pos rfl] at hinserted
    have hfound := (evictSize_spec cfg (hb.within.summed_insertEntry filename' newMtime s.now
      hbounded)).2.2.2 _ _ hinserted horderly
    have hcache : ((s.setCache (storeRead cfg filename' content newMtime s.now
        (s.now + io.elapsed) s.cache).2).elapse io.elapsed).cache
          = evictSize cfg (insertEntry filename' content newMtime s.now s.cache) := by
      rw [World.elapse, World.cache_setCache, storeRead, indexCache, hfound]
    rw [hcache] at hf'
    have hkept := (hb.within.storeEntry filename' newMtime s.now hbounded).2 hf'
    rw [lookup_insertEntry] at hkept
    split at hkept
    · next hk =>
      subst hk
      obtain rfl := Option.some.inj hkept
      exact .loaded hinformed.2 rfl
    · exact .kept hkept fun _ ↦ by simp
  | written filename' content =>
    rw [hcall] at hf' hinformed
    simp only [World.cache_setCall, World.cache_setCache, storeWritten] at hf'
    split at hf'
    · rw [lookup_removeEntry] at hf'
      split at hf'
      · cases hf'
      · next hk =>
        refine .kept hf' fun _ heq ↦ hk ?_
        rw [Call.written.injEq] at heq
        exact heq.1.symm
    · next hle =>
      have hkept := (hb.within.storeEntry filename' io.time s.now (not_lt.mp hle)).2 hf'
      rw [lookup_insertEntry] at hkept
      split at hkept
      · next hk =>
        subst hk
        obtain rfl := Option.some.inj hkept
        exact .written (hinformed (not_lt.mp hle)) rfl
      · next hk =>
        refine .kept hkept fun _ heq ↦ hk ?_
        rw [Call.written.injEq] at heq
        exact heq.1.symm
  | writing filename' content =>
    rw [hcall] at hf'
    refine .kept ?_ fun _ ↦ by simp
    simp only at hf'
    split at hf'
    · exact hf'
    · exact hf'
  | truncated filename' content count =>
    rw [hcall] at hf'
    simp only [World.cache_setCall, World.cache_putOctets] at hf'
    exact .kept hf' fun _ ↦ by simp
  | _ =>
    rw [hcall] at hf'
    exact .kept hf' fun _ ↦ by simp

/-! ## What an event does to the files

An event touches a file without looking at the cache, or it works on the cache and leaves the files
alone. Only in the first case do the promises of the entries need the condition. -/

private theorem later_act (cfg : GlobalConfig) (resolve : Bytes → κ) (s : World ι κ)
    (e : Event ι κ) : Later s (s.act cfg resolve e) := by
  have hsame {s' : World ι κ} (hnow : s.now ≤ s'.now) (hdisk : s'.disk = s.disk)
      (hchanged : s'.changedAt = s.changedAt) : Later s s' :=
    ⟨hnow, fun k ↦ .inl ⟨congrFun hdisk k, congrFun hchanged k⟩⟩
  have hput (k : κ) (file : Option StoredFile) (t : ι) (call : Call) :
      Later s ((s.putFile k file).setCall t call) :=
    ⟨le_rfl, (later_putFile k file s).file⟩
  cases e with
  | elapse n => exact later_elapse n s
  | change k file => exact later_putFile k file s
  | read t filename =>
    rw [World.act]
    split
    · exact hsame le_rfl rfl rfl
    · exact .refl s
  | write t filename content =>
    rw [World.act]
    split
    · exact hsame le_rfl rfl rfl
    · exact .refl s
  | step t io =>
    rw [World.act, World.step]
    cases s.call t with
    | loaded => exact hsame (Nat.le_add_right _ _) rfl rfl
    | writing =>
      dsimp only
      split
      · exact hput _ _ _ _
      · exact hsame le_rfl rfl rfl
    | truncated filename content count =>
      dsimp only
      obtain ⟨-, heq⟩ | ⟨octets, heq⟩ := s.putOctets_eq (resolve filename) count
        (io.writes (content.drop count)) io.mtime
      · rw [heq]
        exact hsame le_rfl rfl rfl
      · rw [heq]
        exact hput _ _ _ _
    | _ => exact hsame le_rfl rfl rfl

omit [DecidableEq ι] [DecidableEq κ] in
private theorem storing_afterWrite (io : StepIo) (filename content : Bytes) (count : ℕ) :
    (Call.afterWrite io filename content count).storing =
      if io.written.isSome && io.noticed then none else some filename := by
  rw [Call.afterWrite]
  cases io.written with
  | none =>
    dsimp only
    split <;> rfl
  | some n => cases io.noticed <;> rfl

/-- An event that touches a file leaves the cache alone. The file then has the modification time of
the event, and a write that goes on is going to store. -/
theorem touched_act {e : Event ι κ} {k : κ} (h : touched resolve s e = some k) :
    (s.act cfg resolve e).cache = s.cache ∧
      (∀ file ∈ (s.act cfg resolve e).disk k, stamp e = some file.mtime) ∧
      ∀ filename, goesOn s e = some filename →
        ∃ t, ((s.act cfg resolve e).call t).storing = some filename := by
  have hput (file : Option StoredFile) (s' : World ι κ) (hs' : s'.disk = (s.putFile k file).disk) :
      s'.disk k = file := by
    rw [hs']
    exact Function.update_self k file s.disk
  cases e with
  | elapse n => cases h
  | read t filename => cases h
  | write t filename content => cases h
  | change k' file =>
    obtain rfl := Option.some.inj h
    refine ⟨rfl, fun file' hfile' ↦ ?_, fun filename hgoes ↦ (nomatch hgoes)⟩
    have hfile : file = some file' := (hput file _ rfl).symm.trans hfile'
    rw [stamp, hfile]
    rfl
  | step t io =>
    rw [touched] at h
    rw [World.act, World.step, goesOn]
    cases hcall : s.call t with
    | writing filename content =>
      rw [hcall] at h
      simp only [Option.ite_none_right_eq_some, Option.some.injEq] at h
      obtain ⟨hok, rfl⟩ := h
      dsimp only
      rw [if_pos hok]
      refine ⟨rfl, fun file hfile ↦ ?_, fun filename' hgoes ↦ ⟨t, ?_⟩⟩
      · rw [← Option.some.inj ((hput _ _ rfl).symm.trans hfile)]
        rfl
      · rw [World.call_setCall]
        exact hgoes
    | truncated filename content count =>
      rw [hcall] at h
      obtain rfl := Option.some.inj h
      dsimp only
      rw [World.cache_setCall, World.cache_putOctets]
      refine ⟨rfl, fun file hfile ↦ ?_, fun filename' hgoes ↦ ⟨t, ?_⟩⟩
      · obtain ⟨hnone, heq⟩ | ⟨octets, heq⟩ := s.putOctets_eq (resolve filename) count
          (io.writes (content.drop count)) io.mtime
        · rw [heq] at hfile
          cases hnone.symm.trans hfile
        · rw [heq] at hfile
          rw [← Option.some.inj ((hput _ _ rfl).symm.trans hfile)]
          rfl
      · rw [World.call_setCall, storing_afterWrite]
        exact hgoes
    | _ =>
      rw [hcall] at h
      cases h

/-- Who is going to store under a name still is, unless it is the thread whose step it is. -/
theorem storing_act {e : Event ι κ} {t : ι} {filename : Bytes}
    (h : (s.call t).storing = some filename)
    (htouched : touched resolve s e ≠ some (resolve filename))
    (hstep : ∀ io content, e = .step t io → s.call t ≠ .written filename content) :
    ((s.act cfg resolve e).call t).storing = some filename := by
  by_cases ht : e.thread = some t
  · have hbusy : (s.call t).isOver = false := by
      cases hcall : s.call t with
      | truncated => rfl
      | written => rfl
      | _ =>
        rw [hcall] at h
        cases h
    cases e with
    | elapse n => cases ht
    | change k file => cases ht
    | read t' filename' =>
      obtain rfl := Option.some.inj ht
      rw [World.act, hbusy, if_neg Bool.false_ne_true]
      exact h
    | write t' filename' content =>
      obtain rfl := Option.some.inj ht
      rw [World.act, hbusy, if_neg Bool.false_ne_true]
      exact h
    | step t' io =>
      obtain rfl := Option.some.inj ht
      exfalso
      cases hcall : s.call t' with
      | truncated filename' content =>
        rw [hcall] at h
        obtain rfl := Option.some.inj h
        rw [touched, hcall] at htouched
        exact htouched rfl
      | written filename' content =>
        have hstored := hstep io content rfl
        rw [hcall] at h hstored
        obtain rfl := Option.some.inj h
        exact hstored rfl
      | _ =>
        rw [hcall] at h
        cases h
  · rw [call_act_of_ne ht]
    exact h

/-! ## Steps

The invariant is shown part by part: the entries, their modification times, what threads have in
hand, and what they know. Threads other than the one that takes the step keep what they know unless
their file is touched. -/

/-- The entries behind an event that takes no step are those before. -/
theorem origin_act (hb : Balanced cfg s) (h : Informed cfg resolve s) {e : Event ι κ}
    (horderly : StepOrderly cfg resolve s e) {filename : Bytes} {f' : CachedFile}
    (hf' : (s.act cfg resolve e).cache.fileCache.lookup filename = some f') :
    (s.cache.fileCache.lookup filename = some f' ∧
        ∀ t io content, e = .step t io → s.call t ≠ .written filename content) ∨
      ∃ t io, e = .step t io ∧ touched resolve s e = none ∧
        Origin s (resolve filename) filename f' (s.call t) := by
  have hcache {s' : World ι κ} (hs' : s'.cache = s.cache)
      (hf' : s'.cache.fileCache.lookup filename = some f') :
      s.cache.fileCache.lookup filename = some f' := hs' ▸ hf'
  cases e with
  | elapse n => exact .inl ⟨hf', fun _ _ _ he ↦ by cases he⟩
  | change k file => exact .inl ⟨hf', fun _ _ _ he ↦ by cases he⟩
  | read t filename' =>
    refine .inl ⟨?_, fun _ _ _ he ↦ by cases he⟩
    rw [World.act] at hf'
    split at hf'
    · exact hcache rfl hf'
    · exact hf'
  | write t filename' content =>
    refine .inl ⟨?_, fun _ _ _ he ↦ by cases he⟩
    rw [World.act] at hf'
    split at hf'
    · exact hcache rfl hf'
    · exact hf'
  | step t io =>
    cases htouched : touched resolve s (.step t io) with
    | some k =>
      refine .inl ⟨hcache (touched_act htouched).1 hf', fun t' io' content he hcall ↦ ?_⟩
      obtain ⟨rfl, rfl⟩ := Event.step.inj he
      rw [touched, hcall] at htouched
      cases htouched
    | none => exact .inr ⟨t, io, rfl, rfl, origin_step hb h horderly hf'⟩

/-- Behind an event every entry is up to date as of its last check. -/
theorem Informed.entries_act (hb : Balanced cfg s) (h : Informed cfg resolve s) {e : Event ι κ}
    (horderly : StepOrderly cfg resolve s e) :
    EntriesUpToDate resolve (s.act cfg resolve e) (s.act cfg resolve e).cache := by
  intro filename f' hf'
  have hlater := later_act cfg resolve s e
  have hbefore : f'.lastCheck ≤ s.now ∧
      UpToDate s (resolve filename) f'.lastCheck f'.content := by
    obtain ⟨hf, -⟩ | ⟨t, io, rfl, -, horigin⟩ := origin_act hb h horderly hf'
    · exact h.entries hf
    generalize hcall : s.call t = call at horigin
    cases horigin with
    | kept hf _ => exact h.entries hf
    | found hf heq =>
      have hnow := h.calls t
      rw [StepOrderly, hcall] at horderly
      rw [hcall] at hnow
      have hfresh := h.upToDate_of_found hcall horderly hf rfl
      rw [heq]
      exact ⟨hnow.1, hfresh⟩
    | loaded hcontent hcheck =>
      exact ⟨hcheck.le, .inr (content_of_contentOf hcontent)⟩
    | written hcontent hcheck =>
      exact ⟨hcheck.le, .inr (content_of_contentOf hcontent)⟩
  exact ⟨hbefore.1.trans hlater.now_le, hbefore.2.later hlater hbefore.1⟩

/-- Behind an event an entry that has the modification time of its file has the content too, or is
about to be replaced. -/
theorem Informed.stamped_act (hb : Balanced cfg s) (h : Informed cfg resolve s) {e : Event ι κ}
    (hdated : Dated resolve s e) (horderly : StepOrderly cfg resolve s e) {filename : Bytes}
    {f' : CachedFile} (hf' : (s.act cfg resolve e).cache.fileCache.lookup filename = some f') :
    Stamped (s.act cfg resolve e) (resolve filename) filename f' := by
  by_cases htouched : touched resolve s e = some (resolve filename)
  · obtain ⟨hcache, hstamp, hstores⟩ := touched_act htouched
    rw [hcache] at hf'
    by_cases hgoes : goesOn s e = some filename
    · exact .inl (hstores filename hgoes)
    -- otherwise the file has a modification time that the entry has not
    · refine .inr fun file hfile hmtime ↦ absurd ?_ hgoes
      exact hdated _ htouched _ (hstamp file hfile) ⟨filename, f'⟩ (AList.mem_lookup_iff.mp hf') rfl
        hmtime
  · have hdisk : (s.act cfg resolve e).disk (resolve filename) = s.disk (resolve filename) :=
      disk_act htouched
    have hkept {f : CachedFile} (hf : s.cache.fileCache.lookup filename = some f)
        (hsame : f'.content = f.content ∧ f'.mtime = f.mtime)
        (hstep : ∀ t io content, e = .step t io → s.call t ≠ .written filename content) :
        Stamped (s.act cfg resolve e) (resolve filename) filename f' := by
      rw [Stamped, hdisk, hsame.1, hsame.2]
      rcases h.stamped hf with ⟨t, hstoring⟩ | hstamped
      · exact .inl ⟨t, storing_act hstoring htouched (hstep t)⟩
      · exact .inr hstamped
    obtain ⟨hf, hstep⟩ | ⟨t, io, rfl, -, horigin⟩ := origin_act hb h horderly hf'
    · exact hkept hf ⟨rfl, rfl⟩ hstep
    have hstored (hcontent : s.contentOf (resolve filename) = f'.content) :
        Stamped (s.act cfg resolve (.step t io)) (resolve filename) filename f' := by
      rw [Stamped, hdisk]
      exact .inr fun file hfile _ ↦ content_of_contentOf hcontent file hfile
    have hother {call : Call} (hcall : s.call t = call)
        (hne : ∀ content, call ≠ .written filename content) (t' : ι) (io' : StepIo)
        (content : Bytes) (he : (.step t io : Event ι κ) = .step t' io') :
        s.call t' ≠ .written filename content := by
      obtain ⟨rfl, -⟩ := Event.step.inj he
      rw [hcall]
      exact hne content
    generalize hcall : s.call t = call at horigin
    cases horigin with
    | kept hf hne => exact hkept hf ⟨rfl, rfl⟩ (hother hcall hne)
    | found hf heq =>
      rw [heq] at hkept ⊢
      exact hkept hf ⟨rfl, rfl⟩ (hother hcall fun _ ↦ by simp)
    | loaded hcontent _ => exact hstored hcontent
    | written hcontent _ => exact hstored hcontent

omit [DecidableEq ι] [DecidableEq κ] in
/-- What has been read in full is the content of the file, if the file is no longer than it is known
to be. -/
theorem informed_afterRead {filename content : Bytes} {now fileSize : ℕ} (newMtime : ℤ)
    (hnow : now ≤ s.now) (hbegins : content <+: s.contentOf (resolve filename))
    (hsize : (content = [] → fileSize = 0) → (s.contentOf (resolve filename)).length ≤ fileSize) :
    (Call.afterRead cfg filename now newMtime fileSize content).Informed cfg resolve s := by
  rw [Call.afterRead]
  split
  · exact ⟨hnow, fun hne ↦ hsize fun hnil ↦ absurd hnil hne⟩
  next hfull =>
  have hcontent : s.contentOf (resolve filename) = content := by
    have hlength : (s.contentOf (resolve filename)).length ≤ content.length := by
      refine (hsize fun hnil ↦ ?_).trans (not_lt.mp hfull)
      rw [hnil] at hfull
      exact Nat.eq_zero_of_not_pos hfull
    exact (hbegins.eq_of_length_le hlength).symm
  split
  · exact ⟨hnow, fun _ ↦ .inr (content_of_contentOf hcontent)⟩
  · exact ⟨hnow, hcontent⟩

omit [DecidableEq ι] [DecidableEq κ] in
/-- What goes to the cache is what has been written, if an error that remains unnoticed leaves
nothing out. -/
theorem informed_afterWrite {io : StepIo} {filename content : Bytes} {count : ℕ}
    (hcontent : s.contentOf (resolve filename) = content.take count)
    (hall : ∀ n, io.written = some n → io.noticed = false →
      content.length ≤ cfg.fileCacheMaxSize → content.length ≤ count) :
    (Call.afterWrite io filename content count).Informed cfg resolve s := by
  rw [Call.afterWrite]
  split
  · split
    · trivial
    · next hfull => exact fun _ ↦ hcontent.trans (List.take_of_length_le (not_lt.mp hfull))
  · next n hn =>
    split
    · trivial
    · next hnoticed =>
      exact fun hle ↦ hcontent.trans
        (List.take_of_length_le (hall n hn (Bool.eq_false_of_not_eq_true hnoticed) hle))

/-- A thread that takes a step knows of its file what it should. -/
theorem Informed.calls_step (hb : Balanced cfg s) (h : Informed cfg resolve s) {t : ι} {io : StepIo}
    (horderly : (s.call t).Orderly cfg resolve s io) :
    ((s.step cfg resolve t io).call t).Informed cfg resolve (s.step cfg resolve t io) := by
  have hbounded := hb.bounded t
  have hinHand := h.inHand t
  have hinformed := h.calls t
  rw [World.step]
  cases hcall : s.call t with
  | idle | read | wrote => exact hinformed
  | reading | written =>
    dsimp only
    rw [World.call_setCall]
    trivial
  | counted filename currentCall =>
    dsimp only
    rw [World.call_setCall]
    exact le_rfl
  | started filename currentCall now =>
    rw [hcall] at hinformed
    dsimp only
    rw [World.call_setCall]
    split
    · next content hcontent =>
      exact ⟨hinformed, fun _ ↦
        h.entries.findFresh hb filename currentCall now s.now content hcontent⟩
    · exact hinformed
  | missed filename now =>
    rw [hcall] at hinformed
    dsimp only
    rw [World.call_setCall]
    split
    · next file hfile =>
      rw [Option.ite_none_right_eq_some] at hfile
      -- at this moment the file has the modification time `stat` has found
      refine ⟨hinformed, .inr fun file' hfile' ↦ ?_⟩
      rw [Option.some.inj (hfile.2.symm.trans hfile')]
    · exact ⟨hinformed, fun hok ↦ absurd hok Bool.false_ne_true⟩
  | found filename now newMtime fileSize =>
    rw [hcall] at hinformed horderly
    dsimp only
    rw [World.call_setCall]
    split
    · next content hcontent =>
      refine ⟨hinformed.1, fun _ ↦ ?_⟩
      cases hf : s.cache.fileCache.lookup filename with
      | none =>
        rw [checkUnchanged, hf] at hcontent
        cases hcontent
      | some f =>
        rw [checkUnchanged_of_lookup hf] at hcontent
        split at hcontent
        · next hmtime =>
          obtain rfl := Option.some.inj hcontent
          exact (h.upToDate_of_found hcall horderly hf hmtime).mono (Nat.sub_le _ _)
        · cases hcontent
    · exact hinformed.1
  | outdated filename now newMtime fileSize =>
    rw [hcall] at hinformed horderly
    dsimp only
    rw [World.call_setCall]
    split
    · exact informed_afterRead newMtime hinformed List.nil_prefix fun hsize ↦ horderly (hsize rfl)
    · exact ⟨hinformed, fun hok ↦ absurd hok Bool.false_ne_true⟩
  | opened filename now newMtime fileSize content =>
    rw [hcall] at hinHand hinformed horderly
    dsimp only
    rw [World.call_setCall]
    split
    · exact ⟨hinformed.1, fun hok ↦ absurd hok Bool.false_ne_true⟩
    · next b more hmore =>
      have hoctets : b :: more <+: (s.contentOf (resolve filename)).drop content.length := by
        rw [← hmore]
        split
        · exact movedOctets_prefix _ _ _
        · exact List.nil_prefix
      refine informed_afterRead newMtime hinformed.1
        (prefix_append_of_prefix_drop hinHand.2 hoctets) fun _ ↦ ?_
      by_cases hnil : content = []
      · exact horderly hnil
      · exact hinformed.2 hnil
  | loaded filename now newMtime content =>
    rw [hcall] at hbounded hinformed horderly
    dsimp only
    rw [World.call_setCall]
    -- the entry that has just been made is there and is returned
    have hinserted := lookup_insertEntry filename content newMtime s.now s.cache filename
    rw [if_pos rfl] at hinserted
    have hfound := (evictSize_spec cfg (hb.within.summed_insertEntry filename newMtime s.now
      hbounded)).2.2.2 _ _ hinserted horderly
    rw [storeRead, indexCache, hfound]
    exact ⟨hinformed.1.trans (Nat.le_add_right _ _), fun _ ↦
      .inr (content_of_contentOf hinformed.2)⟩
  | writing filename content =>
    dsimp only
    split
    · rw [World.call_setCall]
      trivial
    · rw [World.call_setCall]
      trivial
  | truncated filename content count =>
    rw [hcall] at hinHand horderly
    obtain ⟨mtime, hfile⟩ := hinHand
    dsimp only
    rw [World.call_setCall, putOctets_of_disk hfile (writes_beginning io _)]
    refine informed_afterWrite (contentOf_putFile _ _ _ _ _) fun n hn hnoticed hle ↦ ?_
    rcases horderly n hn with hnoticed' | hlarge | hall
    · exact absurd (hnoticed'.symm.trans hnoticed) (by decide)
    · exact absurd hlarge (not_lt.mpr hle)
    · rw [StepIo.writes, hn]
      dsimp only
      rw [List.length_take, List.length_drop]
      omega

/-- **An orderly event** keeps the invariant. -/
theorem Informed.act (hb : Balanced cfg s) (h : Informed cfg resolve s) {e : Event ι κ}
    (he : Orderly cfg resolve s e) : Informed cfg resolve (s.act cfg resolve e) := by
  refine ⟨h.entries_act hb he.step, h.stamped_act hb he.dated he.step,
    inHand_act h.inHand he.undisturbed.midway, fun t ↦ ?_⟩
  by_cases ht : e.thread = some t
  · cases e with
    | elapse n => cases ht
    | change k file => cases ht
    | read t' filename =>
      obtain rfl := Option.some.inj ht
      rw [World.act]
      split
      · rw [World.call_setCall]
        trivial
      · exact h.calls t'
    | write t' filename content =>
      obtain rfl := Option.some.inj ht
      rw [World.act]
      split
      · rw [World.call_setCall]
        trivial
      · exact h.calls t'
    | step t' io =>
      obtain rfl := Option.some.inj ht
      exact h.calls_step hb he.step
  · rw [call_act_of_ne ht]
    exact (h.calls t).later (later_act cfg resolve s e) fun k hk ↦
      disk_act fun htouched ↦ ht (he.undisturbed t k hk htouched)

omit [DecidableEq ι] [DecidableEq κ] in
private theorem informed_initial (disk : κ → Option StoredFile) :
    Informed cfg resolve (World.initial disk : World ι κ) :=
  ⟨fun _ _ hf ↦ (nomatch hf), fun hf ↦ (nomatch hf), fun _ ↦ trivial, fun _ ↦ trivial⟩

/-- **Staleness is bounded** in every run of orderly events. -/
theorem always_boundedStaleness (disk : κ → Option StoredFile) {events : List (Event ι κ)}
    (h : Meets (World.act cfg resolve) (Orderly cfg resolve) (World.initial disk) events) :
    Always (World.act cfg resolve) (BoundedStaleness resolve) (World.initial disk) events :=
  (h.always (I := fun s ↦ Balanced cfg s ∧ Informed cfg resolve s)
    (fun _ e hs he ↦ ⟨hs.1.act e, hs.2.act hs.1 he⟩)
    ⟨balanced_initial disk, informed_initial disk⟩).mono fun _ hs ↦ hs.2.boundedStaleness

/-- A thread reads a file more than a second after the other has changed it, and again after another
process has. -/
def settles : List (Event Bool Bytes) :=
  .write true (ascii "f") (ascii "a") :: (List.replicate 3 (.step true {}) ++
    .elapse (2 * 10 ^ 9) :: .read false (ascii "f") :: (List.replicate 5 (.step false {}) ++
    .change (ascii "f") (some ⟨ascii "bc", 2⟩) :: .elapse (2 * 10 ^ 9) ::
    .read false (ascii "f") :: List.replicate 8 (.step false {})))

theorem always_boundedStaleness_settles :
    Always (World.act {} id) (BoundedStaleness id) (World.initial fun _ ↦ none) settles :=
  always_boundedStaleness _ (by decide +kernel)

/-- Another thread writes the file while one is about to store what it has written itself. -/
def overtaken : List (Event Bool Bytes) :=
  [.write true (ascii "f") (ascii "a"), .write false (ascii "f") (ascii "b"), .step true {},
    .step true {}, .step false {}, .step false {}, .step false {}, .step true {},
    .elapse (2 * 10 ^ 9), .read true (ascii "f")] ++ List.replicate 5 (.step true {})

theorem not_always_boundedStaleness :
    ¬Always (World.act {} id) (BoundedStaleness id) (World.initial fun _ ↦ none) overtaken := by
  intro h
  have hread : (overtaken.foldl (World.act {} id) (World.initial fun _ ↦ none)).call true =
      .read (ascii "f") (2 * 10 ^ 9) (ascii "a") true := by decide +kernel
  have hcontent := h.last true _ _ _ hread ⟨ascii "b", 0⟩ (by decide +kernel) (by decide +kernel)
  exact absurd hcontent (by decide)

end Wasapi.FileIo
