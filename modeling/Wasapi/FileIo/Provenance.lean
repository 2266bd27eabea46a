import Wasapi.FileIo.Overwriting
import Wasapi.FileIo.SharedAccounting

/-!
# Where a content comes from

A read may return what the file no longer holds, but it never makes a content up and never returns
that of another file: what it returns is empty, or begins a content that has been put into the file
before, by whoever it was, or that a thread has been told to write there. It need not be all of that
content, since a file may be cut off at the size `stat` has found, and a write may fail halfway.

It takes that nobody touches a file that somebody else is in the middle of. Two writers that meet
leave something of both in the file, and a reader puts together what it finds before and after.
-/

namespace Wasapi.FileIo

section

variable {ι κ : Type*} (resolve : Bytes → κ) (P : κ → Bytes → Prop)

/-- What may be found in a file: with every content its initial parts, and nothing. -/
structure Holdable : Prop where
  nil : ∀ k, P k []
  take : ∀ k content n, P k content → P k (content.take n)

/-- What the call has read or is about to write may be found in its file. -/
def Call.Genuine : Call → Prop
  | .loaded filename _ _ content | .read filename _ content _ | .writing filename content
  | .truncated filename content _ | .written filename content => P (resolve filename) content
  | _ => True

def EntriesGenuine (c : FileCache) : Prop :=
  ∀ ⦃filename f⦄, c.fileCache.lookup filename = some f → P (resolve filename) f.content

/-- The invariant, besides the accounts. -/
structure Genuine (s : World ι κ) : Prop where
  disk : ∀ k file, s.disk k = some file → P k file.content
  entries : EntriesGenuine resolve P s.cache
  calls : ∀ t, (s.call t).Genuine resolve P

/-- What an event brings into a file may be found there. -/
def Brings : Event ι κ → Prop
  | .change k (some file) => P k file.content
  | .write _ filename content => P (resolve filename) content
  | _ => True

end

variable {ι κ : Type*} {cfg : GlobalConfig} {resolve : Bytes → κ} {P : κ → Bytes → Prop}
  {s : World ι κ} {c c' : FileCache}

/-! ## Entries

`P` holds of the contents that may be found in a file. An entry gets its content from a read or a
write of its file, or it is made empty, so `P` holds of it too. -/

theorem EntriesGenuine.of_keptFrom (h : EntriesGenuine resolve P c) (hkept : KeptFrom c c') :
    EntriesGenuine resolve P c' := fun _ _ hf ↦ h (hkept hf)

theorem EntriesGenuine.insertEntry (h : EntriesGenuine resolve P c) {filename content : Bytes}
    (hcontent : P (resolve filename) content) (mtime : ℤ) (now : ℕ) :
    EntriesGenuine resolve P (insertEntry filename content mtime now c) := by
  intro k f hf
  rw [lookup_insertEntry] at hf
  split at hf
  · next hk =>
    obtain rfl := Option.some.inj hf
    rw [hk]
    exact hcontent
  · exact h hf

theorem EntriesGenuine.findFresh (hwithin : Within cfg c) (h : EntriesGenuine resolve P c)
    (filename : Bytes) (currentCall now maintained : ℕ) :
    EntriesGenuine resolve P (findFresh cfg filename currentCall now maintained c).2 ∧
      ∀ content ∈ (FileIo.findFresh cfg filename currentCall now maintained c).1,
        P (resolve filename) content := by
  have hentries := h.of_keptFrom (hwithin.maybeMaintain currentCall maintained).2
  rw [snd_findFresh]
  refine ⟨hentries, fun content hcontent ↦ ?_⟩
  rw [FileIo.findFresh] at hcontent
  split at hcontent
  · cases hcontent
  · next f hf =>
    rw [Option.mem_def, Option.ite_none_right_eq_some] at hcontent
    obtain rfl := Option.some.inj hcontent.2
    exact hentries hf

theorem EntriesGenuine.checkUnchanged (h : EntriesGenuine resolve P c) (filename : Bytes)
    (newMtime : ℤ) (now : ℕ) :
    EntriesGenuine resolve P (checkUnchanged filename newMtime now c).2 ∧
      ∀ content ∈ (FileIo.checkUnchanged filename newMtime now c).1,
        P (resolve filename) content := by
  cases hf : c.fileCache.lookup filename with
  | none =>
    rw [FileIo.checkUnchanged, hf]
    exact ⟨h, fun content hcontent ↦ absurd hcontent (by simp)⟩
  | some f =>
    rw [checkUnchanged_of_lookup hf]
    split
    · refine ⟨fun k f' hf' ↦ ?_, fun content heq ↦ Option.some.inj heq ▸ h hf⟩
      rw [lookup_touchEntry] at hf'
      split at hf'
      · next hk =>
        obtain rfl := Option.some.inj hf'
        rw [hk]
        exact @h filename f hf
      · exact h hf'
    · exact ⟨h.of_keptFrom (keptFrom_removeEntry filename c),
        fun content hcontent ↦ absurd hcontent (by simp)⟩

/-- An entry that is no longer there is made anew and is empty. -/
theorem EntriesGenuine.indexCache (hP : Holdable P) (h : EntriesGenuine resolve P c)
    (filename : Bytes) (now : ℕ) :
    P (resolve filename) (indexCache filename now c).1.content ∧
      EntriesGenuine resolve P (FileIo.indexCache filename now c).2 := by
  rw [FileIo.indexCache]
  cases hf : c.fileCache.lookup filename with
  | some f => exact ⟨h hf, h⟩
  | none =>
    refine ⟨hP.nil _, fun k f hf' ↦ ?_⟩
    by_cases hk : k = filename
    · subst hk
      rw [AList.lookup_insert, Option.some.injEq] at hf'
      rw [← hf']
      exact hP.nil _
    · rw [AList.lookup_insert_ne hk] at hf'
      exact h hf'

private theorem genuine_afterRead {filename content : Bytes} (now : ℕ) (newMtime : ℤ) (fileSize : ℕ)
    (h : P (resolve filename) content) :
    (Call.afterRead cfg filename now newMtime fileSize content).Genuine resolve P := by
  rw [Call.afterRead]
  split
  · trivial
  split
  · exact h
  · exact h

/-! ## Steps

A content passes from the file to the thread, from the thread to the cache and from the cache to
another thread. At each of these places it may become shorter, which `P` allows, and at none does it
become another one. -/

theorem Genuine.setCache (h : Genuine resolve P s) (hc : EntriesGenuine resolve P c) :
    Genuine resolve P (s.setCache c) := ⟨h.disk, hc, h.calls⟩

theorem Genuine.contentOf (hP : Holdable P) (h : Genuine resolve P s) (k : κ) :
    P k (s.contentOf k) := by
  rw [World.contentOf]
  split
  · next file hfile => exact h.disk k file hfile
  · exact hP.nil k

theorem Genuine.elapse (h : Genuine resolve P s) (n : ℕ) : Genuine resolve P (s.elapse n) :=
  ⟨h.disk, h.entries, h.calls⟩

theorem Genuine.setCall [DecidableEq ι] (h : Genuine resolve P s) {t : ι} {call : Call}
    (hcall : call.Genuine resolve P) : Genuine resolve P (s.setCall t call) :=
  ⟨h.disk, h.entries, World.forall_setCall h.calls t hcall⟩

theorem Genuine.putFile [DecidableEq κ] (h : Genuine resolve P s) {k : κ}
    {file : Option StoredFile} (hfile : ∀ f ∈ file, P k f.content) :
    Genuine resolve P (s.putFile k file) := by
  refine ⟨fun k' file' hfile' ↦ ?_, h.entries, h.calls⟩
  have hupdate : Function.update s.disk k file k' = some file' := hfile'
  by_cases hk : k' = k
  · subst hk
    rw [Function.update_self] at hupdate
    exact hfile file' hupdate
  · rw [Function.update_of_ne hk] at hupdate
    exact h.disk k' file' hupdate

variable [DecidableEq ι] [DecidableEq κ]

/-- **A step of a thread** that has its file in hand brings nothing new into a file and takes
nothing from another one. -/
theorem Genuine.step (hP : Holdable P) (hb : Balanced cfg s) (h : Genuine resolve P s) {t : ι}
    (hinHand : (s.call t).InHand resolve s) (io : StepIo) :
    Genuine resolve P (s.step cfg resolve t io) := by
  have hbounded := hb.bounded t
  have hcontent := h.calls t
  rw [World.step]
  cases hcall : s.call t with
  | idle => exact h
  | read filename now content ok => exact h
  | wrote ok => exact h
  | reading filename =>
    have hcounted (n : ℕ) : EntriesGenuine resolve P { s.cache with callCounter := n } := h.entries
    exact (h.setCache (hcounted _)).setCall trivial
  | counted filename currentCall => exact h.setCall trivial
  | started filename currentCall now =>
    obtain ⟨hentries, hfresh⟩ :=
      h.entries.findFresh hb.within filename currentCall now s.now
    refine (h.setCache hentries).setCall ?_
    split
    · next content heq => exact hfresh content heq
    · trivial
  | missed filename now =>
    refine h.setCall ?_
    split
    · trivial
    · exact hP.nil _
  | found filename now newMtime fileSize =>
    obtain ⟨hentries, hunchanged⟩ := h.entries.checkUnchanged filename newMtime now
    refine (h.setCache hentries).setCall ?_
    split
    · next content heq => exact hunchanged content heq
    · trivial
  | outdated filename now newMtime fileSize =>
    refine h.setCall ?_
    split
    · exact genuine_afterRead now newMtime fileSize (hP.nil _)
    · exact hP.nil _
  | opened filename now newMtime fileSize content =>
    rw [hcall] at hinHand
    refine h.setCall ?_
    split
    · exact hP.nil _
    · next b more hmore =>
      -- what has been read and what is read now are together the beginning of the file
      have hoctets : b :: more <+: (s.contentOf (resolve filename)).drop content.length := by
        rw [← hmore]
        split
        · exact movedOctets_prefix _ _ _
        · exact List.nil_prefix
      have hbegins := prefix_append_of_prefix_drop hinHand.2 hoctets
      refine genuine_afterRead now newMtime fileSize ?_
      rw [List.prefix_iff_eq_take.mp hbegins]
      exact hP.take _ _ _ (h.contentOf hP _)
  | loaded filename now newMtime content =>
    rw [hcall] at hbounded hcontent
    have hkept := (hb.within.storeEntry filename newMtime s.now hbounded).2
    obtain ⟨hreturned, hentries⟩ := ((h.entries.insertEntry hcontent newMtime s.now).of_keptFrom
      hkept).indexCache hP filename (s.now + io.elapsed)
    exact ((h.setCache hentries).elapse io.elapsed).setCall hreturned
  | writing filename content =>
    rw [hcall] at hcontent
    dsimp only
    split
    · exact (h.putFile fun f hf ↦ Option.some.inj hf ▸ hP.nil _).setCall hcontent
    · exact h.setCall trivial
  | truncated filename content count =>
    rw [hcall] at hcontent hinHand
    obtain ⟨mtime, hfile⟩ := hinHand
    -- the file holds a longer beginning of the content than before
    dsimp only
    rw [putOctets_of_disk hfile (writes_beginning io _)]
    exact (h.putFile fun f hf ↦ Option.some.inj hf ▸ hP.take _ _ _ hcontent).setCall
      (Call.afterWrite_induction io hcontent hcontent trivial)
  | written filename content =>
    rw [hcall] at hcontent
    refine (h.setCache ?_).setCall trivial
    rw [storeWritten]
    split
    · exact h.entries.of_keptFrom (keptFrom_removeEntry filename s.cache)
    · next hle =>
      exact (h.entries.insertEntry hcontent io.time s.now).of_keptFrom
        (hb.within.storeEntry filename io.time s.now (not_lt.mp hle)).2

theorem Genuine.act (hP : Holdable P) (hb : Balanced cfg s) (h : Genuine resolve P s)
    (hinHand : ∀ t, (s.call t).InHand resolve s) {e : Event ι κ} (hbrings : Brings resolve P e) :
    Genuine resolve P (s.act cfg resolve e) := by
  cases e with
  | elapse n => exact h.elapse n
  | change k file =>
    refine h.putFile fun f hf ↦ ?_
    obtain rfl := hf
    exact hbrings
  | read t filename =>
    rw [World.act]
    split
    · exact h.setCall trivial
    · exact h
  | write t filename content =>
    rw [World.act]
    split
    · exact h.setCall hbrings
    · exact h
  | step t io => exact h.step hP hb (hinHand t) io

/-! ## Every run

For `P` one takes the beginnings of all contents that the file has at first or is given in the
course of the run, also later than the moment one looks at. An event brings in nothing else by
definition. -/

variable (resolve) in
/-- What an event brings into a file. -/
def brought (k : κ) : Event ι κ → Option Bytes
  | .change k' (some file) => if k' = k then some file.content else none
  | .write _ filename content => if resolve filename = k then some content else none
  | _ => none

variable (resolve) in
/-- The contents a file had at first, and those that have been brought into it since. -/
def contentsOf (disk : κ → Option StoredFile) (events : List (Event ι κ)) (k : κ) : List Bytes :=
  ((disk k).map StoredFile.content).toList ++ events.filterMap (brought resolve k)

/-- It is empty, or begins one of these. -/
def BeginsOneOf (contents : List Bytes) (content : Bytes) : Prop :=
  content = [] ∨ ∃ whole ∈ contents, content <+: whole

omit [DecidableEq κ] in
private theorem holdable_beginsOneOf (contents : κ → List Bytes) :
    Holdable fun k content ↦ BeginsOneOf (contents k) content := by
  refine ⟨fun k ↦ .inl rfl, fun k content n h ↦ ?_⟩
  obtain rfl | ⟨whole, hmem, hbegins⟩ := h
  · exact .inl List.take_nil
  · exact .inr ⟨whole, hmem, (List.take_prefix n content).trans hbegins⟩

private theorem genuine_foldl (disk : κ → Option StoredFile) (events : List (Event ι κ))
    (hundisturbed : Meets (World.act cfg resolve) (Undisturbed resolve (Call.midway resolve))
      (World.initial disk) events) :
    Genuine resolve (fun k content ↦ BeginsOneOf (contentsOf resolve disk events k) content)
      (events.foldl (World.act cfg resolve) (World.initial disk)) := by
  set P : κ → Bytes → Prop := fun k content ↦ BeginsOneOf (contentsOf resolve disk events k) content
    with hPdef
  have hP : Holdable P := holdable_beginsOneOf _
  have hmem {k : κ} {e : Event ι κ} (he : e ∈ events) {content : Bytes}
      (hbrought : brought resolve k e = some content) : P k content := by
    refine .inr ⟨content, ?_, List.prefix_refl content⟩
    exact List.mem_append_right _ (List.mem_filterMap.mpr ⟨e, he, hbrought⟩)
  have hbrings : ∀ e ∈ events, Brings resolve P e := by
    intro e he
    cases e with
    | change k file =>
      cases file with
      | none => trivial
      | some file => exact hmem he (if_pos rfl)
    | write t filename content => exact hmem he (if_pos rfl)
    | _ => trivial
  have hinitial : Genuine resolve P (World.initial disk : World ι κ) := by
    refine ⟨fun k file hfile ↦ ?_, fun _ _ hf ↦ ?_, fun _ ↦ trivial⟩
    · refine .inr ⟨file.content, List.mem_append_left _ ?_, List.prefix_refl _⟩
      have hdisk : disk k = some file := hfile
      rw [hdisk]
      exact List.mem_singleton_self _
    · cases hf
  have hinvariant := (hundisturbed.mem (List.Subset.refl events)).foldl
    (I := fun s ↦ Balanced cfg s ∧ (∀ t, (s.call t).InHand resolve s) ∧ Genuine resolve P s)
    (fun s e hs he ↦ ⟨hs.1.act e, inHand_act hs.2.1 he.1,
      hs.2.2.act hP hs.1 hs.2.1 (hbrings e he.2)⟩)
    ⟨balanced_initial disk, fun _ ↦ trivial, hinitial⟩
  exact hinvariant.2.2

/-- **Contents are never made up.** Whatever the threads and other processes do, what a read returns
begins a content of its file, if nobody touches a file between the truncation and the last `write`
of somebody else, or between the first and the last of the `read` calls of somebody else. -/
theorem read_beginsOneOf (cfg : GlobalConfig) (resolve : Bytes → κ) (disk : κ → Option StoredFile)
    (events : List (Event ι κ))
    (hundisturbed : Meets (World.act cfg resolve) (Undisturbed resolve (Call.midway resolve))
      (World.initial disk) events)
    {t : ι} {filename : Bytes} {now : ℕ} {content : Bytes} {ok : Bool}
    (hread : (events.foldl (World.act cfg resolve) (World.initial disk)).call t =
      .read filename now content ok) :
    BeginsOneOf (contentsOf resolve disk events (resolve filename)) content := by
  have hcall := (genuine_foldl disk events hundisturbed).calls t
  rw [hread] at hcall
  exact hcall

/-- The file before. -/
def twoOctets : Bytes → Option StoredFile :=
  Function.update (fun _ ↦ none) (ascii "f") (some ⟨ascii "xy", 5⟩)

/-- One thread has found out the size of the file, when the other writes it anew. Then it reads the
octets one by one. -/
def growsMeanwhile : List (Event Bool Bytes) :=
  .read true (ascii "f") :: (List.replicate 5 (.step true {}) ++
    .write false (ascii "f") (ascii "abcd") :: (List.replicate 3 (.step false {}) ++
    .step true {} :: (List.replicate 2 (.step true { octets := some 0 }) ++ [.step true {}])))

/-- What is read has never been the content of the file, but begins one. -/
theorem read_beginsOneOf_growsMeanwhile :
    BeginsOneOf (contentsOf id twoOctets growsMeanwhile (ascii "f")) (ascii "ab") ∧
      ascii "ab" ∉ contentsOf id twoOctets growsMeanwhile (ascii "f") := by
  have hread : (growsMeanwhile.foldl (World.act {} id) (World.initial twoOctets)).call true =
      .read (ascii "f") 0 (ascii "ab") true := by decide +kernel
  exact ⟨read_beginsOneOf {} id twoOctets growsMeanwhile (by decide +kernel) hread, by decide⟩

/-- Two threads have the same file open, and one of them writes it between two calls with which the
other does. -/
def writeTogether : List (Event Bool Bytes) :=
  [.write true (ascii "f") (ascii "abcd"), .write false (ascii "f") (ascii "xy"), .step true {},
    .step false {}, .step true { octets := some 0 }, .step false {}, .step true {}]

/-- The file then holds what neither of them has written. -/
example : (writeTogether.foldl (World.act {} id) (World.initial twoOctets)).contentOf
    (ascii "f") = ascii "xbcd" := by decide +kernel

/-- The other thread writes the file anew between two calls that read it. -/
def readMeanwhile : List (Event Bool Bytes) :=
  .read true (ascii "f") :: (List.replicate 6 (.step true {}) ++
    .step true { octets := some 0 } :: .write false (ascii "f") (ascii "ab") ::
    (List.replicate 3 (.step false {}) ++ List.replicate 2 (.step true {})))

/-- What is read then begins neither content. -/
example : (readMeanwhile.foldl (World.act {} id) (World.initial twoOctets)).call true =
    .read (ascii "f") 0 (ascii "xb") true := by decide +kernel

end Wasapi.FileIo
