import Wasapi.FileIo.Threads

/-!
# Operations that meet

Between two system calls of an operation others may touch its file. The octets a thread writes then
stand among those of somebody else, and what a thread reads in several calls may be put together
from several contents.

`Undisturbed` says of an event that it touches no file that another thread is in the middle of. In a
run of such events a file that is being written holds what has been written so far, and what has
been read of a file is its beginning.
-/

namespace Wasapi.FileIo

section

variable {ι κ : Type*} (resolve : Bytes → κ)

/-- The file that the thread has truncated and not yet written to the end, or of which it has read a
part and wants more. -/
def Call.midway : Call → Option κ
  | .truncated filename _ _ => some (resolve filename)
  | .opened filename _ _ _ (_ :: _) => some (resolve filename)
  | _ => none

/-- The thread whose call it is. -/
def Event.thread : Event ι κ → Option ι
  | .read t _ | .write t _ _ | .step t _ => some t
  | _ => none

/-- The file that the event touches. -/
def touched (s : World ι κ) : Event ι κ → Option κ
  | .change k _ => some k
  | .step t io =>
    match s.call t with
    | .writing filename _ => if io.ok then some (resolve filename) else none
    | .truncated filename _ _ => some (resolve filename)
    | _ => none
  | _ => none

/-- The event touches no file that another thread holds. -/
def Undisturbed (held : Call → Option κ) (s : World ι κ) (e : Event ι κ) : Prop :=
  ∀ t, ∀ k ∈ held (s.call t), touched resolve s e = some k → e.thread = some t

instance [Fintype ι] [DecidableEq ι] [DecidableEq κ] {held : Call → Option κ} {s : World ι κ}
    {e : Event ι κ} : Decidable (Undisturbed resolve held s e) := by
  unfold Undisturbed
  infer_instance

/-- What a thread has truncated holds what it has written since, and what it has read is the
beginning of the file, and not all it wants. -/
def Call.InHand (s : World ι κ) : Call → Prop
  | .truncated filename content count =>
    ∃ mtime, s.disk (resolve filename) = some ⟨content.take count, mtime⟩
  | .opened filename _ _ fileSize content =>
    content.length < fileSize ∧ content <+: s.contentOf (resolve filename)
  | _ => True

end

variable {ι κ : Type*} {cfg : GlobalConfig} {resolve : Bytes → κ} {s s' : World ι κ}

theorem contentOf_congr {k : κ} (h : s'.disk k = s.disk k) : s'.contentOf k = s.contentOf k := by
  rw [World.contentOf, World.contentOf, h]

/-- What is in hand stays so if nobody touches the file. -/
theorem Call.InHand.of_disk {call : Call} (h : call.InHand resolve s)
    (hdisk : ∀ k ∈ call.midway resolve, s'.disk k = s.disk k) : call.InHand resolve s' := by
  cases call with
  | truncated filename content count =>
    obtain ⟨mtime, hfile⟩ := h
    exact ⟨mtime, (hdisk _ rfl).trans hfile⟩
  | opened filename now newMtime fileSize content =>
    cases content with
    | nil => exact ⟨h.1, List.nil_prefix⟩
    | cons b content =>
      refine ⟨h.1, ?_⟩
      rw [contentOf_congr (hdisk _ rfl)]
      exact h.2
  | _ => trivial

/-! ## Reading on

A `read` returns a piece of what is behind the position. If the file is still the same, the pieces
together are a beginning of it. -/

/-- What comes behind the beginning of a file makes a longer beginning. -/
theorem prefix_append_of_prefix_drop {content octets whole : Bytes} (h : content <+: whole)
    (hoctets : octets <+: whole.drop content.length) : content ++ octets <+: whole := by
  obtain ⟨rest, rfl⟩ := h
  rw [List.drop_left] at hoctets
  exact (List.prefix_append_right_inj content).mpr hoctets

private theorem inHand_afterRead {filename content : Bytes} (now : ℕ) (newMtime : ℤ) (fileSize : ℕ)
    (h : content <+: s.contentOf (resolve filename)) :
    (Call.afterRead cfg filename now newMtime fileSize content).InHand resolve s := by
  rw [Call.afterRead]
  split
  · next hlt => exact ⟨hlt, h⟩
  split
  · trivial
  · trivial

variable [DecidableEq ι] [DecidableEq κ]

/-! ## What an event leaves alone

An event concerns one thread at most, and touches one file at most. What is known of the other
threads and files is the same behind it. -/

/-- A file that an event does not touch stays as it is. -/
theorem disk_act {e : Event ι κ} {k : κ} (h : touched resolve s e ≠ some k) :
    (s.act cfg resolve e).disk k = s.disk k := by
  have hput {k' : κ} (hk : some k' ≠ some k) (file : Option StoredFile) :
      (s.putFile k' file).disk k = s.disk k :=
    Function.update_of_ne (fun heq ↦ hk (congrArg some heq.symm)) _ _
  cases e with
  | elapse n => rfl
  | change k' file => exact hput h file
  | read t filename =>
    rw [World.act]
    split <;> rfl
  | write t filename content =>
    rw [World.act]
    split <;> rfl
  | step t io =>
    rw [World.act, World.step]
    rw [touched] at h
    cases hcall : s.call t with
    | writing filename content =>
      rw [hcall] at h
      dsimp only at h ⊢
      split
      · next hok =>
        rw [if_pos hok] at h
        exact hput h _
      · rfl
    | truncated filename content count =>
      rw [hcall] at h
      obtain ⟨-, heq⟩ | ⟨octets, heq⟩ := s.putOctets_eq (resolve filename) count
        (io.writes (content.drop count)) io.mtime
      · dsimp only
        rw [heq]
        rfl
      · dsimp only
        rw [heq]
        exact hput h _
    | _ => rfl

/-- The calls of the other threads stay as they are. -/
theorem call_act_of_ne {e : Event ι κ} {t : ι} (h : e.thread ≠ some t) :
    (s.act cfg resolve e).call t = s.call t := by
  have hset {t' : ι} (ht : some t' ≠ some t) (s' : World ι κ) (call : Call) :
      (s'.setCall t' call).call t = s'.call t :=
    World.call_setCall_of_ne (fun heq ↦ ht (congrArg some heq.symm)) call s'
  cases e with
  | elapse n => rfl
  | change k file => rfl
  | read t' filename =>
    rw [World.act]
    split
    · exact hset h _ _
    · rfl
  | write t' filename content =>
    rw [World.act]
    split
    · exact hset h _ _
    · rfl
  | step t' io =>
    rw [World.act, World.step]
    cases s.call t' with
    | idle | read | wrote => rfl
    | writing filename content =>
      dsimp only
      split <;> exact hset h _ _
    | truncated filename content count =>
      dsimp only
      rw [hset h, World.call_putOctets]
    | _ => exact hset h _ _

theorem contentOf_putFile (s : World ι κ) (k : κ) (file : StoredFile) (t : ι) (call : Call) :
    ((s.putFile k (some file)).setCall t call).contentOf k = file.content := by
  have hdisk : ((s.putFile k (some file)).setCall t call).disk k = some file :=
    Function.update_self k _ s.disk
  rw [World.contentOf, hdisk]

/-! ## Undisturbed runs

A thread that is in the middle of a file has it in hand. Its own steps keep that up, and the steps
of others do since they touch other files. -/

/-- A thread that takes a step has its file in hand again. -/
theorem Call.InHand.step {t : ι} (h : (s.call t).InHand resolve s) (io : StepIo) :
    ((s.step cfg resolve t io).call t).InHand resolve (s.step cfg resolve t io) := by
  rw [World.step]
  cases hcall : s.call t with
  | idle | read | wrote =>
    dsimp only
    rw [hcall]
    trivial
  | reading | counted | loaded | written =>
    dsimp only
    rw [World.call_setCall]
    trivial
  | started | missed | found =>
    dsimp only
    rw [World.call_setCall]
    split <;> trivial
  | outdated filename now newMtime fileSize =>
    dsimp only
    rw [World.call_setCall]
    split
    · exact inHand_afterRead now newMtime fileSize List.nil_prefix
    · trivial
  | opened filename now newMtime fileSize content =>
    rw [hcall] at h
    dsimp only
    rw [World.call_setCall]
    split
    · trivial
    · next b more hmore =>
      -- more octets of the same content
      have hoctets : b :: more <+: (s.contentOf (resolve filename)).drop content.length := by
        rw [← hmore]
        split
        · exact movedOctets_prefix _ _ _
        · exact List.nil_prefix
      exact inHand_afterRead now newMtime fileSize (prefix_append_of_prefix_drop h.2 hoctets)
  | writing filename content =>
    dsimp only
    split
    · rw [World.call_setCall]
      exact ⟨io.mtime, Function.update_self _ _ _⟩
    · rw [World.call_setCall]
      trivial
  | truncated filename content count =>
    rw [hcall] at h
    obtain ⟨mtime, hfile⟩ := h
    dsimp only
    rw [World.call_setCall, putOctets_of_disk hfile (writes_beginning io _)]
    exact Call.afterWrite_induction io ⟨io.mtime, Function.update_self _ _ _⟩ trivial trivial

/-- **An undisturbed event** takes nothing out of anybody's hands. -/
theorem inHand_act (h : ∀ t, (s.call t).InHand resolve s) {e : Event ι κ}
    (hundisturbed : Undisturbed resolve (Call.midway resolve) s e) (t : ι) :
    ((s.act cfg resolve e).call t).InHand resolve (s.act cfg resolve e) := by
  by_cases ht : e.thread = some t
  · cases e with
    | elapse n => cases ht
    | change k file => cases ht
    | read t' filename =>
      obtain rfl := Option.some.inj ht
      rw [World.act]
      split
      · rw [World.call_setCall]
        trivial
      · exact h t'
    | write t' filename content =>
      obtain rfl := Option.some.inj ht
      rw [World.act]
      split
      · rw [World.call_setCall]
        trivial
      · exact h t'
    | step t' io =>
      obtain rfl := Option.some.inj ht
      exact (h t').step io
  · rw [call_act_of_ne ht]
    exact (h t).of_disk fun k hk ↦ disk_act fun htouched ↦ ht (hundisturbed t k hk htouched)

/-- In an undisturbed run every thread has its file in hand. -/
theorem always_inHand (disk : κ → Option StoredFile) {events : List (Event ι κ)}
    (h : Meets (World.act cfg resolve) (Undisturbed resolve (Call.midway resolve))
      (World.initial disk) events) :
    Always (World.act cfg resolve) (fun s ↦ ∀ t, (s.call t).InHand resolve s)
      (World.initial disk) events :=
  h.always (fun _ _ hs he ↦ inHand_act hs he) fun _ ↦ trivial

end Wasapi.FileIo
