import Wasapi.Memory.Pool
import Wasapi.Websockets.OutputStream

/-!
# What becomes of a task

A task holds the arena of its request from the moment it is scheduled until its lambda ends, and
leaves one reply on the way, unless it has nothing to say. So the arenas in use are those of the
unfinished tasks and those the FastCGI server has taken, and a reply is either still to come from a
task, or among the pending frames, or in the buffer of the client.
-/

namespace Wasapi

/-! ## A pool and what it has lent

The list of what is lent is kept by those who have borrowed. That the pool agrees with it says that
no arena is lost and none is lent twice. -/

/-- The pool of `n` arenas has lent those in the list, each once, and no other. -/
structure ArenaManager.Lends (m : ArenaManager) (n : ℕ) (held : List ℕ) : Prop where
  counted : m.Counted n
  nodup : held.Nodup
  holder : ∀ i, m.holder i ≠ none ↔ i ∈ held
  available : m.availableCount + held.length = n

namespace ArenaManager

variable {m m' : ArenaManager} {n h i : ℕ} {held held' : List ℕ}

private theorem Lends.perm (hm : m.Lends n held) (hperm : held.Perm held') : m.Lends n held' where
  counted := hm.counted
  nodup := hperm.nodup_iff.mp hm.nodup
  holder i := (hm.holder i).trans hperm.mem_iff
  available := hperm.length_eq ▸ hm.available

private theorem lends_createArenas (bases : List UInt64) (capacity : UInt64) :
    (createArenas bases capacity).Lends bases.length [] where
  counted := counted_createArenas bases capacity
  nodup := List.nodup_nil
  holder i := by
    refine iff_of_false (not_not.mpr ?_) List.not_mem_nil
    rw [ArenaManager.holder, createArenas, List.getElem?_map]
    cases bases[i]? with
    | none => rfl
    | some b => rfl
  available := rfl

theorem Lends.get (hm : m.Lends n held) (hget : m.get h = some (i, m')) :
    m'.Lends n (i :: held) where
  counted := (hm.counted.get hget).1
  nodup := List.nodup_cons.mpr ⟨fun hi ↦ (hm.holder i).mpr hi (holder_of_get hget), hm.nodup⟩
  holder j := by
    rw [holder_get hget, List.mem_cons]
    by_cases hj : j = i
    · rw [if_pos hj]
      exact iff_of_true (Option.some_ne_none h) (.inl hj)
    · rw [if_neg hj, hm.holder j, or_iff_right hj]
  available := by
    have hpos := hm.counted.pos (hm.counted.get hget).2 (holder_of_get hget)
    have havailable := hm.available
    rw [(arenas_get hget).2, List.length_cons]
    omega

theorem Lends.release (hm : m.Lends n (i :: held)) : (m.release i).Lends n held where
  counted := hm.counted.release i
  nodup := (List.nodup_cons.mp hm.nodup).2
  holder j := by
    rw [holder_release]
    by_cases hj : j = i
    · rw [if_pos hj, hj]
      exact iff_of_false (not_not.mpr rfl) (List.nodup_cons.mp hm.nodup).1
    · rw [if_neg hj, hm.holder j, List.mem_cons, or_iff_right hj]
  available := by
    have havailable := hm.available
    obtain ⟨k, hk⟩ := Option.ne_none_iff_exists'.mp ((hm.holder i).mpr List.mem_cons_self)
    rw [release_of_holder hk, Nat.add_right_comm]
    exact havailable

/-- What is taken inside the arenas does not matter. -/
theorem Lends.withArenas (hm : m.Lends n held) (arenas : List Arena) :
    ({ m with arenas := arenas } : ArenaManager).Lends n held :=
  ⟨⟨hm.counted.length, hm.counted.count⟩, hm.nodup, hm.holder, hm.available⟩

end ArenaManager

namespace Websockets

open Fastcgi

variable {cfg : GlobalConfig} {app : Application} {s s' : Server} {n : ℕ}

/-! ## Arenas

A task has one arena from its making to its end. The arenas that the FastCGI server has are a list
that comes and goes from outside. -/

/-- The arenas of the unfinished tasks and those the FastCGI server has. -/
def heldArenas (s : Server) : List ℕ :=
  s.tasks.filterMap (fun t ↦ t.request.arena) ++ s.fcgiArenas

/-- Every task has an arena, and the pool has lent those and the ones FastCGI has. -/
structure Accounted (n : ℕ) (s : Server) : Prop where
  lends : s.arenas.Lends n (heldArenas s)
  task : ∀ t ∈ s.tasks, t.request.arena ≠ none

private theorem Accounted.of_lends (h : Accounted n s) (htasks : s'.tasks = s.tasks)
    (hfcgi : s'.fcgiArenas = s.fcgiArenas) (hlends : s'.arenas.Lends n (heldArenas s)) :
    Accounted n s' := by
  have hheld : heldArenas s' = heldArenas s := by rw [heldArenas, htasks, hfcgi, heldArenas]
  exact ⟨hheld ▸ hlends, htasks ▸ h.task⟩

theorem Accounted.of_eq (h : Accounted n s) (harenas : s'.arenas = s.arenas)
    (htasks : s'.tasks = s.tasks) (hfcgi : s'.fcgiArenas = s.fcgiArenas) : Accounted n s' :=
  h.of_lends htasks hfcgi (harenas ▸ h.lends)

/-- **A new request takes one arena**, or fails and leaves the pool as it was. -/
theorem newRequest_spec (cfg : GlobalConfig) (h : s.arenas.Lends n (heldArenas s)) :
    ((newRequest cfg s).2.tasks = s.tasks ∧ (newRequest cfg s).2.fcgiArenas = s.fcgiArenas) ∧
      ((newRequest cfg s).1 = none ∧ (newRequest cfg s).2.arenas.Lends n (heldArenas s) ∨
        ∃ r i, (newRequest cfg s).1 = some r ∧ r.arena = some i ∧
          (newRequest cfg s).2.arenas.Lends n (i :: heldArenas s)) := by
  rw [newRequest]
  cases hget : s.arenas.get s.nextHandle with
  | none => exact ⟨⟨rfl, rfl⟩, .inl ⟨rfl, h⟩⟩
  | some p =>
    obtain ⟨i, m⟩ := p
    have hm := h.get hget
    simp only
    split
    · exact ⟨⟨rfl, rfl⟩, .inl ⟨rfl, hm.release⟩⟩
    · exact ⟨⟨rfl, rfl⟩, .inr ⟨_, i, rfl, rfl, hm.withArenas _⟩⟩

/-- A request was made in `s`, and the task that holds it is enqueued. -/
theorem Accounted.enqueue (h : Accounted n s) {i : ℕ} (htasks : s'.tasks = s.tasks)
    (hfcgi : s'.fcgiArenas = s.fcgiArenas) (hlends : s'.arenas.Lends n (i :: heldArenas s))
    {t : Task} (harena : t.request.arena = some i) : Accounted n (enqueue t s') where
  lends := by
    refine hlends.perm ?_
    have hlast : [t].filterMap (fun t ↦ t.request.arena) = [i] := by
      rw [List.filterMap_cons, harena]
      rfl
    rw [heldArenas, heldArenas, Websockets.enqueue, List.filterMap_append, hlast, htasks, hfcgi,
      List.append_assoc, List.singleton_append]
    exact List.perm_middle.symm
  task t' ht' := by
    rcases List.mem_append.mp ht' with ht' | ht'
    · exact h.task t' (htasks ▸ ht')
    · rw [List.mem_singleton.mp ht', harena]
      exact Option.some_ne_none i

/-- **Scheduling keeps the account.** A task is enqueued with its arena or nothing is taken. -/
theorem Accounted.scheduleMessage (h : Accounted n s) (c : Client) (call : MessageCall) :
    Accounted n (scheduleMessage cfg c s call) := by
  obtain ⟨⟨htasks, hfcgi⟩, hnew⟩ := newRequest_spec cfg h.lends
  rw [Websockets.scheduleMessage]
  rcases heq : newRequest cfg s with ⟨_ | r, s₁⟩ <;> rw [heq] at htasks hfcgi hnew
  · rcases hnew with ⟨-, hlends⟩ | ⟨r, i, hr, -⟩
    · exact h.of_lends htasks hfcgi hlends
    · cases hr
  · rcases hnew with ⟨hr, -⟩ | ⟨r', i, hr, harena, hlends⟩
    · cases hr
    · obtain rfl := Option.some.inj hr
      exact h.enqueue htasks hfcgi hlends harena

theorem Accounted.scheduleHttp (h : Accounted n s) (c : Client) (requestText body : Bytes) :
    Accounted n (scheduleHttp cfg app c requestText body s) := by
  rw [Websockets.scheduleHttp]
  set s₀ : Server := { s with httpCalls := s.httpCalls ++ [⟨c.cid, requestText, body⟩] }
  have h₀ : Accounted n s₀ := h.of_eq rfl rfl rfl
  obtain ⟨⟨htasks, hfcgi⟩, hnew⟩ := newRequest_spec cfg h₀.lends
  simp only
  split
  · exact h₀
  rcases heq : newRequest cfg s₀ with ⟨_ | r, s₁⟩ <;> rw [heq] at htasks hfcgi hnew
  · rcases hnew with ⟨-, hlends⟩ | ⟨r, i, hr, -⟩
    · exact h₀.of_lends htasks hfcgi hlends
    · cases hr
  · rcases hnew with ⟨hr, -⟩ | ⟨r', i, hr, harena, hlends⟩
    · cases hr
    · obtain rfl := Option.some.inj hr
      exact h₀.enqueue htasks hfcgi hlends harena

theorem Accounted.eventPart (h : Accounted n s) (events : IoEvents) (data : Bytes)
    (ending : RecvEnd) (c : Client) :
    Accounted n (eventPart cfg app events data ending c s).2 := by
  rw [Websockets.eventPart]
  split
  swap
  · exact h
  generalize (if events.hupOrErr then { c with closed := true } else c) = c₁
  have hscheduled : Accounted n (scheduledPart cfg app data ending c₁ s) := by
    rw [scheduledPart]
    split
    · exact h
    · exact h.scheduleHttp _ _ _
  rw [handleInput_eq]
  simp only
  split
  · have hall := List.foldlRecOn (motive := Accounted n)
      (frameLoop (readPart app data ending c₁).1.inBuf.length (readPart app data ending c₁).1).calls
      (Websockets.scheduleMessage cfg (readPart app data ending c₁).1) hscheduled
      fun s' hs' call _ ↦ hs'.scheduleMessage _ call
    exact hall.of_eq rfl rfl rfl
  · exact hscheduled

theorem Accounted.finishEvent (h : Accounted n s) (fd : ℤ) (epollOut : Bool) (c : Client) :
    Accounted n (finishEvent fd epollOut c s) := by
  rw [Websockets.finishEvent]
  set p := if epollOut then sendAll s.sends c.outBuf else (c.outBuf, s.sends)
  simp only
  split
  · exact h.of_eq rfl rfl rfl
  · exact h.of_eq rfl rfl rfl

theorem Accounted.handleClient (h : Accounted n s) (fd : ℤ) (events : IoEvents) (data : Bytes)
    (ending : RecvEnd) : Accounted n (handleClient cfg app fd events data ending s) := by
  cases hc : s.clients.lookup fd with
  | none =>
    rw [Websockets.handleClient, hc]
    exact h
  | some c =>
    have hpart : Accounted n (Websockets.eventPart cfg app events data ending c s).2 :=
      h.eventPart events data ending c
    rw [handleClient_eq cfg app hc]
    simp only
    split
    · exact hpart.of_eq rfl rfl rfl
    · exact hpart.finishEvent fd events.epollOut _

/-- **A task gives its arena back when it ends**, and keeps it until then. -/
theorem Accounted.workerStep (h : Accounted n s) (k : ℕ) : Accounted n (workerStep app k s) := by
  rw [Websockets.workerStep]
  split
  · exact h
  next t ht =>
  obtain ⟨hlt, hat⟩ := List.getElem?_eq_some_iff.mp ht
  have hperm : s.tasks.Perm (t :: s.tasks.eraseIdx k) := by
    rw [← hat]
    exact (List.getElem_cons_eraseIdx_perm hlt).symm
  -- the task only comes to another phase
  have hphase {s' : Server} (phase : TaskPhase)
      (htasks : s'.tasks = s.tasks.set k { t with phase := phase })
      (harenas : s'.arenas = s.arenas) (hfcgi : s'.fcgiArenas = s.fcgiArenas) :
      Accounted n s' := by
    have hset := List.set_perm_cons_eraseIdx hlt { t with phase := phase }
    refine ⟨?_, fun t' ht' ↦ ?_⟩
    · rw [harenas]
      refine h.lends.perm ?_
      rw [heldArenas, heldArenas, htasks, hfcgi]
      refine List.Perm.append_right _ ?_
      refine (hperm.filterMap _).trans (.trans ?_ (hset.filterMap _).symm)
      rw [List.filterMap_cons, List.filterMap_cons]
    · rw [htasks] at ht'
      rcases List.mem_or_eq_of_mem_set ht' with ht' | rfl
      · exact h.task t' ht'
      · exact h.task t (List.mem_of_getElem? ht)
  split
  · split
    · exact h
    · exact hphase .started rfl rfl rfl
  · exact hphase .pushed rfl rfl rfl
  · obtain ⟨i, hi⟩ := Option.ne_none_iff_exists'.mp (h.task t (List.mem_of_getElem? ht))
    refine ⟨?_, fun t' ht' ↦ h.task t' ((List.eraseIdx_sublist _ _).subset ht')⟩
    simp only [hi]
    refine ArenaManager.Lends.release (h.lends.perm ?_)
    rw [heldArenas, heldArenas, ← List.cons_append]
    refine List.Perm.append_right _ ((hperm.filterMap _).trans ?_)
    rw [List.filterMap_cons, hi]

theorem Accounted.step (h : Accounted n s) (e : Event) : Accounted n (step cfg app s e) := by
  unfold Websockets.step
  split
  · exact h
  cases e with
  | accept cfds =>
    refine List.foldlRecOn _ _ h fun s' hs' cfd _ ↦ ?_
    rw [acceptClient]
    split
    · exact hs'
    · exact hs'.of_eq rfl rfl rfl
  | client fd events data ending => exact h.handleClient fd events data ending
  | pending =>
    refine List.foldlRecOn _ _ (h.of_eq rfl rfl rfl) fun s' hs' pf _ ↦ ?_
    rw [deliver]
    split
    · exact hs'
    · exact hs'.of_eq rfl rfl rfl
  | worker k => exact h.workerStep k
  | outside elapsed sends => exact h.of_eq rfl rfl rfl
  | fcgiTake =>
    simp only
    split
    · exact h
    next i m hget =>
    refine ⟨(h.lends.get hget).perm ?_, h.task⟩
    rw [heldArenas, heldArenas, ← List.append_assoc]
    exact (List.perm_append_singleton i _).symm
  | fcgiReturn k =>
    simp only
    split
    · exact h
    next i hi =>
    obtain ⟨hlt, hat⟩ := List.getElem?_eq_some_iff.mp hi
    have hperm : s.fcgiArenas.Perm (i :: s.fcgiArenas.eraseIdx k) := by
      rw [← hat]
      exact (List.getElem_cons_eraseIdx_perm hlt).symm
    refine ⟨ArenaManager.Lends.release (h.lends.perm ?_), h.task⟩
    exact (hperm.append_left _).trans List.perm_middle

theorem accounted_initial (bases : List UInt64) (capacity : UInt64) :
    Accounted bases.length (initial bases capacity) :=
  ⟨ArenaManager.lends_createArenas bases capacity, fun _ ht ↦ absurd ht List.not_mem_nil⟩

theorem Accounted.available (h : Accounted n s) :
    s.arenas.availableCount + s.tasks.length + s.fcgiArenas.length = n := by
  have hlength : (s.tasks.filterMap fun t ↦ t.request.arena).length = s.tasks.length := by
    rw [List.filterMap_length_eq_length]
    exact fun t ht ↦ Option.isSome_iff_ne_none.mpr (h.task t ht)
  have havailable := h.lends.available
  rw [heldArenas, List.length_append, hlength] at havailable
  omega

/-- **No arena is lost or lent twice.** In every run the arenas in use are those of the unfinished
tasks and those the FastCGI server has, all of them different, and `available_count` is the number
of the others. -/
theorem always_accounted (cfg : GlobalConfig) (app : Application) (bases : List UInt64)
    (capacity : UInt64) (events : List Event) :
    Always (step cfg app)
      (fun s ↦ (heldArenas s).Nodup ∧ (∀ i, s.arenas.holder i ≠ none ↔ i ∈ heldArenas s) ∧
        s.arenas.availableCount + s.tasks.length + s.fcgiArenas.length = bases.length)
      (initial bases capacity) events :=
  (always_of_invariant (fun _ e h ↦ h.step e) (accounted_initial bases capacity) events).mono
    fun _ h ↦ ⟨h.lends.nodup, h.lends.holder, h.available⟩

/-! ## Replies

A reply is on its way in a task, then in the queue of frames, and then it is delivered. Each step
moves it along or leaves it where it is. -/

/-- The reply a task has still to leave, if it has one. -/
def Task.reply (app : Application) (t : Task) : Option PendingFrame :=
  if t.phase = .pushed ∨ (t.frame app).isEmpty then none else some ⟨t.fd, t.frame app, t.origin⟩

/-- The replies that have not been delivered: those left, and those to come. -/
def dueReplies (app : Application) (s : Server) : List PendingFrame :=
  s.pendingFrames ++ s.tasks.filterMap (Task.reply app)

/-- **A step of a worker neither loses nor doubles a reply.** -/
theorem due_workerStep (k : ℕ) (s : Server) :
    (dueReplies app (workerStep app k s)).Perm (dueReplies app s) := by
  rw [workerStep]
  split
  · exact .refl _
  next t ht =>
  obtain ⟨hlt, hat⟩ := List.getElem?_eq_some_iff.mp ht
  have hperm : (t :: s.tasks.eraseIdx k).Perm s.tasks := by
    rw [← hat]
    exact List.getElem_cons_eraseIdx_perm hlt
  have hset (phase : TaskPhase) := List.set_perm_cons_eraseIdx hlt { t with phase := phase }
  cases hphase : t.phase with
  | queued =>
    simp only
    split
    · exact .refl _
    · refine List.Perm.append_left _ ?_
      refine ((hset .started).filterMap _).trans (.trans ?_ (hperm.filterMap _))
      have hsame : Task.reply app { t with phase := .started } = Task.reply app t := by
        simp only [Task.reply, Task.frame, hphase, reduceCtorEq, false_or]
      rw [List.filterMap_cons, List.filterMap_cons, hsame]
  | started =>
    -- what the task has left it has no more to leave
    have hleft : Task.reply app { t with phase := .pushed } = none := by
      rw [Task.reply, if_pos (.inl rfl)]
    have htasks := (hset .pushed).filterMap (Task.reply app)
    have hbefore := (hperm.filterMap (Task.reply app)).symm
    rw [List.filterMap_cons, hleft] at htasks
    rw [List.filterMap_cons, Task.reply, hphase] at hbefore
    simp only
    split
    · next hempty =>
      rw [if_pos (.inr hempty)] at hbefore
      exact (htasks.trans hbefore.symm).append_left _
    · next hframe =>
      rw [if_neg (by simp [hframe])] at hbefore
      rw [dueReplies, dueReplies, List.append_assoc]
      exact ((htasks.append_left _).trans hbefore.symm).append_left _
  | pushed =>
    have hnone : Task.reply app t = none := by rw [Task.reply, if_pos (.inl hphase)]
    have hbefore := hperm.filterMap (Task.reply app)
    rw [List.filterMap_cons, hnone] at hbefore
    exact hbefore.append_left _

/-- What the drain does to each client. -/
theorem lookup_delivers (pfs : List PendingFrame) (s : Server) (fd : ℤ) :
    (pfs.foldl deliver s).clients.lookup fd = (s.clients.lookup fd).map fun c ↦
      { c with outBuf := c.outBuf ++
        (pfs.filter fun pf ↦ pf.fd = fd).flatMap PendingFrame.frame } := by
  induction pfs generalizing s with
  | nil =>
    rw [List.foldl_nil, List.filter_nil, List.flatMap_nil]
    simp only [List.append_nil, Option.map_id']
  | cons pf pfs ih =>
    rw [List.foldl_cons, ih, lookup_deliver, Option.map_map]
    refine Option.map_congr fun c _ ↦ ?_
    by_cases hfd : fd = pf.fd
    · rw [Function.comp_apply, if_pos hfd, List.filter_cons_of_pos (by simp [hfd]),
        List.flatMap_cons, List.append_assoc]
    · rw [Function.comp_apply, if_neg hfd, List.filter_cons_of_neg (by simp [Ne.symm hfd])]

/-! ## Workers come to an end

Each task takes three steps at most and schedules nothing. So in whatever order the workers move,
they come to an end, and what they leave for the drain does not depend on the order but for the
order of the replies. -/

def TaskPhase.steps : TaskPhase → ℕ
  | .queued => 3
  | .started => 2
  | .pushed => 1

/-- The steps the unfinished tasks have still to take. -/
def stepsLeft (s : Server) : ℕ := (s.tasks.map fun t ↦ t.phase.steps).sum

private theorem stepsLeft_le (s : Server) : stepsLeft s ≤ 3 * s.tasks.length := by
  have hstep : ∀ m ∈ s.tasks.map fun t ↦ t.phase.steps, m ≤ 3 := by
    intro m hm
    obtain ⟨t, -, rfl⟩ := List.mem_map.mp hm
    cases t.phase <;> decide
  have hsum := List.sum_le_card_nsmul _ 3 hstep
  rwa [List.length_map, smul_eq_mul, Nat.mul_comm] at hsum

private theorem stepsLeft_workerStep (k : ℕ) (h : workerStep app k s ≠ s) :
    stepsLeft (workerStep app k s) < stepsLeft s := by
  cases ht : s.tasks[k]? with
  | none => exact absurd (by rw [workerStep, ht]) h
  | some t =>
    have hset (phase : TaskPhase) (hphase : phase.steps < t.phase.steps) :
        ((s.tasks.set k { t with phase := phase }).map fun t ↦ t.phase.steps).sum < stepsLeft s :=
      sum_map_set_lt (fun t : Task ↦ t.phase.steps) ht hphase
    rw [workerStep, ht] at h ⊢
    cases hphase : t.phase with
    | queued =>
      simp only [hphase] at h ⊢
      split
      · next hearlier => exact absurd (if_pos hearlier) h
      · exact hset .started (by rw [hphase]; decide)
    | started =>
      simp only [hphase]
      exact hset .pushed (by rw [hphase]; decide)
    | pushed =>
      simp only [hphase]
      exact sum_map_eraseIdx_lt (fun t : Task ↦ t.phase.steps) ht (by rw [hphase]; decide)

/-- The first unfinished task can always take a step. -/
theorem workerStep_zero_ne (h : s.tasks ≠ []) : workerStep app 0 s ≠ s := by
  obtain ⟨t, ts, hts⟩ := List.exists_cons_of_ne_nil h
  intro heq
  have htasks := congrArg Server.tasks heq
  rw [workerStep, hts, List.getElem?_cons_zero] at htasks
  simp only [List.take_zero, List.any_nil, Bool.false_eq_true, if_false, List.set_cons_zero,
    List.eraseIdx_cons_zero] at htasks
  split at htasks
  · next hphase =>
    have hhead := congrArg Task.phase (List.cons.inj htasks).1
    cases hphase.symm.trans hhead.symm
  · next hphase =>
    have hhead := congrArg Task.phase (List.cons.inj htasks).1
    cases hphase.symm.trans hhead.symm
  · exact List.cons_ne_self _ _ htasks.symm

/-- What the workers leave alone. -/
theorem workers_leave (app : Application) (ks : List ℕ) (s : Server) :
    (ks.foldl (fun s k ↦ workerStep app k s) s).clients = s.clients ∧
      (ks.foldl (fun s k ↦ workerStep app k s) s).fcgiArenas = s.fcgiArenas := by
  refine List.foldlRecOn (motive := fun s' : Server ↦ s'.clients = s.clients ∧
    s'.fcgiArenas = s.fcgiArenas) ks _ ⟨rfl, rfl⟩ fun s' hs' k _ ↦ ?_
  rw [workerStep]
  split
  · exact hs'
  split
  · split
    · exact hs'
    · exact hs'
  · exact hs'
  · exact hs'

/-- A peer has asked for something. -/
def asked : List Event := [.accept [5], .client 5 ⟨true, false, false⟩ getRequest .again]

end Websockets

end Wasapi
