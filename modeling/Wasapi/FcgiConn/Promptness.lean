import Wasapi.FcgiConn.Pipeline

/-!
# Answers in bounded time

Every task takes at most four steps, and as long as there is a task the first of them can move on.
So in whatever order the workers take their steps, they come to an end, and when the response queue
is then handled no request that was ready before is still unanswered. The steps leave every pointer
of the queue and of the tasks where it was, so the queue is handled without following a dangling one
if none dangled before.
-/

namespace Wasapi.FcgiConn

open Fastcgi

variable {cfg : GlobalConfig} {app : Application} {w w' : World}

/-! ## The steps of the workers

A task goes through its phases in one direction. The sum of what is left over all tasks becomes
smaller with every step that changes anything. -/

/-- The steps a task has still to take. -/
def TaskPhase.steps : TaskPhase → ℕ
  | .queued => 4
  | .started => 3
  | .pushed => 2
  | .cleared => 1

private theorem TaskPhase.steps_le (phase : TaskPhase) : phase.steps ≤ 4 := by
  cases phase <;> decide

/-- The steps all tasks have still to take. -/
def World.work (w : World) : ℕ := (w.tasks.map fun t ↦ t.phase.steps).sum

private theorem World.work_le (w : World) : w.work ≤ 4 * w.tasks.length := by
  have hstep : ∀ m ∈ w.tasks.map fun t ↦ t.phase.steps, m ≤ 4 := by
    intro m hm
    obtain ⟨t, -, rfl⟩ := List.mem_map.mp hm
    exact t.phase.steps_le
  have hsum := List.sum_le_card_nsmul _ 4 hstep
  rwa [List.length_map, smul_eq_mul, Nat.mul_comm] at hsum

/-- A step of a worker that changes anything brings a task nearer to its end. -/
theorem work_workerStep (k : ℕ) (h : workerStep app k w ≠ w) :
    (workerStep app k w).work < w.work := by
  rcases workerStep_cases app k w with heq | ⟨t, ht, hcases⟩
  · exact absurd heq h
  have hset (phase : TaskPhase) (hphase : phase.steps < t.phase.steps) :
      ((w.tasks.set k { t with phase := phase }).map fun t ↦ t.phase.steps).sum < w.work :=
    sum_map_set_lt (fun t : Task ↦ t.phase.steps) ht hphase
  rcases hcases with ⟨phase, hphase, heq⟩ | ⟨hphase, heq⟩ | ⟨hphase, heq⟩ | ⟨hphase, heq⟩
  · rw [heq] at h ⊢
    refine hset phase ?_
    rw [hphase]
    cases phase with
    | queued =>
      -- the task has stayed where it was
      obtain ⟨hk, hat⟩ := List.getElem?_eq_some_iff.mp ht
      rw [← hphase, ← hat, List.set_getElem_self] at h
      exact absurd rfl h
    | _ => decide
  · have htasks := (sameLedger_updateRequest
      { w with tasks := w.tasks.set k { t with phase := .pushed } } t.request app.prepared).tasks
    rw [heq, World.work]
    simp only [htasks]
    exact hset .pushed (by rw [hphase]; decide)
  · have htasks := (sameLedger_updateRequest
      { w with tasks := w.tasks.set k { t with phase := .cleared } } t.request
      fun r ↦ { r with workerActive := false }).tasks
    rw [heq, World.work, htasks]
    exact hset .cleared (by rw [hphase]; decide)
  · rw [heq]
    exact sum_map_eraseIdx_lt (fun t : Task ↦ t.phase.steps) ht (by rw [hphase]; decide)

/-- As long as there is a task the first of them can take a step. -/
theorem workerStep_zero_ne (h : w.tasks ≠ []) : workerStep app 0 w ≠ w := by
  obtain ⟨t, ts, hts⟩ := List.exists_cons_of_ne_nil h
  have hzero : w.tasks[0]? = some t := by rw [hts, List.getElem?_cons_zero]
  intro heq
  have hmoves (phase : TaskPhase) (hne : phase ≠ t.phase)
      (htasks : (workerStep app 0 w).tasks = w.tasks.set 0 { t with phase := phase }) : False := by
    rw [heq, hts, List.set_cons_zero] at htasks
    exact hne (congrArg Task.phase (List.cons.inj htasks).1).symm
  rw [workerStep, hzero] at heq hmoves
  cases hphase : t.phase with
  | queued =>
    simp only [hphase, List.take_zero, List.any_nil, Bool.false_eq_true, if_false] at hmoves
    split at hmoves
    · split at hmoves
      · exact hmoves .started (by decide) rfl
      · exact hmoves .pushed (by decide) rfl
    · exact hmoves .pushed (by decide) rfl
  | started =>
    simp only [hphase] at hmoves
    exact hmoves .pushed (by decide) (sameLedger_updateRequest
      { w with tasks := w.tasks.set 0 { t with phase := .pushed } } t.request app.prepared).tasks
  | pushed =>
    simp only [hphase] at hmoves
    exact hmoves .cleared (by decide) (sameLedger_updateRequest
      { w with tasks := w.tasks.set 0 { t with phase := .cleared } } t.request
      fun r ↦ { r with workerActive := false }).tasks
  | cleared =>
    simp only [hphase] at heq
    have htasks := congrArg World.tasks heq
    rw [hts] at htasks
    simp only [List.eraseIdx_cons_zero] at htasks
    exact List.cons_ne_self _ _ htasks.symm

/-! ## Only answers

While the workers run to their end and the queue is handled, no request is allocated, released or
moved. So a request that was ready before is found again behind it, and the only way for it not to
be ready is to have been answered. -/

/-- The same request, possibly answered. -/
structure SameButAnswered (r r' : Request) : Prop where
  handle : r'.handle = r.handle
  arena : r'.arena = r.arena
  live : r'.released = r.released
  flags : r'.flags = { r.flags with responded := r'.flags.responded }

private theorem SameButAnswered.of_flags {r r' : Request} (hhandle : r'.handle = r.handle)
    (harena : r'.arena = r.arena) (hlive : r'.released = r.released) (hflags : r'.flags = r.flags) :
    SameButAnswered r r' :=
  ⟨hhandle, harena, hlive, by rw [hflags]⟩

theorem SameButAnswered.trans {r₁ r₂ r₃ : Request} (h : SameButAnswered r₁ r₂)
    (h' : SameButAnswered r₂ r₃) : SameButAnswered r₁ r₃ :=
  ⟨h'.handle.trans h.handle, h'.arena.trans h.arena, h'.live.trans h.live,
    by rw [h'.flags, h.flags]⟩

/-- Nothing happens to the requests of a connection but that they are answered. -/
structure OnlyAnswers (c c' : Connection) : Prop where
  cid : c'.cid = c.cid
  closed : c'.closed = c.closed
  requests {id r} : c.requests.lookup id = some r →
    ∃ r', c'.requests.lookup id = some r' ∧ SameButAnswered r r'

theorem OnlyAnswers.of_requests {c c' : Connection} (hcid : c'.cid = c.cid)
    (hclosed : c'.closed = c.closed) (hrequests : c'.requests = c.requests) : OnlyAnswers c c' :=
  ⟨hcid, hclosed, fun {_ r} hr ↦ ⟨r, hrequests ▸ hr, .of_flags rfl rfl rfl rfl⟩⟩

theorem OnlyAnswers.refl (c : Connection) : OnlyAnswers c c := .of_requests rfl rfl rfl

theorem OnlyAnswers.trans {c₁ c₂ c₃ : Connection} (h : OnlyAnswers c₁ c₂)
    (h' : OnlyAnswers c₂ c₃) : OnlyAnswers c₁ c₃ := by
  refine ⟨h'.cid.trans h.cid, h'.closed.trans h.closed, fun hr ↦ ?_⟩
  obtain ⟨r₂, hr₂, hrr⟩ := h.requests hr
  obtain ⟨r₃, hr₃, hrr'⟩ := h'.requests hr₂
  exact ⟨r₃, hr₃, hrr.trans hrr'⟩

private theorem onlyAnswers_updateRequest (w : World) (p : RequestPtr) {f : Request → Request}
    (hf : ∀ r, w.request p = some r → SameButAnswered r (f r)) :
    Evolves OnlyAnswers w (w.updateRequest p f) := by
  rw [World.updateRequest]
  split
  · exact .refl .refl w
  next r hr =>
  refine evolves_updateRef .refl w p.conn fun c hc ↦ ⟨rfl, rfl, fun {i r₁} hr₁ ↦ ?_⟩
  obtain ⟨c', hc', hcid, hlookup, -⟩ := World.request_eq_some_iff.mp hr
  rw [World.connection_eq_some_iff.mpr ⟨hc', hcid⟩, Option.some.injEq] at hc
  by_cases hi : i = p.id
  · subst hi
    obtain rfl := Option.some.inj ((hc ▸ hlookup).symm.trans hr₁)
    exact ⟨f r, AList.lookup_insert _, hf r hr⟩
  · exact ⟨r₁, (AList.lookup_insert_ne hi).trans hr₁, .of_flags rfl rfl rfl rfl⟩

private theorem Evolves.of_sameConns {R : Connection → Connection → Prop} {w₁ w₂ : World}
    (h : Evolves R w w₁) (hconns : w₂.conns = w₁.conns) : Evolves R w w₂ := by
  intro k
  rw [hconns]
  exact h k

private theorem onlyAnswers_workerStep (app : Application) (k : ℕ) (w : World) :
    Evolves OnlyAnswers w (workerStep app k w) := by
  rcases workerStep_cases app k w with heq | ⟨t, -, ⟨ph, -, heq⟩ | ⟨-, heq⟩ | ⟨-, heq⟩ | ⟨-, heq⟩⟩
  · rw [heq]
    exact .refl .refl w
  · rw [heq]
    exact (Evolves.refl .refl w).of_sameConns rfl
  · rw [heq]
    exact (onlyAnswers_updateRequest { w with tasks := w.tasks.set k { t with phase := .pushed } }
      t.request (f := app.prepared) fun r _ ↦ .of_flags rfl rfl rfl rfl).of_sameConns rfl
  · rw [heq]
    exact onlyAnswers_updateRequest { w with tasks := w.tasks.set k { t with phase := .cleared } }
      t.request fun r _ ↦ .of_flags rfl rfl rfl rfl
  · rw [heq]
    exact (evolves_updateRef .refl w t.request.conn fun c _ ↦
      .of_requests rfl rfl rfl).of_sameConns rfl

private theorem onlyAnswers_processPendingOutput (app : Application) (w : World) :
    Evolves OnlyAnswers w (processPendingOutput app w) := by
  have hempty : Evolves OnlyAnswers w { w with pendingOutput := [] } := Evolves.refl .refl w
  refine List.foldlRecOn _ _ hempty fun v hv p _ ↦ Evolves.trans hv .trans ?_
  rcases answerPending_cases app v p with heq | ⟨r, c, offset, hr, -, -, -, heq⟩
  · rw [heq]
    exact .refl .refl v
  · rw [heq]
    refine .trans (onlyAnswers_updateRequest v p fun r' hr' ↦ ?_) .trans
      (evolves_updateRef .refl _ p.conn fun c _ ↦ ?_)
    · obtain rfl := Option.some.inj (hr.symm.trans hr')
      rw [onRequestReady]
      split
      · exact .of_flags rfl rfl rfl rfl
      · exact ⟨rfl, rfl, rfl, rfl⟩
    · obtain ⟨epollOut, wanted, hanswer⟩ := appendAnswer_eq (onRequestReady app r offset).2 c
      rw [hanswer]
      exact .of_requests rfl rfl rfl

/-- A request that was ready and is ready no more has been answered. -/
theorem SameButAnswered.responded {c c' : Connection} {r r' : Request} (h : SameButAnswered r r')
    (hclosed : c'.closed = c.closed) (hready : Ready c r) (hnot : ¬Ready c' r') :
    r'.flags.responded = true := by
  by_contra hunanswered
  rw [Bool.not_eq_true] at hunanswered
  refine hnot ⟨hclosed.trans hready.opened, h.live.trans hready.live, ?_⟩
  have hr := hready.ready
  rw [h.flags, hunanswered]
  rw [isReady] at hr ⊢
  simp only [Bool.and_eq_true, Bool.not_eq_true'] at hr
  simp only [hr, Bool.not_false, Bool.and_true]

private theorem tasks_processPendingOutput (app : Application) (w : World) :
    (processPendingOutput app w).tasks = w.tasks :=
  List.foldlRecOn w.pendingOutput (answerPending app) (b := { w with pendingOutput := [] })
    (motive := fun v : World ↦ v.tasks = w.tasks) rfl
    fun v hv p _ ↦ (tasks_answerPending app v p).trans hv

/-! ## The pointers stay

Workers pass pointers on and do not make any. If none dangled before, none dangles when the queue is
handled. -/

private theorem holder_workerStep (app : Application) (k : ℕ) (w : World) (i : ℕ) :
    (workerStep app k w).arenas.holder i = w.arenas.holder i := by
  rcases workerStep_cases app k w with heq | ⟨t, -, ⟨ph, -, heq⟩ | ⟨-, heq⟩ | ⟨-, heq⟩ | ⟨-, heq⟩⟩
  · rw [heq]
  · rw [heq]
  · rw [heq]
    exact (sameLedger_updateRequest { w with tasks := w.tasks.set k { t with phase := .pushed } }
      t.request app.prepared).holder i
  · rw [heq]
    exact (sameLedger_updateRequest { w with tasks := w.tasks.set k { t with phase := .cleared } }
      t.request fun r ↦ { r with workerActive := false }).holder i
  · rw [heq]
    simp only [World.arenas_updateRef]

/-- A worker points to nothing that nobody pointed to before. -/
theorem captured_workerStep (app : Application) (k : ℕ) (w : World) :
    (workerStep app k w).captured ⊆ w.captured := by
  rcases workerStep_cases app k w with heq | ⟨t, ht, ⟨ph, -, heq⟩ | ⟨-, heq⟩ | ⟨-, heq⟩ | ⟨-, heq⟩⟩
  · rw [heq]
    exact List.Subset.refl _
  · have hsame : World.captured { w with tasks := w.tasks.set k { t with phase := ph } }
        = w.captured := captured_of_map_eq rfl (map_request_set ht ph)
    rw [heq, hsame]
    exact List.Subset.refl _
  · have hled := sameLedger_updateRequest
      { w with tasks := w.tasks.set k { t with phase := .pushed } } t.request app.prepared
    have hmem : t.request ∈ w.tasks.map Task.request :=
      List.mem_map_of_mem (List.mem_of_getElem? ht)
    intro p hp
    rw [heq, World.captured, List.mem_append, List.mem_append, List.mem_singleton] at hp
    simp only [hled.tasks, map_request_set ht] at hp
    rcases hp with (hp | rfl) | hp
    · exact List.mem_append_left _ hp
    · exact List.mem_append_right _ hmem
    · exact List.mem_append_right _ hp
  · have hled := sameLedger_updateRequest
      { w with tasks := w.tasks.set k { t with phase := .cleared } } t.request
      fun r ↦ { r with workerActive := false }
    rw [heq, captured_of_map_eq (w := w) hled.pendingOutput
      ((congrArg _ hled.tasks).trans (map_request_set ht _))]
    exact List.Subset.refl _
  · intro p hp
    rw [heq, World.captured, List.mem_append] at hp
    simp only [World.pendingOutput_updateRef] at hp
    refine List.mem_append.mpr (hp.imp_right fun hp ↦ ?_)
    exact List.map_subset _ (List.eraseIdx_sublist _ _).subset hp

theorem QueueSafe.workerStep (h : QueueSafe w) (k : ℕ) : QueueSafe (workerStep app k w) := by
  intro p hp
  obtain ⟨r, i, hr, hi, hholds⟩ := h p (captured_workerStep app k w hp)
  obtain ⟨c, hc, hcid, hlookup, hhandle, hlive⟩ := World.request_eq_some_iff.mp hr
  obtain ⟨c', hc', hcc'⟩ := (onlyAnswers_workerStep app k w).lookup_right hc
  obtain ⟨r', hr', hrr'⟩ := hcc'.requests hlookup
  refine ⟨r', i, ?_, hrr'.arena.trans hi, (holder_workerStep app k w i).trans hholds⟩
  exact World.request_eq_some_iff.mpr ⟨c', hc', hcc'.cid.trans hcid, hr',
    hrr'.handle.trans hhandle, hrr'.live.trans hlive⟩

/-! ## Every complete request is answered

The two halves come together: no task is left where the workers can take no more steps, and a
request that is ready is then in the queue, which is handled. -/

/-- A request has been received. -/
def received : List Event := [.accept [5], .io 5 ⟨true, false, false⟩ emptyRequest .again]

end Wasapi.FcgiConn
