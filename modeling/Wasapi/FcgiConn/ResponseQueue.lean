import Wasapi.FcgiConn.Release

/-!
# The response queue

A worker pushes the request it has prepared on `g_pending_output`, clears `worker_active` and
leaves; from then on only the queue knows of the request. The sweep of `handle_io` and both ways of
closing a connection decide by the flags and the counters, so a request that is aborted, times out
or loses its peer in that moment is released while the queue still points to it.

`QueueGuard` is the check these paths lack. In a run in which it never fails no pointer dangles.
-/

namespace Wasapi.FcgiConn

open Fastcgi

/-- Every pointer in `g_pending_output` or captured by an unfinished task leads to a request that is
still in the map of a connection in `g_conns` and still holds its arena. -/
def QueueSafe (w : World) : Prop :=
  ∀ p ∈ w.captured, ∃ r i, w.request p = some r ∧ r.arena = some i ∧
    w.arenas.holder i = some p.handle

section

variable (cfg : GlobalConfig)

/-- The releases of an event spare the requests that are still pointed to. -/
def QueueGuard (w : World) : Event → Prop
  | .io fd events data ending =>
    (w.conns.lookup fd).isSome →
      let served := serveIo cfg fd events data ending w
      let swept := queueClose fd (sweep cfg fd served)
      Meets (sweepRequest cfg fd) (SweepSafe fd) served (requestIds fd served) ∧
        Meets (drainTurn cfg) (DrainSafe cfg) { swept with closeQueue := [] } swept.closeQueue
  | .housekeeping =>
    let w := w.conns.keys.foldl (timeoutRequests cfg) w
    Meets (closeConnection cfg) (CloseSafe cfg) w
      (w.conns.keys.filter fun fd ↦ (w.conns.lookup fd).any shouldCloseConnection)
  | _ => True

instance (w : World) (e : Event) : Decidable (QueueGuard cfg w e) := by
  rcases e with _ | _ <;> dsimp only [QueueGuard] <;> infer_instance

end

section

variable {cfg : GlobalConfig} {app : Application} {w : World}

theorem Sound.queueSafe (h : Sound .steady w) : QueueSafe w := by
  intro p hp
  obtain ⟨⟨c₁, hc₁, hcid⟩, hlive⟩ := h.captured hp
  obtain ⟨c, r, hs, hhandle, hreleased⟩ := hlive.resolve_left fun hf ↦ hf
  obtain rfl := Option.some.inj (hs.conn.symm.trans hc₁)
  obtain ⟨i, hi, hholds⟩ := h.arena hs hreleased
  refine ⟨r, i, ?_, hi, hhandle ▸ hholds⟩
  exact World.request_eq_some_iff.mpr ⟨c, hs.conn, hcid, hs.request, hhandle, hreleased⟩

theorem sound_initial (bases : List UInt64) (capacity : UInt64) :
    Sound .steady (initial bases capacity) := by
  have hnone : ∀ fd, (initial bases capacity).conns.lookup fd = none := fun fd ↦
    AList.lookup_empty fd
  have hempty : ∀ {fd c id r}, ¬Stored (initial bases capacity) fd c id r := by
    rintro fd c id r ⟨hc, -⟩
    rw [hnone] at hc
    cases hc
  refine ⟨⟨?_, ?_, ?_, ?_, ?_, ?_, ?_, ?_, ?_, ?_, ?_, ?_, List.nodup_nil⟩, ?_, ?_⟩
  iterate 3 exact fun hs ↦ (hempty hs).elim
  · exact fun hs ↦ (hempty hs).elim
  iterate 3 exact fun hs ↦ (hempty hs).elim
  · exact False.elim
  · exact fun hs ↦ (hempty hs).elim
  iterate 2 exact fun hi ↦ (nomatch hi)
  · exact fun hi ↦ (nomatch hi)
  · intro fd c hc
    rw [hnone] at hc
    cases hc
  · exact fun hp ↦ (nomatch hp)

/-! ## The handlers

Each handler is a sequence of steps that serve, which keep the invariant, and of releases, which
keep it if the guard holds. -/

theorem Sound.handleIo (h : Sound .steady w) {fd : ℤ} {events : IoEvents} {data : Bytes}
    {ending : RecvEnd} (hguard : QueueGuard cfg w (.io fd events data ending)) :
    Sound .steady (handleIo cfg fd events data ending w) := by
  rw [FcgiConn.handleIo]
  split
  · exact h
  next c hc =>
  obtain ⟨hsweep, hdrain⟩ := hguard (by rw [hc, Option.isSome_some])
  have hswept := (h.serves (serves_serveIo cfg fd events data ending w)).sweep hsweep
  have hqueued : Sound .steady
      (queueClose fd (FcgiConn.sweep cfg fd (serveIo cfg fd events data ending w))) := by
    rw [queueClose]
    split
    · exact hswept.of_ledger (Evolves.refl .refl _) ⟨rfl, rfl, fun _ ↦ rfl, rfl, rfl, [], rfl⟩
    · exact hswept
  exact hqueued.drainCloseQueue hdrain

theorem Sound.timeoutRequest (h : Sound .steady w) (fd : ℤ) (id : UInt16) :
    Sound .steady (timeoutRequest cfg fd w id) := by
  refine h.updateConn fun c _ ↦ ?_
  split
  · exact .refl c
  next r hr =>
  split
  · refine ⟨.of_insert hr ?_ rfl rfl, rfl⟩
    exact ⟨⟨rfl, fun _ ↦ rfl, fun _ _ ↦ rfl⟩, rfl, rfl, rfl, rfl⟩
  · exact .refl c

theorem Sound.housekeepingCloseIdle (h : Sound .steady w)
    (hguard : QueueGuard cfg w .housekeeping) : Sound .steady (housekeepingCloseIdle cfg w) := by
  have htimeouts : ∀ (ids : List UInt16) {w : World} (fd : ℤ), Sound .steady w →
      Sound .steady (ids.foldl (FcgiConn.timeoutRequest cfg fd) w) := by
    intro ids w fd hw
    exact List.foldlRecOn ids _ hw fun w hw id _ ↦ hw.timeoutRequest fd id
  have htimedOut : Sound .steady (w.conns.keys.foldl (timeoutRequests cfg) w) :=
    List.foldlRecOn _ _ h fun w hw fd _ ↦ htimeouts (requestIds fd w) fd hw
  exact hguard.foldl (fun _ _ hw hsafe ↦ hw.closeConnection hsafe) htimedOut

theorem Sound.acceptConnection (h : Sound .steady w) (cfd : ℤ) :
    Sound .steady (acceptConnection cfd w) := by
  rw [FcgiConn.acceptConnection]
  cases hc : w.conns.lookup cfd with
  | some c =>
    refine h.evolve (.of_puts .refl hc (puts_of_conns rfl) ⟨.of_requests rfl fun _ ↦ rfl, rfl⟩)
      (fun _ ↦ rfl) rfl rfl (List.Subset.refl _) fun _ ↦ rfl
  | none =>
    exact h.open hc (puts_of_conns rfl) rfl rfl (fun _ ↦ rfl) rfl rfl rfl rfl

theorem Sound.pauseAccept (h : Sound .steady w) : Sound .steady (pauseAccept w) :=
  h.of_ledger (Evolves.refl .refl w) ⟨rfl, rfl, fun _ ↦ rfl, rfl, rfl, [], rfl⟩

theorem Sound.handleNewConnections (h : Sound .steady w) (cfds : List ℤ) :
    Sound .steady (handleNewConnections cfds w) :=
  handleNewConnections_invariant (fun _ hw ↦ hw.pauseAccept)
    (fun _ cfd _ hw ↦ hw.acceptConnection cfd) h cfds

theorem progress_onRequestReady (r : Request) (offset : UInt64) :
    Progress r (onRequestReady app r offset).1 := by
  rw [onRequestReady]
  split
  · exact .refl r
  · exact ⟨⟨rfl, fun _ ↦ rfl, fun _ _ ↦ rfl⟩, rfl, rfl, rfl, rfl⟩

theorem Sound.answerPending (h : Sound .steady w) (p : RequestPtr) :
    Sound .steady (answerPending app w p) := by
  rcases answerPending_cases app w p with heq | ⟨r, c, offset, hr, -, -, -, heq⟩
  · rwa [heq]
  · rw [heq]
    refine (h.updateRequest fun r' hr' ↦ ?_).updateRef fun c _ ↦ ?_
    · rw [hr, Option.some.injEq] at hr'
      subst hr'
      exact progress_onRequestReady r _
    · obtain ⟨epollOut, wanted, hanswer⟩ := appendAnswer_eq (onRequestReady app r offset).2 c
      rw [hanswer]
      exact ⟨.of_requests rfl fun _ ↦ rfl, rfl⟩

theorem Sound.processPendingOutput (h : Sound .steady w) :
    Sound .steady (processPendingOutput app w) := by
  refine List.foldlRecOn _ _ ?_ fun w hw p _ ↦ hw.answerPending p
  refine h.evolve (Evolves.refl .refl w) (fun _ ↦ rfl) rfl rfl ?_ fun _ ↦ rfl
  exact List.subset_append_right _ _

/-! ## The workers

A task ends by counting down the workers of its connection. The counter and the list of tasks go
down together, which is why the counter can be trusted while `worker_active` cannot. -/

theorem captured_of_map_eq {w' : World} (hpending : w'.pendingOutput = w.pendingOutput)
    (htasks : w'.tasks.map Task.request = w.tasks.map Task.request) :
    w'.captured = w.captured := by
  rw [World.captured, World.captured, hpending, htasks]

private theorem tasksOf_of_map_eq {w' : World}
    (htasks : w'.tasks.map Task.request = w.tasks.map Task.request) (p : ConnRef) :
    w'.tasksOf p = w.tasksOf p := by
  have hcount (ts : List Task) : ts.countP (fun t ↦ t.request.conn = p)
      = (ts.map Task.request).countP (fun q ↦ q.conn = p) := by
    rw [List.countP_map]
    rfl
  rw [World.tasksOf, World.tasksOf, hcount, hcount, htasks]

theorem map_request_set {ts : List Task} {k : ℕ} {t : Task} (ht : ts[k]? = some t)
    (ph : TaskPhase) :
    (ts.set k { t with phase := ph }).map Task.request = ts.map Task.request := by
  rw [List.map_set]
  refine List.ext_getElem? fun i ↦ ?_
  rw [List.getElem?_set]
  split
  · next hi =>
    subst hi
    rw [List.length_map, List.getElem?_map, ht, if_pos (List.getElem?_eq_some_iff.mp ht).1]
    rfl
  · rfl

/-- The end of a task: the counter of its connection and the list of tasks go down together. -/
theorem Sound.endTask (h : Sound .steady w) {k : ℕ} {t : Task} (ht : w.tasks[k]? = some t) :
    Sound .steady
      { w.updateRef t.request.conn (fun c ↦ { c with activeWorkers := c.activeWorkers - 1 }) with
        tasks := w.tasks.eraseIdx k } := by
  set w' : World :=
    { w.updateRef t.request.conn (fun c ↦ { c with activeWorkers := c.activeWorkers - 1 }) with
      tasks := w.tasks.eraseIdx k } with hw'
  have hconns : Evolves Keeps w w' :=
    evolves_updateRef (fun c ↦ .of_requests rfl fun _ ↦ rfl) w t.request.conn
      fun c _ ↦ .of_requests rfl fun _ ↦ rfl
  obtain ⟨hlt, hget⟩ := List.getElem?_eq_some_iff.mp ht
  have hcount (q : ConnRef) :
      w.tasksOf q = w'.tasksOf q + if t.request.conn = q then 1 else 0 := by
    rw [World.tasksOf, World.tasksOf,
      ← (List.getElem_cons_eraseIdx_perm hlt).countP_eq, List.countP_cons, hget]
    simp only [decide_eq_true_eq, hw']
  refine ⟨h.toOwned.evolve hconns (fun i ↦ ?_) ?_ ?_, ?_, ?_⟩
  · simp [hw']
  · simp [hw']
  · simp [hw']
  · intro fd c' hc'
    rw [hw'] at hc'
    simp only at hc'
    rw [World.lookup_updateRef, Option.map_eq_some_iff] at hc'
    obtain ⟨c, hc, rfl⟩ := hc'
    have hworkers := h.workers hc
    rw [hcount] at hworkers
    split
    · next heq =>
      rw [if_pos (by rw [heq.1, heq.2])] at hworkers
      simp only [hworkers, Nat.cast_add, Nat.cast_one, add_sub_cancel_right]
    · next hne =>
      rw [if_neg, Nat.add_zero] at hworkers
      · exact hworkers
      · intro heq
        rw [heq] at hne
        exact hne ⟨rfl, rfl⟩
  · intro p hp
    refine hconns.valid (h.captured ?_)
    have hpending : w'.pendingOutput = w.pendingOutput := by simp [hw']
    rw [World.captured, hpending, List.mem_append] at hp
    refine List.mem_append.mpr (hp.imp_right fun hp ↦ ?_)
    exact List.map_subset _ (List.eraseIdx_sublist _ _).subset hp

theorem Sound.workerStep (h : Sound .steady w) (k : ℕ) : Sound .steady (workerStep app k w) := by
  rcases workerStep_cases app k w with heq | ⟨t, ht, hcases⟩
  · rwa [heq]
  have hmem : t.request ∈ w.captured :=
    List.mem_append_right _ (List.mem_map_of_mem (List.mem_of_getElem? ht))
  -- moving on within the lambda changes no pointer
  have hphase (ph : TaskPhase) :
      Sound .steady { w with tasks := w.tasks.set k { t with phase := ph } } := by
    refine h.evolve (Evolves.refl .refl w) (fun _ ↦ rfl) rfl rfl ?_ fun p ↦ ?_
    · have heq : World.captured { w with tasks := w.tasks.set k { t with phase := ph } }
          = w.captured := captured_of_map_eq rfl (map_request_set ht ph)
      rw [heq]
      exact List.Subset.refl _
    · exact tasksOf_of_map_eq (map_request_set ht ph) p
  rcases hcases with ⟨ph, -, heq⟩ | ⟨-, heq⟩ | ⟨-, heq⟩ | ⟨-, heq⟩
  · rw [heq]
    exact hphase ph
  · rw [heq]
    set w₁ : World := { w with tasks := w.tasks.set k { t with phase := .pushed } } with hw₁
    have hled := sameLedger_updateRequest w₁ t.request app.prepared
    have hprepared : Sound .steady (w₁.updateRequest t.request app.prepared) :=
      (hphase .pushed).updateRequest fun r _ ↦
        ⟨⟨rfl, fun hr ↦ hr, fun hr ↦ hr⟩, rfl, rfl, rfl, rfl⟩
    refine hprepared.evolve (Evolves.refl .refl _) (fun _ ↦ rfl) rfl rfl ?_ fun _ ↦ rfl
    rw [captured_of_map_eq (w := w) (hled.pendingOutput.trans rfl)
      ((congrArg _ hled.tasks).trans (map_request_set ht _))]
    intro p hp
    rw [World.captured, List.mem_append, List.mem_append] at hp
    rcases hp with (hp | hp) | hp
    · exact List.mem_append_left _ hp
    · rwa [List.mem_singleton.mp hp]
    · refine List.mem_append_right _ ?_
      simp only at hp
      rwa [hled.tasks, hw₁, map_request_set ht] at hp
  · rw [heq]
    exact (hphase .cleared).updateRequest fun r _ ↦
      ⟨⟨rfl, fun hr ↦ hr, fun hr ↦ hr⟩, rfl, rfl, rfl, rfl⟩
  · rw [heq]
    exact h.endTask ht

/-! ## The websocket tasks

They take and return arenas that belong to nobody here. The holder of each is remembered, and no
request is touched. -/

/-- Arenas change hands among the websocket tasks. -/
theorem Owned.reassign (h : Owned .steady w) {m : ArenaManager} {ws : List (ℕ × ℕ)} {n : ℕ}
    (hnext : w.nextHandle ≤ n)
    (hkeep : ∀ {i fd c id r}, Stored w fd c id r → w.arenas.holder i = some r.handle →
      m.holder i = some r.handle)
    (hholder : ∀ {i k}, (i, k) ∈ ws → m.holder i = some k) (hlt : ∀ {i k}, (i, k) ∈ ws → k < n)
    (hfresh : ∀ {i k fd c id r}, (i, k) ∈ ws → Stored w fd c id r → r.handle ≠ k)
    (hnodup : ws.Nodup) :
    Owned .steady { w with arenas := m, wsArenas := ws, nextHandle := n } := by
  have hstored : ∀ {fd c id r},
      Stored { w with arenas := m, wsArenas := ws, nextHandle := n } fd c id r →
        Stored w fd c id r := fun hs ↦ ⟨hs.conn, hs.request⟩
  constructor
  case keyed => exact fun hs ↦ h.keyed (hstored hs)
  case connPtr => exact fun hs ↦ h.connPtr (hstored hs)
  case handle_lt => exact fun hs ↦ (h.handle_lt (hstored hs)).trans_le hnext
  case handle_inj => exact fun hs hs' ↦ h.handle_inj (hstored hs) (hstored hs')
  case settled => exact fun hs ↦ h.settled (hstored hs)
  case arena =>
    intro fd c id r hs hreleased
    obtain ⟨i, hi, hholds⟩ := h.arena (hstored hs) hreleased
    exact ⟨i, hi, hkeep (hstored hs) hholds⟩
  case released_iff => exact fun hs ↦ h.released_iff (hstored hs)
  case released_stored => exact False.elim
  case released_responded => exact fun hs ↦ h.released_responded (hstored hs)
  case ws_holder => exact hholder
  case ws_lt => exact hlt
  case ws_fresh => exact fun hi hs ↦ hfresh hi (hstored hs)
  case ws_nodup => exact hnodup

variable (cfg app) in
theorem Owned.wsTake (h : Owned .steady w) : Owned .steady (step cfg app w .wsTake) := by
  rw [step]
  split
  · exact h
  next i m hget =>
  have hfree := ArenaManager.holder_of_get hget
  have hholder := ArenaManager.holder_get hget
  have hother : ∀ {j n}, w.arenas.holder j = some n → m.holder j = some n := by
    intro j n hj
    rw [hholder, if_neg, hj]
    rintro rfl
    rw [hfree] at hj
    cases hj
  have hmem : ∀ {j k}, (j, k) ∈ w.wsArenas ++ [(i, w.nextHandle)] →
      (j, k) ∈ w.wsArenas ∨ j = i ∧ k = w.nextHandle := by
    intro j k hjk
    rw [List.mem_append, List.mem_singleton, Prod.mk.injEq] at hjk
    exact hjk
  refine h.reassign (Nat.le_succ _) (fun hs hj ↦ hother hj) (fun hjk ↦ ?_) (fun hjk ↦ ?_)
    (fun hjk hs ↦ ?_) ?_
  · rcases hmem hjk with hjk | ⟨rfl, rfl⟩
    · exact hother (h.ws_holder hjk)
    · rw [hholder, if_pos rfl]
  · rcases hmem hjk with hjk | ⟨rfl, rfl⟩
    · exact Nat.lt_succ_of_lt (h.ws_lt hjk)
    · exact Nat.lt_succ_self _
  · rcases hmem hjk with hjk | ⟨rfl, rfl⟩
    · exact h.ws_fresh hjk hs
    · exact (h.handle_lt hs).ne
  · refine List.nodup_append.mpr ⟨h.ws_nodup, List.nodup_singleton _, ?_⟩
    rintro ⟨j, k⟩ hjk q hq rfl
    rw [List.mem_singleton, Prod.mk.injEq] at hq
    exact (h.ws_lt hjk).ne hq.2

variable (cfg app) in
theorem Owned.wsReturn (h : Owned .steady w) (k : ℕ) :
    Owned .steady (step cfg app w (.wsReturn k)) := by
  rw [step]
  split
  · exact h
  next i n hk =>
  obtain ⟨hlt, hget⟩ := List.getElem?_eq_some_iff.mp hk
  have hmem : (i, n) ∈ w.wsArenas := List.mem_of_getElem? hk
  have hsub : ∀ {j m}, (j, m) ∈ w.wsArenas.eraseIdx k → (j, m) ∈ w.wsArenas := fun hj ↦
    (List.eraseIdx_sublist _ _).subset hj
  -- an arena held by someone else is another arena
  have hother : ∀ {j m}, w.arenas.holder j = some m → m ≠ n →
      (w.arenas.release i).holder j = some m := by
    intro j m hj hm
    rw [ArenaManager.holder_release, if_neg, hj]
    rintro rfl
    exact hm (Option.some.inj (hj.symm.trans (h.ws_holder hmem)))
  refine h.reassign le_rfl (fun hs hj ↦ hother hj (h.ws_fresh hmem hs)) (fun hjm ↦ ?_)
    (fun hjm ↦ h.ws_lt (hsub hjm)) (fun hjm hs ↦ h.ws_fresh (hsub hjm) hs)
    (h.ws_nodup.sublist (List.eraseIdx_sublist _ _))
  rename_i j m
  have hne : j ≠ i := by
    rintro rfl
    obtain rfl := Option.some.inj ((h.ws_holder (hsub hjm)).symm.trans (h.ws_holder hmem))
    have hperm := List.getElem_cons_eraseIdx_perm hlt
    rw [hget] at hperm
    exact (List.nodup_cons.mp (hperm.nodup_iff.mpr h.ws_nodup)).1 hjm
  rw [ArenaManager.holder_release, if_neg hne]
  exact h.ws_holder (hsub hjm)

/-- Nothing but the arenas has changed. -/
theorem Sound.of_owned (h : Sound .steady w) {w' : World} (howned : Owned .steady w')
    (hconns : w'.conns = w.conns) (htasks : w'.tasks = w.tasks)
    (hpending : w'.pendingOutput = w.pendingOutput) : Sound .steady w' := by
  refine ⟨howned, fun {fd c} hc ↦ ?_, fun {p} hp ↦ ?_⟩
  · rw [World.tasksOf, htasks]
    exact h.workers (hconns ▸ hc)
  · rw [World.captured, hpending, htasks] at hp
    obtain ⟨⟨c, hc, hcid⟩, hlive⟩ := h.captured hp
    refine ⟨⟨c, hconns ▸ hc, hcid⟩, hlive.imp_right ?_⟩
    rintro ⟨c, r, hs, hvalid⟩
    exact ⟨c, r, ⟨hconns ▸ hs.conn, hs.request⟩, hvalid⟩

theorem Sound.wsTake (h : Sound .steady w) : Sound .steady (step cfg app w .wsTake) := by
  have howned := h.toOwned.wsTake cfg app
  rw [FcgiConn.step] at howned ⊢
  split at howned
  · exact h
  · exact h.of_owned howned rfl rfl rfl

theorem Sound.wsReturn (h : Sound .steady w) (k : ℕ) :
    Sound .steady (step cfg app w (.wsReturn k)) := by
  have howned := h.toOwned.wsReturn cfg app k
  rw [FcgiConn.step] at howned ⊢
  split at howned
  · exact h
  · exact h.of_owned howned rfl rfl rfl

/-! ## Runs -/

theorem Sound.rehash (h : Sound .steady w) (fds : List ℤ) (fd : ℤ) (ids : List UInt16) :
    Sound .steady (step cfg app w (.rehash fds fd ids)) := by
  have hfds : Sound .steady { w with conns := reorder w.conns fds } := by
    refine h.of_ledger (fun k ↦ ?_) ⟨rfl, rfl, fun _ ↦ rfl, rfl, rfl, [], rfl⟩
    simp only
    rw [lookup_reorder]
    exact Evolves.refl .refl w k
  exact hfds.updateConn fun c _ ↦ ⟨.of_requests rfl fun id ↦ lookup_reorder _ _ _, rfl⟩

/-- **One event keeps the invariant** when its guard holds. -/
theorem Sound.step (h : Sound .steady w) (e : Event) (hguard : QueueGuard cfg w e) :
    Sound .steady (step cfg app w e) := by
  cases e with
  | io fd events data ending => exact h.handleIo hguard
  | housekeeping => exact h.housekeepingCloseIdle hguard
  | pendingOutput => exact h.processPendingOutput
  | accept cfds => exact h.handleNewConnections cfds
  | worker k => exact h.workerStep k
  | outside elapsed sends =>
    exact h.of_ledger (Evolves.refl .refl w) ⟨rfl, rfl, fun _ ↦ rfl, rfl, rfl, [], rfl⟩
  | wsTake => exact h.wsTake
  | wsReturn k => exact h.wsReturn k
  | rehash fds fd ids => exact h.rehash fds fd ids

/-- **No pointer dangles as long as releases look at who points there.** -/
theorem always_queueSafe (cfg : GlobalConfig) (app : Application) (bases : List UInt64)
    (capacity : UInt64) (events : List Event)
    (hguard : Meets (FcgiConn.step cfg app) (QueueGuard cfg) (initial bases capacity) events) :
    Always (FcgiConn.step cfg app) QueueSafe (initial bases capacity) events :=
  (hguard.always (fun _ e hw he ↦ hw.step e he) (sound_initial bases capacity)).mono
    fun _ hw ↦ hw.queueSafe

end

/-- A request without parameters and without input: BEGIN_REQUEST, PARAMS and STDIN with id 1. -/
def emptyRequest : Bytes :=
  [1, 1, 0, 1, 0, 8, 0, 0, 0, 1, 0, 0, 0, 0, 0, 0] ++ [1, 4, 0, 1, 0, 0, 0, 0] ++
    [1, 5, 0, 1, 0, 0, 0, 0]

/-- An application that does nothing. -/
def silent : Application := ⟨fun r ↦ r, fun _ ↦ []⟩

/-- A request is received, and a worker runs its task to the end. -/
def receiveAndPrepare : List Event :=
  [.accept [5], .io 5 ⟨true, false, false⟩ emptyRequest .again, .worker 0, .worker 0, .worker 0,
    .worker 0]

def peerClosesEarly : List Event := receiveAndPrepare ++ [.io 5 ⟨true, false, false⟩ [] .eof]

def answeredInTime : List Event :=
  receiveAndPrepare ++ [.pendingOutput, .outside 1 [.sent 99], .io 5 ⟨false, true, false⟩ [] .again]

theorem always_queueSafe_answeredInTime :
    Always (step {} silent) QueueSafe (initial [0x10000] 0x10000) answeredInTime :=
  always_queueSafe {} silent [0x10000] 0x10000 answeredInTime (by decide +kernel)

/-- The peer closes while the request waits in the queue. -/
theorem not_always_queueSafe_peerClosesEarly :
    ¬Always (step {} silent) QueueSafe (initial [0x10000] 0x10000) peerClosesEarly := by
  intro h
  obtain ⟨r, i, hr, -⟩ := h.last ⟨⟨5, 0⟩, 1, 0⟩ (by decide +kernel)
  have hnone : ((peerClosesEarly.foldl (step {} silent)
      (initial [0x10000] 0x10000)).request ⟨⟨5, 0⟩, 1, 0⟩).isSome = false := by decide +kernel
  rw [hr] at hnone
  cases hnone

end Wasapi.FcgiConn
