import Wasapi.FcgiConn.ResponseQueue

/-!
# The arenas in use

An arena is in use for a stored request or for a websocket task. `Balanced` adds to `Owned` that
there is no other holder, so that none has leaked; unlike `Sound` it asks nothing of the pointers in
the response queue, and holds whether or not they dangle.

Every event keeps the balance but those that close connections: `requests.clear()` forgets the
requests that have appeared since the loop before it began.
-/

namespace Wasapi.FcgiConn

open Fastcgi

variable {phase : Phase} {w w' : World}

/-! ## No arena is lost

The arenas in use and their holders are matched both ways. One direction is `Owned`; the other says
that for every arena in use there is a stored request or a websocket task that will give it back. -/

/-- Every arena in use is that of a live stored request or of a websocket task. -/
def Accounted (w : World) : Prop :=
  ∀ i n, w.arenas.holder i = some n →
    (∃ fd c id r, Stored w fd c id r ∧ r.released = false ∧ r.arena = some i ∧ r.handle = n) ∨
      (i, n) ∈ w.wsArenas

structure Balanced (phase : Phase) (w : World) : Prop extends Owned phase w where
  accounted : Accounted w

theorem Owned.of_ledger (h : Owned phase w) (hconns : Evolves Keeps w w')
    (hled : SameLedger w w') : Owned phase w' :=
  h.evolve hconns hled.holder hled.wsArenas hled.nextHandle

theorem Accounted.evolve (h : Accounted w) (hconns : Evolves Keeps w w')
    (hholder : ∀ i, w'.arenas.holder i = w.arenas.holder i) (hws : w'.wsArenas = w.wsArenas) :
    Accounted w' := by
  intro i n hi
  rw [hholder] at hi
  rw [hws]
  refine (h i n hi).imp_left ?_
  rintro ⟨fd, c, id, r, hs, hreleased, harena, hhandle⟩
  obtain ⟨c', r', hs', hprogress⟩ := hconns.stored_right hs
  exact ⟨fd, c', id, r', hs', hprogress.released.trans hreleased, hprogress.arena.trans harena,
    hprogress.handle.trans hhandle⟩

theorem Balanced.evolve (h : Balanced phase w) (hconns : Evolves Keeps w w')
    (hholder : ∀ i, w'.arenas.holder i = w.arenas.holder i) (hws : w'.wsArenas = w.wsArenas)
    (hnext : w'.nextHandle = w.nextHandle) : Balanced phase w' :=
  ⟨h.toOwned.evolve hconns hholder hws hnext, h.accounted.evolve hconns hholder hws⟩

theorem Balanced.of_ledger (h : Balanced phase w) (hconns : Evolves Keeps w w')
    (hled : SameLedger w w') : Balanced phase w' :=
  h.evolve hconns hled.holder hled.wsArenas hled.nextHandle

/-- Only the queues and the clock change. -/
theorem Balanced.of_eq (h : Balanced phase w) (hconns : w'.conns = w.conns)
    (harenas : w'.arenas = w.arenas) (hws : w'.wsArenas = w.wsArenas)
    (hnext : w'.nextHandle = w.nextHandle) : Balanced phase w' := by
  refine h.evolve (fun k ↦ ?_) (fun i ↦ by rw [harenas]) hws hnext
  rw [hconns]
  exact Evolves.refl (fun c ↦ .of_requests rfl fun _ ↦ rfl) w k

theorem keeps_refl (c : Connection) : Keeps c c := .of_requests rfl fun _ ↦ rfl

theorem Balanced.updateConn (h : Balanced phase w) (fd : ℤ) {f : Connection → Connection}
    (hf : ∀ c, w.conns.lookup fd = some c → Keeps c (f c)) : Balanced phase (w.updateConn fd f) :=
  h.of_ledger (evolves_updateConn keeps_refl w fd hf) (sameLedger_updateConn w fd f)

theorem Balanced.updateRef (h : Balanced phase w) (p : ConnRef) {f : Connection → Connection}
    (hf : ∀ c, w.connection p = some c → Keeps c (f c)) : Balanced phase (w.updateRef p f) :=
  h.of_ledger (evolves_updateRef keeps_refl w p hf) (sameLedger_updateRef w p f)

theorem Balanced.updateRequest (h : Balanced phase w) (p : RequestPtr) {f : Request → Request}
    (hf : ∀ r, w.request p = some r → Progress r (f r)) :
    Balanced phase (w.updateRequest p f) := by
  rw [World.updateRequest]
  split
  · exact h
  next r hr =>
  refine h.updateRef p.conn fun c hc ↦ .of_insert ?_ (hf r hr) rfl rfl
  obtain ⟨c', hc', hcid, hlookup, -⟩ := World.request_eq_some_iff.mp hr
  rw [World.connection_eq_some_iff.mpr ⟨hc', hcid⟩] at hc
  rwa [← Option.some.inj hc]

/-! ### Serving connections -/

/-- **Serving connections keeps the balance.** -/
theorem Balanced.serveStep {limits : Limits} (h : Balanced phase w)
    (hstep : ServeStep limits w w') : Balanced phase w' := by
  cases hstep with
  | change fd c c' hc hput hown hled =>
    refine h.of_ledger (.of_puts keeps_refl hc hput (.of_requests hown.cid fun _ ↦ ?_)) hled
    rw [hown.requests]
  | queues hconns hled =>
    refine h.of_ledger (fun k ↦ ?_) hled
    rw [hconns]
    exact Evolves.refl keeps_refl w k
  | allocate fd c id i r hc hid hput hr hfree hholder _ _ hws hnext _ =>
    refine ⟨h.toOwned.allocate hc hid hput hr hfree hholder hws hnext, fun j n hj ↦ ?_⟩
    rw [hholder] at hj
    rw [hws]
    by_cases hji : j = i
    · rw [if_pos hji, Option.some.injEq] at hj
      refine .inl ⟨fd, _, id, r, ⟨(hput fd).trans (if_pos rfl), AList.lookup_insert _⟩,
        hr.released, ?_, ?_⟩
      · rw [hr.arena, hji]
      · rw [hr.handle, hj]
    · rw [if_neg hji] at hj
      refine (h.accounted j n hj).imp_left ?_
      rintro ⟨k, c₁, i', r', hs, hlive⟩
      obtain ⟨c', hs', -⟩ := stored_of_allocate hc hid hput hs
      exact ⟨k, c', i', r', hs', hlive⟩
  | record fd c id r rec body out hc hr hbody hput hled =>
    refine h.of_ledger (.of_puts keeps_refl hc hput (.of_insert hr ?_ rfl rfl)) hled
    exact .of_core (coreProgress_recordBody hbody _ _)
  | dispatch fd c id r p hc hr hready hp hw' =>
    have hconns : Evolves Keeps w w' := by
      rw [hw']
      exact evolves_updateRef keeps_refl w p fun c _ ↦ .of_requests rfl fun _ ↦ rfl
    refine h.evolve hconns (fun i ↦ ?_) ?_ ?_
    · simp [hw']
    · simp [hw']
    · simp [hw']
  | amend fd c id r r' hc hr hsame hput hled =>
    exact h.of_ledger (.of_puts keeps_refl hc hput (.of_insert hr hsame.progress rfl rfl)) hled

theorem Balanced.serves {limits : Limits} (h : Balanced phase w) (hserves : Serves limits w w') :
    Balanced phase w' :=
  hserves.invariant (fun _ _ hstep hw ↦ hw.serveStep hstep) h

/-! ### Releases -/

theorem Balanced.destroyRequest (h : Balanced phase w) {phase' : Phase} {fd : ℤ} {c : Connection}
    {id : UInt16} {r : Request} (hs : Stored w fd c id r) (hlive : r.released = false)
    (hphase : ∀ k i, phase'.Released k i ↔ phase.Released k i ∨ (k = fd ∧ i = id))
    (hclosing : ∀ k, phase.Closing k → phase'.Closing k)
    (hanswered : phase'.Closing fd ∨ r.flags.responded = true) :
    Balanced phase' (destroyRequest fd id w) := by
  obtain ⟨i, harena, hholds⟩ := h.arena hs hlive
  obtain ⟨hput, hholder, -, -, hws, -⟩ := destroyRequest_spec hs harena
  refine ⟨h.toOwned.destroyRequest hs hlive hphase hclosing hanswered, fun j n hj ↦ ?_⟩
  rw [hholder] at hj
  rw [hws]
  have hji : j ≠ i := by
    rintro rfl
    rw [if_pos rfl] at hj
    cases hj
  rw [if_neg hji] at hj
  refine (h.accounted j n hj).imp_left ?_
  rintro ⟨k, c₁, i', r', hs', hlive', harena', hhandle'⟩
  obtain ⟨c', hs'', -⟩ := stored_of_insert hs.conn hput rfl rfl hs' (by
    rintro ⟨rfl, rfl⟩
    obtain rfl := Option.some.inj (hs.conn.symm.trans hs'.conn)
    obtain rfl := Option.some.inj (hs.request.symm.trans hs'.request)
    exact hji (Option.some.inj (harena'.symm.trans harena)))
  exact ⟨k, c', i', r', hs'', hlive', harena', hhandle'⟩

theorem Balanced.eraseRequest {fd : ℤ} {id : UInt16} (h : Balanced (.sweeping fd id) w) :
    Balanced .steady (eraseRequest fd id w) := by
  refine ⟨h.toOwned.eraseRequest, fun i n hi ↦ ?_⟩
  rw [FcgiConn.eraseRequest, World.arenas_updateConn] at hi
  refine (h.accounted i n hi).imp ?_ fun hws ↦ ?_
  · rintro ⟨k, c, j, r, hs, hlive, hrest⟩
    have hne : ¬(k = fd ∧ j = id) := by
      intro heq
      rw [(h.released_iff hs).mpr heq] at hlive
      cases hlive
    obtain ⟨c', hs'⟩ := stored_of_eraseRequest hs hne
    exact ⟨k, c', j, r, hs', hlive, hrest⟩
  · rwa [FcgiConn.eraseRequest, World.wsArenas_updateConn]

/-- A connection disappears after all its requests have been released. -/
theorem Balanced.close {fd : ℤ} {done : List UInt16} (h : Balanced (.closing fd done) w)
    (hdone : ∀ id ∈ requestIds fd w, id ∈ done)
    (hlookup : ∀ k, w'.conns.lookup k = if k = fd then none else w.conns.lookup k)
    (hholder : ∀ i, w'.arenas.holder i = w.arenas.holder i) (hws : w'.wsArenas = w.wsArenas)
    (hnext : w'.nextHandle = w.nextHandle) : Balanced .steady w' := by
  refine ⟨h.toOwned.close hlookup hholder hws hnext, fun i n hi ↦ ?_⟩
  rw [hholder] at hi
  rw [hws]
  refine (h.accounted i n hi).imp_left ?_
  rintro ⟨k, c, j, r, hs, hlive, hrest⟩
  have hk : k ≠ fd := by
    rintro rfl
    rw [(h.released_iff hs).mpr ⟨rfl, hdone j (mem_requestIds.mpr ⟨c, r, hs⟩)⟩] at hlive
    cases hlive
  exact ⟨k, c, j, r, ⟨by rw [hlookup, if_neg hk, hs.conn], hs.request⟩, hlive, hrest⟩

theorem Balanced.open (h : Balanced phase w) {fd : ℤ} {c : Connection}
    (hnone : w.conns.lookup fd = none) (hput : Puts w w' fd c) (hrequests : c.requests = ∅)
    (hholder : ∀ i, w'.arenas.holder i = w.arenas.holder i) (hws : w'.wsArenas = w.wsArenas)
    (hnext : w'.nextHandle = w.nextHandle) : Balanced phase w' := by
  refine ⟨h.toOwned.open hnone hput hrequests hholder hws hnext, fun i n hi ↦ ?_⟩
  rw [hholder] at hi
  rw [hws]
  refine (h.accounted i n hi).imp_left ?_
  rintro ⟨k, c₁, j, r, hs, hrest⟩
  exact ⟨k, c₁, j, r, (stored_iff_of_open hnone hput hrequests).mpr hs, hrest⟩

/-! ### Sweeps -/

section

variable {cfg : GlobalConfig} {app : Application}

theorem Balanced.releaseRequest {fd : ℤ} {id : UInt16}
    (h : Balanced phase (FcgiConn.destroyRequest fd id w)) :
    Balanced phase (releaseRequest cfg fd id w) :=
  h.serves (serves_releaseRequest_tail _)

/-- The invariant of a request that is not being released. -/
theorem Owned.live (h : Owned .steady w) {fd : ℤ} {c : Connection} {id : UInt16} {r : Request}
    (hs : Stored w fd c id r) : r.released = false :=
  Bool.eq_false_iff.mpr fun hreleased ↦ (h.released_iff hs).mp hreleased

/-- A sweep of one request. Whatever happens while the entry of the released request is still
there, the entry is erased and nothing else. -/
theorem Balanced.sweepRequest (h : Balanced .steady w) (fd : ℤ) (id : UInt16) :
    Balanced .steady (sweepRequest cfg fd w id) := by
  have hrelease : ∀ {w₁ : World}, Balanced .steady w₁ →
      (∃ c r, Stored w₁ fd c id r ∧ r.flags.responded = true) →
      Balanced .steady (FcgiConn.eraseRequest fd id (FcgiConn.releaseRequest cfg fd id w₁)) := by
    rintro w₁ h₁ ⟨c, r, hs, hresponded⟩
    refine Balanced.eraseRequest (Balanced.releaseRequest ?_)
    refine h₁.destroyRequest hs (h₁.live hs) (fun k i ↦ ?_) (fun k hk ↦ hk) (.inr hresponded)
    exact (or_iff_right fun hf ↦ hf).symm
  rcases sweepRequest_cases cfg fd w id with heq | ⟨r, hr, -, hcases⟩
  · rwa [heq]
  obtain ⟨c, hs⟩ := lookup_request_eq_some.mp hr
  rcases hcases with ⟨hresponded, heq⟩ | ⟨hunanswered, hended, -⟩
  · rw [heq]
    obtain ⟨⟨c', r', hs', hsame⟩, -⟩ := finalizeRequest_spec cfg hs
    refine hrelease (h.serves (serves_finalizeRequest cfg cfg.toLimits fd id w)) ⟨c', r', hs', ?_⟩
    rw [hsame.flags, hresponded]
  · -- a failed or aborted request has been answered
    exact absurd (h.settled hs hended) (Bool.eq_false_iff.mp hunanswered)

theorem Balanced.sweep (h : Balanced .steady w) (fd : ℤ) : Balanced .steady (sweep cfg fd w) :=
  List.foldlRecOn _ _ h fun _ hw id _ ↦ hw.sweepRequest fd id

theorem Balanced.queueClose (h : Balanced .steady w) (fd : ℤ) :
    Balanced .steady (queueClose fd w) := by
  rw [FcgiConn.queueClose]
  split
  · exact h.of_eq rfl rfl rfl rfl
  · exact h

theorem Balanced.indexConns (h : Balanced .steady w) (fd : ℤ) :
    Balanced .steady (indexConns fd w) := by
  rw [FcgiConn.indexConns]
  split
  · exact h
  · next hnone => exact h.open hnone (puts_of_conns rfl) rfl (fun _ ↦ rfl) rfl rfl

/-! ### The other handlers -/

theorem Balanced.timeoutRequests (h : Balanced .steady w) (fd : ℤ) :
    Balanced .steady (timeoutRequests cfg w fd) := by
  refine List.foldlRecOn _ _ h fun w hw id _ ↦ hw.updateConn fd fun c _ ↦ ?_
  split
  · exact keeps_refl c
  next r hr =>
  split
  · refine .of_insert hr ?_ rfl rfl
    exact ⟨⟨rfl, fun _ ↦ rfl, fun _ _ ↦ rfl⟩, rfl, rfl, rfl, rfl⟩
  · exact keeps_refl c

theorem Balanced.acceptConnection (h : Balanced .steady w) (cfd : ℤ) :
    Balanced .steady (acceptConnection cfd w) := by
  rw [FcgiConn.acceptConnection]
  cases hc : w.conns.lookup cfd with
  | some c =>
    refine h.evolve (.of_puts keeps_refl hc (puts_of_conns rfl) ?_) (fun _ ↦ rfl) rfl rfl
    exact .of_requests rfl fun _ ↦ rfl
  | none => exact h.open hc (puts_of_conns rfl) rfl (fun _ ↦ rfl) rfl rfl

theorem Balanced.handleNewConnections (h : Balanced .steady w) (cfds : List ℤ) :
    Balanced .steady (handleNewConnections cfds w) :=
  handleNewConnections_invariant (fun _ hw ↦ hw.of_eq rfl rfl rfl rfl)
    (fun _ cfd _ hw ↦ hw.acceptConnection cfd) h cfds

theorem Balanced.answerPending (h : Balanced .steady w) (p : RequestPtr) :
    Balanced .steady (answerPending app w p) := by
  rcases answerPending_cases app w p with heq | ⟨r, c, offset, hr, -, -, -, heq⟩
  · rwa [heq]
  · rw [heq]
    refine (h.updateRequest p fun r' hr' ↦ ?_).updateRef p.conn fun c _ ↦ ?_
    · rw [hr, Option.some.injEq] at hr'
      subst hr'
      exact progress_onRequestReady r _
    · obtain ⟨epollOut, wanted, hanswer⟩ := appendAnswer_eq (onRequestReady app r offset).2 c
      rw [hanswer]
      exact .of_requests rfl fun _ ↦ rfl

theorem Balanced.processPendingOutput (h : Balanced .steady w) :
    Balanced .steady (processPendingOutput app w) :=
  List.foldlRecOn _ _ (h.of_eq rfl rfl rfl rfl) fun _ hw p _ ↦ hw.answerPending p

theorem Balanced.workerStep (h : Balanced .steady w) (k : ℕ) :
    Balanced .steady (workerStep app k w) := by
  rcases workerStep_cases app k w with heq | ⟨t, -, hcases⟩
  · rwa [heq]
  have hphase (ph : TaskPhase) :
      Balanced .steady { w with tasks := w.tasks.set k { t with phase := ph } } :=
    h.of_eq rfl rfl rfl rfl
  rcases hcases with ⟨ph, -, heq⟩ | ⟨-, heq⟩ | ⟨-, heq⟩ | ⟨-, heq⟩
  · rw [heq]
    exact hphase ph
  · rw [heq]
    refine Balanced.of_eq (w := World.updateRequest _ t.request app.prepared) ?_ rfl rfl rfl rfl
    exact (hphase .pushed).updateRequest t.request
      fun r _ ↦ ⟨⟨rfl, fun hr ↦ hr, fun hr ↦ hr⟩, rfl, rfl, rfl, rfl⟩
  · rw [heq]
    exact (hphase .cleared).updateRequest t.request
      fun r _ ↦ ⟨⟨rfl, fun hr ↦ hr, fun hr ↦ hr⟩, rfl, rfl, rfl, rfl⟩
  · rw [heq]
    refine Balanced.of_eq (w := w.updateRef t.request.conn _) ?_ rfl rfl rfl rfl
    exact h.updateRef t.request.conn fun c _ ↦ .of_requests rfl fun _ ↦ rfl

variable (cfg app)

theorem Balanced.wsTake (h : Balanced .steady w) : Balanced .steady (step cfg app w .wsTake) := by
  refine ⟨h.toOwned.wsTake cfg app, ?_⟩
  rw [step]
  split
  · exact h.accounted
  next i m hget =>
  intro j n hj
  simp only at hj ⊢
  rw [ArenaManager.holder_get hget] at hj
  by_cases hji : j = i
  · rw [if_pos hji, Option.some.injEq] at hj
    rw [hji, ← hj]
    exact .inr (List.mem_append_right _ (List.mem_singleton.mpr rfl))
  · rw [if_neg hji] at hj
    refine (h.accounted j n hj).imp ?_ (List.mem_append_left _)
    rintro ⟨fd, c, id, r, hs, hrest⟩
    exact ⟨fd, c, id, r, ⟨hs.conn, hs.request⟩, hrest⟩

theorem Balanced.wsReturn (h : Balanced .steady w) (k : ℕ) :
    Balanced .steady (step cfg app w (.wsReturn k)) := by
  refine ⟨h.toOwned.wsReturn cfg app k, ?_⟩
  rw [step]
  split
  · exact h.accounted
  next i n hk =>
  intro j m hj
  simp only at hj ⊢
  rw [ArenaManager.holder_release] at hj
  by_cases hji : j = i
  · rw [if_pos hji] at hj
    cases hj
  rw [if_neg hji] at hj
  refine (h.accounted j m hj).imp ?_ fun hmem ↦ ?_
  · rintro ⟨fd, c, id, r, hs, hrest⟩
    exact ⟨fd, c, id, r, ⟨hs.conn, hs.request⟩, hrest⟩
  · obtain ⟨hlt, hget⟩ := List.getElem?_eq_some_iff.mp hk
    have hperm := List.getElem_cons_eraseIdx_perm hlt
    rw [hget] at hperm
    refine (List.mem_cons.mp (hperm.mem_iff.mpr hmem)).resolve_left fun heq ↦ ?_
    exact hji (Prod.mk.inj heq).1

theorem Balanced.rehash (h : Balanced .steady w) (fds : List ℤ) (fd : ℤ) (ids : List UInt16) :
    Balanced .steady (step cfg app w (.rehash fds fd ids)) := by
  have hfds : Balanced .steady { w with conns := reorder w.conns fds } := by
    refine h.evolve (fun k ↦ ?_) (fun _ ↦ rfl) rfl rfl
    simp only
    rw [lookup_reorder]
    exact Evolves.refl keeps_refl w k
  exact hfds.updateConn fd fun c _ ↦ .of_requests rfl fun id ↦ lookup_reorder _ _ _

theorem balanced_initial (bases : List UInt64) (capacity : UInt64) :
    Balanced .steady (initial bases capacity) := by
  refine ⟨(sound_initial bases capacity).toOwned, fun i n hi ↦ ?_⟩
  rw [initial, ArenaManager.createArenas, ArenaManager.holder, List.getElem?_map] at hi
  cases hbase : bases[i]? with
  | none =>
    rw [hbase] at hi
    cases hi
  | some b =>
    rw [hbase] at hi
    cases hi

end

end Wasapi.FcgiConn
