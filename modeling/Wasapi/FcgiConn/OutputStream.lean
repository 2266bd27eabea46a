import Wasapi.FcgiConn.Armed
import Wasapi.FcgiConn.Housing

/-!
# Output is a stream

The output of a connection is a buffer with a position: the decoder, the timeout check and
`process_pending_output` append at its end, `flush_connection` hands what is behind the position to
the socket, and empties the buffer when everything has been sent. `Grows` is what every action but a
flush does to the output of a connection.

An observer of the socket and of the buffer keeps two streams for a connection, the octets that
`send` has taken and the octets that have been appended. Whatever the order of the actions and
wherever `send` stops, the second is the first followed by what is still in the buffer.
-/

namespace Wasapi.FcgiConn

open Fastcgi

variable {cfg : GlobalConfig} {app : Application} {w w' : World}

/-! ## Appending

Output grows at its end and by whole records. What has been appended stays until a flush takes it
off the front, so an action that does not flush can be described by what it adds. -/

/-- Whole records are appended, nothing is sent, and a closed connection stays closed. -/
structure Grows (c c' : Connection) : Prop where
  cid : c'.cid = c.cid
  closed : c.closed = true → c'.closed = true
  outPos : c'.outPos = c.outPos
  outBuf : Extends c.outBuf c'.outBuf

theorem Grows.refl (c : Connection) : Grows c c := ⟨rfl, id, rfl, .refl _⟩

theorem Grows.trans {c₁ c₂ c₃ : Connection} (h : Grows c₁ c₂) (h' : Grows c₂ c₃) : Grows c₁ c₃ :=
  ⟨h'.cid.trans h.cid, h'.closed ∘ h.closed, h'.outPos.trans h.outPos, h.outBuf.trans h'.outBuf⟩

/-- A connection that was made since the numbers were at `next`. -/
structure NewSince (next next' : ℕ) (c : Connection) : Prop where
  le : next ≤ c.cid
  lt : c.cid < next'
  outPos : c.outPos = 0
  outBuf : Extends [] c.outBuf

/-- The connections of `w'` are those of `w`, grown, and new ones with new numbers. -/
structure Grown (w w' : World) : Prop where
  nextCid : w.nextCid ≤ w'.nextCid
  conns {fd c'} : w'.conns.lookup fd = some c' →
    (∃ c, w.conns.lookup fd = some c ∧ Grows c c') ∨ NewSince w.nextCid w'.nextCid c'

theorem Grown.trans {w₁ w₂ w₃ : World} (h : Grown w₁ w₂) (h' : Grown w₂ w₃) : Grown w₁ w₃ := by
  refine ⟨h.nextCid.trans h'.nextCid, fun hc₃ ↦ ?_⟩
  rcases h'.conns hc₃ with ⟨c₂, hc₂, hgrows⟩ | hnew
  · rcases h.conns hc₂ with ⟨c₁, hc₁, hgrows'⟩ | hnew
    · exact .inl ⟨c₁, hc₁, hgrows'.trans hgrows⟩
    · exact .inr ⟨hgrows.cid ▸ hnew.le, hgrows.cid ▸ hnew.lt.trans_le h'.nextCid,
        hgrows.outPos.trans hnew.outPos, hnew.outBuf.trans hgrows.outBuf⟩
  · exact .inr ⟨h.nextCid.trans hnew.le, hnew.lt, hnew.outPos, hnew.outBuf⟩

theorem Grown.of_evolves (h : Evolves Grows w w') (hnext : w.nextCid ≤ w'.nextCid) : Grown w w' :=
  ⟨hnext, fun hc' ↦ .inl (h.lookup_left hc')⟩

theorem Grown.of_lookup (hconns : ∀ k, w'.conns.lookup k = w.conns.lookup k)
    (hnext : w.nextCid ≤ w'.nextCid) : Grown w w' :=
  ⟨hnext, fun {fd c'} hc' ↦ .inl ⟨c', (hconns fd).symm.trans hc', .refl c'⟩⟩

theorem Grown.refl (w : World) : Grown w w := .of_lookup (fun _ ↦ rfl) le_rfl

private theorem grown_updateConn (w : World) (fd : ℤ) {f : Connection → Connection}
    (hf : ∀ c, w.conns.lookup fd = some c → Grows c (f c)) : Grown w (w.updateConn fd f) := by
  refine .of_evolves (evolves_updateConn .refl w fd hf) ?_
  rw [World.updateConn_eq]

private theorem grown_updateRef (w : World) (p : ConnRef) {f : Connection → Connection}
    (hf : ∀ c, Grows c (f c)) : Grown w (w.updateRef p f) := by
  refine .of_evolves (evolves_updateRef .refl w p fun c _ ↦ hf c) ?_
  rw [World.updateRef_eq]

private theorem grown_updateRequest (w : World) (p : RequestPtr) (f : Request → Request) :
    Grown w (w.updateRequest p f) := by
  rw [World.updateRequest]
  split
  · exact .refl w
  · exact grown_updateRef w p.conn fun _ ↦ ⟨rfl, id, rfl, .refl _⟩

private theorem grown_insert {fd : ℤ} {c : Connection} (hconns : w'.conns = w.conns.insert fd c)
    (hcid : c.cid = w.nextCid) (hnext : w'.nextCid = w.nextCid + 1) (hpos : c.outPos = 0)
    (hout : c.outBuf = []) : Grown w w' := by
  have hle : w.nextCid ≤ w'.nextCid := hnext ▸ Nat.le_succ _
  refine ⟨hle, fun {k c'} hc' ↦ ?_⟩
  rw [hconns] at hc'
  by_cases hk : k = fd
  · rw [hk, AList.lookup_insert, Option.some.injEq] at hc'
    subst hc'
    refine .inr ⟨hcid.ge, by rw [hcid, hnext]; exact Nat.lt_succ_self _, hpos, ?_⟩
    rw [hout]
    exact .refl []
  · rw [AList.lookup_insert_ne hk] at hc'
    exact .inl ⟨c', hc', .refl c'⟩

private theorem nextCid_processFcgi (cfg : GlobalConfig) (fd : ℤ) (w : World) :
    (processFcgi cfg fd w).nextCid = w.nextCid := by
  refine frame_processFcgi (g := World.nextCid) (fun r w ↦ ?_) (fun io id w ↦ ?_)
    (fun w fd f ↦ by rw [World.updateConn_eq]) fd w
  · rw [internalOnRequestReady]
    split
    · rfl
    split
    · rfl
    · simp only
      rw [World.updateRef_eq]
  · rw [allocateRequest]
    split
    · rfl
    simp only
    split
    · rfl
    · rfl

private theorem grown_processFcgi (cfg : GlobalConfig) (fd : ℤ) (w : World) :
    Grown w (processFcgi cfg fd w) := by
  refine ⟨(nextCid_processFcgi cfg fd w).ge, fun {k c'} hc' ↦ .inl ?_⟩
  obtain ⟨c, n, hc, -, ⟨-, rfl⟩ | ⟨rfl, hopen, rfl⟩⟩ := processFcgi_cases cfg hc'
  · exact ⟨c, hc, rfl, id, rfl, .refl _⟩
  · refine ⟨c, hc, rfl, fun hclosed ↦ (nomatch hopen.symm.trans hclosed), rfl, ?_⟩
    exact extends_processBuffer cfg.toLimits (callbacks cfg ⟨k, c.cid⟩) c.inBuf
      ⟨c.requests, c.outBuf, w⟩

private theorem grown_timeoutRequests (cfg : GlobalConfig) (w : World) (fd : ℤ) :
    Grown w (timeoutRequests cfg w fd) := by
  refine List.foldlRecOn _ _ (Grown.refl w) fun w' hw' id _ ↦ hw'.trans ?_
  refine grown_updateConn w' fd fun c _ ↦ ?_
  split
  · exact .refl c
  next r _ =>
  split
  · refine ⟨rfl, fun h ↦ h, rfl, [endRequestRecord r.id 0 .overloaded], ?_⟩
    rw [List.flatMap_singleton]
    exact appendEndRequest_eq _ _ _ _
  · exact .refl c

private theorem grown_processPendingOutput (app : Application) (w : World) :
    Grown w (processPendingOutput app w) := by
  have hempty : Grown w { w with pendingOutput := [] } := .of_lookup (fun _ ↦ rfl) le_rfl
  refine List.foldlRecOn _ _ hempty fun w' hw' p _ ↦ Grown.trans hw' ?_
  rcases answerPending_cases app w' p with heq | ⟨r, c, offset, -, -, -, -, heq⟩
  · rw [heq]
    exact .refl w'
  · rw [heq]
    refine (grown_updateRequest w' p _).trans (grown_updateRef _ p.conn fun c ↦ ?_)
    obtain ⟨sent, -, hsent, -⟩ := onRequestReady_spec app r offset
    obtain ⟨epollOut, wanted, hanswer⟩ := appendAnswer_eq (onRequestReady app r offset).2 c
    rw [hanswer, hsent]
    exact ⟨rfl, id, rfl, sent, rfl⟩

private theorem grown_workerStep (app : Application) (k : ℕ) (w : World) :
    Grown w (workerStep app k w) := by
  rcases workerStep_cases app k w with heq | ⟨t, -, hcases⟩
  · rw [heq]
    exact .refl w
  have hphase (ph : TaskPhase) :
      Grown w { w with tasks := w.tasks.set k { t with phase := ph } } :=
    .of_lookup (fun _ ↦ rfl) le_rfl
  rcases hcases with ⟨ph, -, heq⟩ | ⟨-, heq⟩ | ⟨-, heq⟩ | ⟨-, heq⟩
  · rw [heq]
    exact hphase ph
  · rw [heq]
    have hprepared := (hphase .pushed).trans (grown_updateRequest _ t.request app.prepared)
    exact ⟨hprepared.nextCid, hprepared.conns⟩
  · rw [heq]
    exact (hphase .cleared).trans (grown_updateRequest _ t.request _)
  · rw [heq]
    have hgone := grown_updateRef w t.request.conn
      (f := fun c ↦ { c with activeWorkers := c.activeWorkers - 1 }) fun _ ↦ ⟨rfl, id, rfl, .refl _⟩
    exact ⟨hgone.nextCid, hgone.conns⟩

private theorem grown_acceptConnection (cfd : ℤ) (w : World) :
    Grown w (acceptConnection cfd w) := by
  rw [acceptConnection]
  cases hc : w.conns.lookup cfd with
  | some c =>
    exact .of_evolves (.of_puts .refl hc (puts_of_conns rfl) ⟨rfl, id, rfl, .refl _⟩)
      (Nat.le_succ _)
  | none => exact grown_insert rfl rfl rfl rfl rfl

/-- **Every action but a flush appends.** -/
theorem grown_act (cfg : GlobalConfig) (app : Application) (w : World) {a : Action}
    (ha : ∀ fd, a ≠ .flush fd) : Grown w (act cfg app w a) := by
  have hrequests (w : World) (fd : ℤ) (f : Connection → Requests) :
      Grown w (w.updateConn fd fun c ↦ { c with requests := f c }) :=
    grown_updateConn w fd fun _ _ ↦ ⟨rfl, id, rfl, .refl _⟩
  cases a with
  | hangUp fd => exact grown_updateConn w fd fun _ _ ↦ ⟨rfl, fun _ ↦ rfl, rfl, .refl _⟩
  | read fd data ending =>
    refine grown_updateConn w fd fun _ _ ↦ ⟨rfl, fun hclosed ↦ ?_, rfl, .refl _⟩
    simp only
    rw [hclosed, Bool.true_or]
  | process fd => exact grown_processFcgi cfg fd w
  | flush fd => exact absurd rfl (ha fd)
  | timeouts fd => exact grown_timeoutRequests cfg w fd
  | pendingOutput => exact grown_processPendingOutput app w
  | finalize fd id =>
    rw [act, finalizeRequest]
    split
    · exact .refl w
    · exact ⟨(hrequests w fd _).nextCid, (hrequests w fd _).conns⟩
  | destroy fd id =>
    rw [act, destroyRequest]
    split
    · exact .refl w
    simp only
    split
    · exact hrequests w fd _
    · exact ⟨(hrequests w fd _).nextCid, (hrequests w fd _).conns⟩
  | erase fd id => exact hrequests w fd _
  | clear fd => exact hrequests w fd _
  | close fd =>
    rw [act, eraseConnection]
    split
    · exact .refl w
    refine ⟨le_rfl, fun {k c'} hc' ↦ .inl ⟨c', ?_, .refl c'⟩⟩
    by_cases hk : k = fd
    · rw [hk, AList.lookup_erase] at hc'
      cases hc'
    · rwa [AList.lookup_erase_ne hk] at hc'
  | index fd =>
    rw [act, indexConns]
    split
    · exact .refl w
    · exact grown_insert rfl rfl rfl rfl rfl
  | accept cfd => exact grown_acceptConnection cfd w
  | worker k => exact grown_workerStep app k w
  | outside elapsed sends => exact .of_lookup (fun _ ↦ rfl) le_rfl
  | wsTake =>
    rw [act, step]
    split
    · exact .refl w
    · exact .of_lookup (fun _ ↦ rfl) le_rfl
  | wsReturn k =>
    rw [act, step]
    split
    · exact .refl w
    · exact .of_lookup (fun _ ↦ rfl) le_rfl
  | rehash fds fd ids =>
    have hreorder : Grown w { w with conns := reorder w.conns fds } :=
      .of_lookup (fun k ↦ lookup_reorder w.conns fds k) le_rfl
    exact hreorder.trans (hrequests _ fd _)
  | queues closeQueue waitingConns acceptPaused => exact .of_lookup (fun _ ↦ rfl) le_rfl

/-! ## Sending

A flush moves the position and, when everything has been sent, starts the buffer anew. Either way
what is behind the position loses just what `send` has taken. -/

/-- The octets the `send` calls of a flush take. -/
def flushTaken (fd : ℤ) (fuel : ℕ) (w : World) : Bytes := (flushSends fd fuel w).1

/-- Nothing was appended, and what was pending has been sent or is still pending. -/
structure Drains (taken : Bytes) (c c' : Connection) : Prop where
  le : c'.outPos ≤ c'.outBuf.length
  outBuf : c'.outBuf = c.outBuf ∨ c'.outBuf = []
  pending : taken ++ c'.outBuf.drop c'.outPos = c.outBuf.drop c.outPos

/-- **A flush hands over what it takes off**, by induction on the turns of the loop. -/
theorem drains_flushLoop {fd : ℤ} {fuel : ℕ} {c : Connection} (hc : w.conns.lookup fd = some c)
    (hle : c.outPos ≤ c.outBuf.length) :
    ∀ c' ∈ (flushLoop fd fuel w).conns.lookup fd, Drains (flushTaken fd fuel w) c c' := by
  induction fuel generalizing w c with
  | zero =>
    intro c' hc'
    obtain rfl := Option.some.inj (hc.symm.trans hc')
    exact ⟨hle, .inl rfl, List.nil_append _⟩
  | succ fuel ih =>
    have hset {taken : Bytes} {c₁ : Connection} (h₁ : Drains taken c c₁) :
        ∀ c' ∈ (w.setConn fd c₁).conns.lookup fd, Drains taken c c' := by
      intro c' hc'
      rw [World.lookup_setConn, if_pos rfl] at hc'
      rwa [← Option.some.inj hc']
    have hwant (want : Bool) : Drains [] c (updateWriteInterest want c) := by
      obtain ⟨epollOut, wanted, heq⟩ := updateWriteInterest_eq want c
      rw [heq]
      exact ⟨hle, .inl rfl, List.nil_append _⟩
    rw [flushLoop, flushTaken, flushSends, hc]
    simp only
    by_cases hremaining : c.outBuf.length - c.outPos = 0
    · -- all has been sent
      have hcleared :
          Drains [] c { updateWriteInterest false c with outBuf := [], outPos := 0 } := by
        refine ⟨le_rfl, .inr rfl, ?_⟩
        rw [List.drop_eq_nil_of_le (by omega : c.outBuf.length ≤ c.outPos)]
        rfl
      rw [if_pos hremaining]
      split
      · split
        · exact hset hcleared
        · exact hset hcleared
      · split
        · exact hset (hwant false)
        · exact hset (hwant false)
    rw [if_neg hremaining]
    rcases w.sends with _ | ⟨_ | _ | _, sends⟩
    · exact hset (hwant true)
    · next n =>
      -- the call takes some octets, and the loop goes on behind them
      intro c' hc'
      let c₁ := { c with outPos := c.outPos + min (n + 1) (c.outBuf.length - c.outPos) }
      have hle₁ : c₁.outPos ≤ c₁.outBuf.length := by
        simp only [c₁]
        omega
      have hrest := ih (w := { w.setConn fd c₁ with sends := sends }) (c := c₁)
        ((World.lookup_setConn fd c₁ fd).trans (if_pos rfl)) hle₁ c' hc'
      have hpos : c₁.outBuf.drop c₁.outPos
          = (c.outBuf.drop c.outPos).drop (min (n + 1) (c.outBuf.length - c.outPos)) :=
        List.drop_drop.symm
      refine ⟨hrest.le, hrest.outBuf, ?_⟩
      have hpending := hrest.pending
      rw [flushTaken] at hpending
      rw [List.append_assoc, hpending, hpos, List.take_append_drop]
    · exact hset (hwant true)
    · exact hset ⟨hle, .inl rfl, List.nil_append _⟩

/-! ## What an observer of the socket sees

The two streams are defined from outside, by comparing worlds and by listening to `send`, and not by
anything the program keeps. One action moves both, by what it appends and by what it hands over. -/

/-- The octets of a connection that `send` takes in an action. -/
def taken (w : World) (p : ConnRef) : Action → Bytes
  | .flush fd =>
    match w.connection p with
    | some c => if fd = p.fd then flushTaken fd (c.outBuf.length + 1) w else []
    | none => []
  | _ => []

/-- The octets the output of a connection has grown by when `w` becomes `w'`. -/
def written (w w' : World) (p : ConnRef) : Bytes :=
  match w'.connection p with
  | some c => c.outBuf.drop (outLength w p)
  | none => []

variable (cfg app) in
/-- The octets of a connection that are handed to the socket in a run of actions. -/
def handedOver : World → List Action → ConnRef → Bytes
  | _, [], _ => []
  | w, a :: as, p => taken w p a ++ handedOver (act cfg app w a) as p

variable (cfg app) in
/-- Everything appended to the output of a connection in a run of actions. -/
def appended : World → List Action → ConnRef → Bytes
  | _, [], _ => []
  | w, a :: as, p => written w (act cfg app w a) p ++ appended (act cfg app w a) as p

private theorem written_of_connection {p : ConnRef} {c c' : Connection}
    (hc : w.connection p = some c)
    (hc' : w'.connection p = some c') : written w w' p = c'.outBuf.drop c.outBuf.length := by
  rw [written, hc', outLength, hc]
  rfl

/-- **What one action does to the two streams** of a connection. -/
theorem streams_act (cfg : GlobalConfig) (app : Application) (a : Action) {p : ConnRef}
    {c c' : Connection} (hc : w.connection p = some c) (hlt : p.cid < w.nextCid)
    (hle : c.outPos ≤ c.outBuf.length) (hc' : (act cfg app w a).connection p = some c') :
    c'.outPos ≤ c'.outBuf.length ∧
      taken w p a ++ c'.outBuf.drop c'.outPos
        = c.outBuf.drop c.outPos ++ written w (act cfg app w a) p ∧
      Extends [] (written w (act cfg app w a) p) := by
  obtain ⟨hlookup, hcid⟩ := World.connection_eq_some_iff.mp hc
  obtain ⟨hlookup', hcid'⟩ := World.connection_eq_some_iff.mp hc'
  rw [written_of_connection hc hc']
  by_cases hflush : ∃ fd, a = .flush fd
  · obtain ⟨fd, rfl⟩ := hflush
    have hdrains : Drains (taken w p (.flush fd)) c c' := by
      rw [taken, hc]
      simp only
      by_cases hfd : fd = p.fd
      · rw [if_pos hfd]
        rw [act, hfd, flushConnection, hlookup] at hlookup'
        rw [hfd]
        exact drains_flushLoop hlookup hle c' hlookup'
      · obtain ⟨c₀, hc₀, -, hsame⟩ := flushed_flushConnection hlookup'
        obtain rfl := Option.some.inj (hlookup.symm.trans hc₀)
        rw [if_neg hfd, hsame fun heq ↦ hfd heq.symm]
        exact ⟨hle, .inl rfl, List.nil_append _⟩
    -- a flush may empty the buffer, but it appends nothing
    have hnothing : c'.outBuf.drop c.outBuf.length = [] := by
      rcases hdrains.outBuf with heq | heq
      · rw [heq, List.drop_length]
      · rw [heq, List.drop_nil]
    rw [hnothing, List.append_nil]
    exact ⟨hdrains.le, hdrains.pending, .refl []⟩
  · have hgrown := grown_act cfg app w fun fd ha ↦ hflush ⟨fd, ha⟩
    have htaken : taken w p a = [] := by
      cases a with
      | flush fd => exact absurd ⟨fd, rfl⟩ hflush
      | _ => rfl
    rcases hgrown.conns hlookup' with ⟨c₀, hc₀, hgrows⟩ | hnew
    · -- what is appended comes behind everything pending
      obtain rfl := Option.some.inj (hlookup.symm.trans hc₀)
      obtain ⟨recs, hrecs⟩ := hgrows.outBuf
      rw [htaken, hgrows.outPos, hrecs, List.drop_left, List.nil_append,
        List.drop_append_of_le_length hle]
      refine ⟨hle.trans ?_, rfl, recs, rfl⟩
      rw [List.length_append]
      exact Nat.le_add_right _ _
    · -- the number was taken before the action
      exact absurd (hcid' ▸ hnew.le) (not_le.mpr hlt)

/-! ## Runs

A descriptor is used again for other connections, so the streams are kept by connection, and a
connection is told by the number of the `accept` that made it. One that has no number yet has
neither handed over nor appended anything. -/

/-- What an observer knows who has seen the streams `handed` and `put` of every connection. -/
structure Streamed (w : World) (handed put : ConnRef → Bytes) : Prop where
  cid_lt {fd c} : w.conns.lookup fd = some c → c.cid < w.nextCid
  le {p c} : w.connection p = some c → c.outPos ≤ c.outBuf.length
  stream {p c} : w.connection p = some c → handed p ++ c.outBuf.drop c.outPos = put p
  records {p c} : w.connection p = some c → Extends [] (put p)
  fresh {p} : w.nextCid ≤ p.cid → handed p = [] ∧ put p = []

private theorem nextCid_flushConnection (fd : ℤ) (w : World) :
    (flushConnection fd w).nextCid = w.nextCid := by
  obtain ⟨conns, sends, closeQueue, heq⟩ := flushConnection_eq fd w
  rw [heq]

/-- Connections are old, or new and numbered since. -/
theorem cid_act (cfg : GlobalConfig) (app : Application) (a : Action) :
    w.nextCid ≤ (act cfg app w a).nextCid ∧ ∀ {fd c'},
      (act cfg app w a).conns.lookup fd = some c' →
        (∃ c, w.conns.lookup fd = some c ∧ c'.cid = c.cid) ∨
          NewSince w.nextCid (act cfg app w a).nextCid c' := by
  by_cases hflush : ∃ fd, a = .flush fd
  · obtain ⟨fd, rfl⟩ := hflush
    refine ⟨(nextCid_flushConnection fd w).ge, fun hc' ↦ .inl ?_⟩
    obtain ⟨c, hc, hflushed, -⟩ := flushed_flushConnection hc'
    exact ⟨c, hc, hflushed.cid⟩
  · have hgrown := grown_act cfg app w fun fd ha ↦ hflush ⟨fd, ha⟩
    refine ⟨hgrown.nextCid, fun hc' ↦ ?_⟩
    rcases hgrown.conns hc' with ⟨c, hc, hgrows⟩ | hnew
    · exact .inl ⟨c, hc, hgrows.cid⟩
    · exact .inr hnew

/-- There is no connection with a number that has not been given out. -/
theorem connection_eq_none_of_le (hlt : ∀ {fd c}, w.conns.lookup fd = some c → c.cid < w.nextCid)
    {p : ConnRef} (hle : w.nextCid ≤ p.cid) : w.connection p = none := by
  refine Option.eq_none_iff_forall_ne_some.mpr fun c hc ↦ ?_
  obtain ⟨hc, heq⟩ := World.connection_eq_some_iff.mp hc
  have hclt := hlt hc
  omega

private theorem taken_eq_nil {p : ConnRef} (hp : w.connection p = none) (a : Action) :
    taken w p a = [] := by
  cases a with
  | flush fd => rw [taken, hp]
  | _ => rfl

/-- Of a connection that there is not yet, all of the output has been written by the action. -/
theorem written_of_new {p : ConnRef} {c' : Connection} (hp : w.connection p = none)
    (hc' : w'.connection p = some c') : written w w' p = c'.outBuf := by
  rw [written, hc', outLength, hp]
  rfl

variable (cfg app) in
theorem Streamed.act {handed put : ConnRef → Bytes} (h : Streamed w handed put) (a : Action) :
    Streamed (act cfg app w a) (fun p ↦ handed p ++ taken w p a)
      fun p ↦ put p ++ written w (FcgiConn.act cfg app w a) p := by
  obtain ⟨hnext, hcids⟩ := cid_act (w := w) cfg app a
  have hcid : ∀ {fd c}, (FcgiConn.act cfg app w a).conns.lookup fd = some c →
      c.cid < (FcgiConn.act cfg app w a).nextCid := by
    intro fd c' hc'
    rcases hcids hc' with ⟨c, hc, heq⟩ | hnew
    · rw [heq]
      exact (h.cid_lt hc).trans_le hnext
    · exact hnew.lt
  -- a connection was there before, or it starts with both streams empty
  have hstreams {p : ConnRef} {c' : Connection}
      (hc' : (FcgiConn.act cfg app w a).connection p = some c') :
      c'.outPos ≤ c'.outBuf.length ∧
        handed p ++ taken w p a ++ c'.outBuf.drop c'.outPos
          = put p ++ written w (FcgiConn.act cfg app w a) p ∧
        Extends [] (put p ++ written w (FcgiConn.act cfg app w a) p) := by
    obtain ⟨hlookup', hcid'⟩ := World.connection_eq_some_iff.mp hc'
    rcases hcids hlookup' with ⟨c, hlookup, heq⟩ | hnew
    · have hc : w.connection p = some c :=
        World.connection_eq_some_iff.mpr ⟨hlookup, heq.symm.trans hcid'⟩
      have hlt : p.cid < w.nextCid := by
        rw [← hcid', heq]
        exact h.cid_lt hlookup
      obtain ⟨hle, hstream, hrecs⟩ := streams_act cfg app a hc hlt (h.le hc) hc'
      refine ⟨hle, ?_, ?_⟩
      · rw [List.append_assoc, hstream, ← List.append_assoc, h.stream hc]
      · obtain ⟨recs, hput⟩ := h.records hc
        obtain ⟨recs', hwritten⟩ := hrecs
        refine ⟨recs ++ recs', ?_⟩
        rw [hput, hwritten, List.flatMap_append, List.append_assoc]
        rfl
    · have hp : w.nextCid ≤ p.cid := hcid' ▸ hnew.le
      obtain ⟨hhanded, hput⟩ := h.fresh hp
      have hold := connection_eq_none_of_le h.cid_lt hp
      rw [hhanded, hput, taken_eq_nil hold, written_of_new hold hc', hnew.outPos]
      exact ⟨Nat.zero_le _, rfl, hnew.outBuf⟩
  constructor
  case cid_lt => exact hcid
  case le => exact fun hc' ↦ (hstreams hc').1
  case stream => exact fun hc' ↦ (hstreams hc').2.1
  case records => exact fun hc' ↦ (hstreams hc').2.2
  case fresh =>
    intro p hle
    obtain ⟨hhanded, hput⟩ := h.fresh (hnext.trans hle)
    have hwritten : written w (FcgiConn.act cfg app w a) p = [] := by
      rw [written, connection_eq_none_of_le hcid hle]
    have hold := connection_eq_none_of_le h.cid_lt (hnext.trans hle)
    rw [hhanded, hput, taken_eq_nil hold, hwritten]
    exact ⟨rfl, rfl⟩

variable (cfg app) in
theorem Streamed.run {handed put : ConnRef → Bytes} (h : Streamed w handed put)
    (as : List Action) :
    Streamed (as.foldl (FcgiConn.act cfg app) w) (fun p ↦ handed p ++ handedOver cfg app w as p)
      fun p ↦ put p ++ appended cfg app w as p := by
  induction as generalizing w handed put with
  | nil =>
    simp only [handedOver, appended, List.append_nil]
    exact h
  | cons a as ih =>
    have hrun := ih (h.act cfg app a)
    simp only [List.append_assoc] at hrun
    exact hrun

private theorem streamed_initial (bases : List UInt64) (capacity : UInt64) :
    Streamed (initial bases capacity) (fun _ ↦ []) fun _ ↦ [] := by
  have hnone : ∀ p, (initial bases capacity).connection p = none := fun p ↦ rfl
  constructor
  case cid_lt => exact fun hc ↦ (nomatch hc)
  case le => exact fun {p c} hc ↦ (nomatch (hnone p).symm.trans hc)
  case stream => exact fun {p c} hc ↦ (nomatch (hnone p).symm.trans hc)
  case records => exact fun {p c} hc ↦ (nomatch (hnone p).symm.trans hc)
  case fresh => exact fun _ ↦ ⟨rfl, rfl⟩

/-- **Nothing is lost, repeated or reordered.** In every run of actions, in whatever order they come
and wherever `send` stops, what has been handed to the socket of a connection and what its buffer
holds behind the position are together what has been appended, and that is whole records. -/
theorem handedOver_append_pending (cfg : GlobalConfig) (app : Application) (bases : List UInt64)
    (capacity : UInt64) (as : List Action) {p : ConnRef} {c : Connection}
    (hc : (as.foldl (act cfg app) (initial bases capacity)).connection p = some c) :
    handedOver cfg app (initial bases capacity) as p ++ c.outBuf.drop c.outPos
        = appended cfg app (initial bases capacity) as p ∧
      c.outPos ≤ c.outBuf.length ∧
      ∃ recs : List Record,
        appended cfg app (initial bases capacity) as p = recs.flatMap Record.encode := by
  have hrun := (streamed_initial bases capacity).run cfg app as
  exact ⟨hrun.stream hc, hrun.le hc, hrun.records hc⟩

/-- An answer of which `send` has taken nine octets. -/
def partlySent : List Action :=
  answering ++ [.outside 0 [.sent 8, .again], .flush 5]

theorem handedOver_append_pending_partlySent :
    ∃ c, (partlySent.foldl (act {} silent) (initial [0x10000] 0x10000)).connection ⟨5, 0⟩
        = some c ∧
      handedOver {} silent (initial [0x10000] 0x10000) partlySent ⟨5, 0⟩ ++
          c.outBuf.drop c.outPos
        = appended {} silent (initial [0x10000] 0x10000) partlySent ⟨5, 0⟩ := by
  obtain ⟨c, hc, -⟩ := (Option.any_eq_true _ _).mp
    (by decide +kernel : ((partlySent.foldl (act {} silent) (initial [0x10000] 0x10000)).connection
      ⟨5, 0⟩).any (fun c ↦ c.outPos = 9) = true)
  exact ⟨c, hc, (handedOver_append_pending {} silent [0x10000] 0x10000 partlySent hc).1⟩

end Wasapi.FcgiConn
