import Wasapi.Fastcgi.Isolation
import Wasapi.FcgiConn.Actions
import Wasapi.FcgiConn.ResponseQueue

/-!
# One terminal answer for each request

A request is answered by the decoder (a limit, an abort), by the timeout check of housekeeping or by
the server's handler when `process_pending_output` gets to it. Each of the three looks at RESPONDED
before it writes, and sets it when it writes END_REQUEST; only the handler writes STDOUT, in front
of its END_REQUEST.

`emitted` is what an observer of the output buffers sees one action write for a request, and
`emissions` what a run of actions writes. Along a run of actions in any order `Sends` relates it to
RESPONDED: nothing while the flag is clear, an answer when it gets set, and nothing from then on.
-/

namespace Wasapi.FcgiConn

open Fastcgi

/-! ## Answers

`Sends` is indexed by RESPONDED before and after, so the pieces of a run fit together like the steps
of a path. Once the flag is set there is only one way to go on, and that is to send nothing. -/

/-- What is sent for a request while RESPONDED goes from one value to another. -/
inductive Sends : Bool → List Record → Bool → Prop
  | nothing (responded : Bool) : Sends responded [] responded
  | answer (outs : List Record) (last : Record) (houts : ∀ rec ∈ outs, rec.type = FCGI_STDOUT)
      (hlast : last.type = FCGI_END_REQUEST) : Sends false (outs ++ [last]) true

theorem Sends.trans {b₁ b₂ b₃ : Bool} {sent sent' : List Record} (h : Sends b₁ sent b₂)
    (h' : Sends b₂ sent' b₃) : Sends b₁ (sent ++ sent') b₃ := by
  cases h with
  | nothing => rwa [List.nil_append]
  | answer outs last houts hlast =>
    cases h'
    rw [List.append_nil]
    exact .answer outs last houts hlast

/-- At most one END_REQUEST, RESPONDED set exactly when there is one, and no STDOUT behind it. -/
structure OneAnswer (responded : Bool) (sent : List Record) : Prop where
  atMostOnce : sent.countP (fun rec ↦ rec.type = FCGI_END_REQUEST) ≤ 1
  responded_iff : responded = true ↔ ∃ rec ∈ sent, rec.type = FCGI_END_REQUEST
  quiet {before after : List Record} {rec : Record} : sent = before ++ rec :: after →
    rec.type = FCGI_END_REQUEST → ∀ late ∈ after, late.type ≠ FCGI_STDOUT

private theorem Sends.oneAnswer {responded : Bool} {sent : List Record}
    (h : Sends false sent responded) :
    OneAnswer responded sent := by
  cases h with
  | nothing =>
    refine ⟨Nat.zero_le _, ⟨fun hf ↦ (nomatch hf), ?_⟩, fun {before after rec} heq ↦ ?_⟩
    · rintro ⟨rec, hrec, -⟩
      cases hrec
    · exact absurd heq (List.append_ne_nil_of_right_ne_nil before (List.cons_ne_nil rec after)).symm
  | answer outs last houts hlast =>
    have hnot : ∀ rec ∈ outs, rec.type ≠ FCGI_END_REQUEST := by
      intro rec hrec
      rw [houts rec hrec]
      decide
    refine ⟨?_, ⟨fun _ ↦ ⟨last, List.mem_append_right _ List.mem_cons_self, hlast⟩, fun _ ↦ rfl⟩,
      fun {before after rec} heq hend ↦ ?_⟩
    · rw [List.countP_append, List.countP_eq_zero.mpr fun rec hrec ↦ by
        rw [decide_eq_true_eq]
        exact hnot rec hrec, Nat.zero_add]
      exact List.countP_le_length
    · -- END_REQUEST is the last record
      rcases List.eq_nil_or_concat after with rfl | ⟨after, late, rfl⟩
      · exact fun late hlate ↦ (nomatch hlate)
      · rw [List.concat_eq_append, ← List.cons_append, ← List.append_assoc] at heq
        obtain ⟨rfl, -⟩ := List.append_inj' heq rfl
        refine absurd hend (hnot rec ?_)
        exact List.mem_append_right _ List.mem_cons_self

/-! ## The decoder

The decoder answers a request that passes a limit or is aborted. Both go through `fail_request`,
which looks at RESPONDED first; no record makes the decoder write STDOUT. -/

/-- On every request the body sends records of the request's id, as `Sends` allows. -/
def SendsOwn (body : RequestCore → Bytes → RequestCore × Bytes) : Prop :=
  ∀ r out, ∃ sent : List Record, (∀ rec ∈ sent, rec.requestId = r.id) ∧
    (body r out).2 = out ++ sent.flatMap Record.encode ∧ (body r out).1.id = r.id ∧
    Sends r.flags.responded sent (body r out).1.flags.responded

section Decoder

/-- A body that sends nothing to this request. -/
private theorem silent_of_eq {r core : RequestCore} {out : Bytes} {res : RequestCore × Bytes}
    (h : res = (core, out)) (hid : core.id = r.id)
    (hresponded : core.flags.responded = r.flags.responded) :
    ∃ sent : List Record, (∀ rec ∈ sent, rec.requestId = r.id) ∧
      res.2 = out ++ sent.flatMap Record.encode ∧ res.1.id = r.id ∧
      Sends r.flags.responded sent res.1.flags.responded := by
  subst h
  refine ⟨[], fun rec hrec ↦ (nomatch hrec), (List.append_nil out).symm, hid, ?_⟩
  rw [hresponded]
  exact .nothing _

private theorem sendsOwn_failRequest (status : ProtocolStatus) :
    SendsOwn fun r out ↦ failRequest r out status := by
  intro r out
  beta_reduce
  rw [failRequest]
  split
  · exact silent_of_eq rfl rfl rfl
  · next hr =>
    refine ⟨[endRequestRecord r.id 0 status], fun rec hrec ↦ ?_, ?_, rfl, ?_⟩
    · rw [List.mem_singleton.mp hrec]
      rfl
    · rw [List.flatMap_singleton, ← appendEndRequest_eq]
    · rw [Bool.eq_false_iff.mpr hr]
      exact .answer [] _ (fun _ hrec ↦ absurd hrec List.not_mem_nil) rfl

private theorem sendsOwn_storePairs (limits : Limits) (ps : List (Bytes × Bytes)) :
    SendsOwn (storePairs limits ps) := by
  induction ps with
  | nil => exact fun r out ↦ silent_of_eq rfl rfl rfl
  | cons p ps ih =>
    obtain ⟨name, value⟩ := p
    intro r out
    rw [storePairs]
    split
    · exact sendsOwn_failRequest .overloaded r out
    · exact ih { r with
        env := r.env.assign name (.string value)
        paramsBytes := sizeT (r.paramsBytes + name.length + value.length) } out

theorem sendsOwn_recordBody {limits : Limits} {rec : Record}
    {body : RequestCore → Bytes → RequestCore × Bytes} (h : recordBody limits rec = some body) :
    SendsOwn body := by
  intro r out
  rw [recordBody] at h
  split at h
  · split at h
    · obtain rfl := Option.some.inj h
      exact silent_of_eq rfl rfl rfl
    · cases h
  split at h
  · obtain rfl := Option.some.inj h
    rw [paramsRecord]
    split
    · exact silent_of_eq rfl rfl rfl
    split
    · exact silent_of_eq rfl rfl rfl
    · rw [paramsLoop_eq]
      exact sendsOwn_storePairs limits _ r out
  split at h
  · obtain rfl := Option.some.inj h
    rw [stdinRecord]
    split
    · exact silent_of_eq rfl rfl rfl
    split
    · exact silent_of_eq rfl rfl rfl
    split
    · exact sendsOwn_failRequest .overloaded r out
    · exact silent_of_eq rfl rfl rfl
  split at h
  · obtain rfl := Option.some.inj h
    exact sendsOwn_failRequest .requestComplete
      { r with flags := { r.flags with aborted := true } } out
  · cases h

end Decoder

/-! ## Requests and their output

The records of several requests stand in one buffer. What concerns a request are the records of its
id, and since entries are stored under their ids, a record that is appended belongs to the entry it
is appended for and to no other. -/

/-- Every request is stored under its id. -/
def Keyed (requests : Requests) : Prop := ∀ {id r}, requests.lookup id = some r → r.id = id

/-- `r'` is `r` some time later, and `sent` was sent for it in between. -/
structure Later (r r' : Request) (sent : List Record) : Prop where
  id : r'.id = r.id
  handle : r'.handle = r.handle
  released : r'.released = r.released
  sends : Sends r.flags.responded sent r'.flags.responded

/-- The request a map starts with: what it holds, or a new one with a number from `n` up to `n'`. -/
def Starts (n n' : ℕ) (requests : Requests) (id : UInt16) (r : Request) : Prop :=
  requests.lookup id = some r ∨
    (requests.lookup id = none ∧ r.id = id ∧ r.flags.responded = false ∧ n ≤ r.handle ∧
      r.handle < n')

/-- The requests of a connection and its output, before and after some of them are answered. -/
structure Answers (n n' : ℕ) (requests : Requests) (out : Bytes) (requests' : Requests)
    (out' : Bytes) (sent : List Record) : Prop where
  le : n ≤ n'
  out : out' = out ++ sent.flatMap Record.encode
  owner : ∀ rec ∈ sent, ∃ r', requests'.lookup rec.requestId = some r'
  kept {id r} : requests.lookup id = some r → ∃ r', requests'.lookup id = some r'
  later {id r'} : requests'.lookup id = some r' →
    ∃ r, Starts n n' requests id r ∧ Later r r' (sent.filter fun rec ↦ rec.requestId = id)

theorem Later.refl (r : Request) : Later r r [] := ⟨rfl, rfl, rfl, .nothing _⟩

theorem Later.trans {r₁ r₂ r₃ : Request} {sent sent' : List Record} (h : Later r₁ r₂ sent)
    (h' : Later r₂ r₃ sent') : Later r₁ r₃ (sent ++ sent') :=
  ⟨h'.id.trans h.id, h'.handle.trans h.handle, h'.released.trans h.released,
    h.sends.trans h'.sends⟩

section Answers

variable {n n' n'' : ℕ} {requests requests' requests'' : Requests} {out out' out'' : Bytes}
  {sent sent' : List Record}

theorem Answers.refl (h : n ≤ n') (requests : Requests) (out : Bytes) :
    Answers n n' requests out requests out [] :=
  ⟨h, (List.append_nil out).symm, fun _ hrec ↦ (nomatch hrec), fun hr ↦ ⟨_, hr⟩,
    fun hr ↦ ⟨_, .inl hr, .refl _⟩⟩

theorem Answers.trans (h : Answers n n' requests out requests' out' sent)
    (h' : Answers n' n'' requests' out' requests'' out'' sent') :
    Answers n n'' requests out requests'' out'' (sent ++ sent') where
  le := h.le.trans h'.le
  out := by rw [h'.out, h.out, List.flatMap_append, List.append_assoc]
  owner rec hrec := by
    rcases List.mem_append.mp hrec with hrec | hrec
    · obtain ⟨r, hr⟩ := h.owner rec hrec
      exact h'.kept hr
    · exact h'.owner rec hrec
  kept hr := by
    obtain ⟨r, hr⟩ := h.kept hr
    exact h'.kept hr
  later {id r''} hr'' := by
    rw [List.filter_append]
    obtain ⟨r', hr' | ⟨hnone, hid, hresponded, hle, hlt⟩, hlater'⟩ := h'.later hr''
    · obtain ⟨r, hr | ⟨hnone, hid, hresponded, hle, hlt⟩, hlater⟩ := h.later hr'
      · exact ⟨r, .inl hr, hlater.trans hlater'⟩
      · exact ⟨r, .inr ⟨hnone, hid, hresponded, hle, hlt.trans_le h'.le⟩, hlater.trans hlater'⟩
    · -- nothing was sent for a request that did not exist yet
      have hsilent : (sent.filter fun rec ↦ rec.requestId = id) = [] := by
        refine List.filter_eq_nil_iff.mpr fun rec hrec hid ↦ ?_
        obtain ⟨r, hr⟩ := h.owner rec hrec
        rw [decide_eq_true_eq.mp hid, hnone] at hr
        cases hr
      have habsent : requests.lookup id = none := by
        refine Option.eq_none_iff_forall_ne_some.mpr fun r hr ↦ ?_
        obtain ⟨r₁, hr₁⟩ := h.kept hr
        rw [hnone] at hr₁
        cases hr₁
      rw [hsilent, List.nil_append]
      exact ⟨r', .inr ⟨habsent, hid, hresponded, h.le.trans hle, hlt⟩, hlater'⟩

/-- One request is written back. -/
theorem Answers.of_insert (h : n ≤ n') {id : UInt16} {r r' : Request}
    (hstart : Starts n n' requests id r) (hlater : Later r r' sent)
    (hsent : ∀ rec ∈ sent, rec.requestId = id) :
    Answers n n' requests out (requests.insert id r') (out ++ sent.flatMap Record.encode) sent where
  le := h
  out := rfl
  owner rec hrec := by
    rw [hsent rec hrec]
    exact ⟨r', AList.lookup_insert _⟩
  kept {i r₁} hr₁ := by
    by_cases hi : i = id
    · rw [hi]
      exact ⟨r', AList.lookup_insert _⟩
    · exact ⟨r₁, by rw [AList.lookup_insert_ne hi, hr₁]⟩
  later {i r₁} hr₁ := by
    by_cases hi : i = id
    · subst hi
      rw [AList.lookup_insert, Option.some.injEq] at hr₁
      subst hr₁
      rw [List.filter_eq_self.mpr fun rec hrec ↦ decide_eq_true (hsent rec hrec)]
      exact ⟨r, hstart, hlater⟩
    · rw [AList.lookup_insert_ne hi] at hr₁
      have hsilent : (sent.filter fun rec ↦ rec.requestId = i) = [] := by
        refine List.filter_eq_nil_iff.mpr fun rec hrec hid ↦ hi ?_
        rw [← decide_eq_true_eq.mp hid, hsent rec hrec]
      rw [hsilent]
      exact ⟨r₁, .inl hr₁, .refl r₁⟩

theorem Answers.keyed (h : Answers n n' requests out requests' out' sent)
    (hkeyed : Keyed requests) : Keyed requests' := by
  intro id r' hr'
  obtain ⟨r, hr | ⟨-, hid, -⟩, hlater⟩ := h.later hr'
  · rw [hlater.id, hkeyed hr]
  · rw [hlater.id, hid]

end Answers

/-! ## `process_buffer`

One turn works on one entry, which may have been made in the same turn, and appends for it alone. A
run of turns composes the answers of each request along the way. -/

section Process

variable (cfg : GlobalConfig)

theorem internalOnRequestReady_fst (r : Request) (w : World) :
    ∃ env active, (internalOnRequestReady cfg r w).1
      = { r with env := env, workerActive := active } := by
  rw [internalOnRequestReady]
  split
  · exact ⟨r.env, r.workerActive, rfl⟩
  split
  · exact ⟨r.env, r.workerActive, rfl⟩
  · exact ⟨_, true, rfl⟩

theorem nextHandle_internalOnRequestReady (r : Request) (w : World) :
    (internalOnRequestReady cfg r w).2.nextHandle = w.nextHandle := by
  rw [internalOnRequestReady]
  split
  · rfl
  split
  · rfl
  · simp

/-- A record is handled on a request that is there or has just been made. -/
theorem answers_touch (io : ConnRef) {n : ℕ} {m : Machine World} (id : UInt16) {r : Request}
    {body : RequestCore → Bytes → RequestCore × Bytes} (hn : n ≤ m.ext.nextHandle)
    (hstart : Starts n m.ext.nextHandle m.requests id r) (hid : r.id = id)
    (hbody : SendsOwn body) : ∃ sent,
      Answers n (touch (callbacks cfg io) id body r m).ext.nextHandle m.requests m.outBuf
        (touch (callbacks cfg io) id body r m).requests
        (touch (callbacks cfg io) id body r m).outBuf sent := by
  obtain ⟨sent, hsent, hout, hcore, hsends⟩ := hbody r.toRequestCore m.outBuf
  rw [hid] at hsent
  set core := (body r.toRequestCore m.outBuf).1 with hcoreDef
  set r₁ := r.withCore core with hr₁
  have hlater : Later r r₁ sent := ⟨hcore, rfl, rfl, hsends⟩
  refine ⟨sent, ?_⟩
  rw [touch]
  simp only [← hcoreDef, ← hr₁, hout]
  split
  · rw [show (callbacks cfg io).onRequestReady = internalOnRequestReady cfg from rfl]
    obtain ⟨env, active, heq⟩ := internalOnRequestReady_fst cfg r₁ m.ext
    simp only
    rw [nextHandle_internalOnRequestReady, heq]
    refine .of_insert hn hstart ?_ hsent
    exact ⟨hlater.id, hlater.handle, hlater.released, hlater.sends⟩
  · exact .of_insert hn hstart hlater hsent

private theorem nextHandle_allocateRequest_none {io : ConnRef} {id : UInt16} {w w' : World}
    (halloc : allocateRequest cfg io id w = (none, w')) : w'.nextHandle = w.nextHandle := by
  rcases allocateRequest_cases cfg io id w with ⟨w₁, heq, -, hled⟩ | ⟨r, i, w₁, heq, -⟩
  · rw [heq] at halloc
    cases halloc
    exact hled.nextHandle
  · rw [heq] at halloc
    cases halloc

private theorem answers_turn (limits : Limits) (io : ConnRef) {m : Machine World} (rec : Record)
    (hkeyed : Keyed m.requests) : ∃ sent,
      Answers m.ext.nextHandle (turn limits (callbacks cfg io) m rec).ext.nextHandle m.requests
        m.outBuf (turn limits (callbacks cfg io) m rec).requests
        (turn limits (callbacks cfg io) m rec).outBuf sent := by
  rw [turn]
  rcases processRecord_cases limits (callbacks cfg io) rec m with ⟨-, hrec⟩ |
    ⟨body, r, hbody, hr, hrec⟩ | ⟨body, nr, w', hbody, hnone, halloc, hrec⟩ |
    ⟨body, w', hbody, hnone, halloc, hrec⟩
  · rw [hrec]
    exact ⟨[], .refl le_rfl _ _⟩
  · rw [hrec]
    exact answers_touch cfg io rec.requestId le_rfl (.inl hr) (hkeyed hr)
      (sendsOwn_recordBody hbody)
  · rw [hrec]
    have hexists := allocateRequest_cases cfg io rec.requestId m.ext
    rw [show allocateRequest cfg io rec.requestId m.ext = (some nr, w') from halloc] at hexists
    obtain ⟨w₁, hf, -⟩ | ⟨r, i, w₁, heq, -, hfresh, -, -, -, -, -, hnext, -⟩ := hexists
    · cases hf
    cases heq
    have htouch := answers_touch cfg io (n := m.ext.nextHandle) (m := { m with ext := w' })
      rec.requestId (r := nr) ?_ (.inr ⟨hnone, hfresh.id, ?_, ?_, ?_⟩) hfresh.id
      (sendsOwn_recordBody hbody)
    · rw [Turn.machine, touch_insert (callbacks cfg io) rec.requestId body nr nr
        { m with ext := w' }]
      exact htouch
    · simp only [hnext, Nat.le_succ]
    · rw [hfresh.flags]
    · rw [hfresh.handle]
    · simp only [hfresh.handle, hnext, Nat.lt_succ_self]
  · have hmachine :
        (processRecord limits (callbacks cfg io) rec m).machine = { m with ext := w' } := by
      rw [hrec]
      split <;> rfl
    rw [hmachine]
    simp only
    rw [nextHandle_allocateRequest_none cfg halloc]
    exact ⟨[], .refl le_rfl _ _⟩

/-- **Every call of `process_buffer` answers as it should.** -/
theorem answers_processBuffer (limits : Limits) (io : ConnRef) (inBuf : Bytes)
    {m : Machine World} (hkeyed : Keyed m.requests) : ∃ sent,
      Answers m.ext.nextHandle
        (processBuffer limits (callbacks cfg io) inBuf m).ext.nextHandle m.requests m.outBuf
        (processBuffer limits (callbacks cfg io) inBuf m).requests
        (processBuffer limits (callbacks cfg io) inBuf m).outBuf sent := by
  have hturns : ∃ sent, Answers m.ext.nextHandle
      ((processTurns limits (callbacks cfg io) inBuf m).foldl
        (turn limits (callbacks cfg io)) m).ext.nextHandle m.requests m.outBuf
      ((processTurns limits (callbacks cfg io) inBuf m).foldl
        (turn limits (callbacks cfg io)) m).requests
      ((processTurns limits (callbacks cfg io) inBuf m).foldl
        (turn limits (callbacks cfg io)) m).outBuf sent := by
    refine List.foldlRecOn _ _ (motive := fun m' : Machine World ↦ ∃ sent,
      Answers m.ext.nextHandle m'.ext.nextHandle m.requests m.outBuf m'.requests m'.outBuf sent)
      ⟨[], .refl le_rfl _ _⟩ ?_
    rintro m' ⟨sent, h⟩ rec -
    obtain ⟨sent', h'⟩ := answers_turn cfg limits io rec (h.keyed hkeyed)
    exact ⟨sent ++ sent', h.trans h'⟩
  rwa [← processBuffer_eq_foldl] at hturns

end Process

/-! ## The handler of the server

`on_request_ready` looks at RESPONDED, writes its text and END_REQUEST, and sets the flag. Nothing
comes between these three in the thread that runs it. -/

/-- **The server's handler writes one whole answer**, unless there has been one. -/
theorem onRequestReady_spec (app : Application) (r : Request) (offset : UInt64) :
    ∃ sent : List Record, (∀ rec ∈ sent, rec.requestId = r.id) ∧
      (onRequestReady app r offset).2 = sent.flatMap Record.encode ∧
      Later r (onRequestReady app r offset).1 sent := by
  rw [onRequestReady]
  split
  · exact ⟨[], fun _ hrec ↦ absurd hrec List.not_mem_nil, rfl, .refl r⟩
  next hr =>
  obtain ⟨outs, houts, -, heq⟩ := appendStdoutText_eq [] r.id (app.render r)
  refine ⟨outs ++ [endRequestRecord r.id 0 .requestComplete], fun rec hrec ↦ ?_, ?_, rfl, rfl, rfl,
    ?_⟩
  · rcases List.mem_append.mp hrec with hrec | hrec
    · exact (houts rec hrec).2
    · rw [List.mem_singleton.mp hrec]
      rfl
  · rw [appendEndRequest_eq, heq, List.nil_append, List.flatMap_append, List.flatMap_singleton]
  · rw [Bool.eq_false_iff.mpr hr]
    exact .answer outs _ (fun rec hrec ↦ (houts rec hrec).1) rfl

/-! ## Connections

The timeout check and `process_pending_output` answer requests that are in a map. The rest of what
happens to a connection is quiet: its output is sent, its requests are released or erased, and
nothing is appended. -/

/-- Some requests of a connection are answered. -/
def Replies (n n' : ℕ) (c c' : Connection) : Prop :=
  c'.cid = c.cid ∧ ∃ sent, Answers n n' c.requests c.outBuf c'.requests c'.outBuf sent

theorem Replies.refl {n n' : ℕ} (h : n ≤ n') (c : Connection) : Replies n n' c c :=
  ⟨rfl, [], .refl h _ _⟩

theorem Replies.trans {n : ℕ} {c₁ c₂ c₃ : Connection} (h : Replies n n c₁ c₂)
    (h' : Replies n n c₂ c₃) : Replies n n c₁ c₃ := by
  obtain ⟨hcid, sent, hsent⟩ := h
  obtain ⟨hcid', sent', hsent'⟩ := h'
  exact ⟨hcid'.trans hcid, sent ++ sent', hsent.trans hsent'⟩

/-- Every request of every connection is stored under its id. -/
def KeyedWorld (w : World) : Prop := ∀ {fd c}, w.conns.lookup fd = some c → Keyed c.requests

theorem KeyedWorld.evolve {n n' : ℕ} {w w' : World} (hkeyed : KeyedWorld w)
    (h : Evolves (Replies n n') w w') : KeyedWorld w' := by
  intro fd c' hc'
  obtain ⟨c, hc, -, sent, hsent⟩ := h.lookup_left hc'
  exact hsent.keyed (hkeyed hc)

/-- The timeout check of one request. -/
theorem evolves_timeoutRequest (cfg : GlobalConfig) (n : ℕ) {w : World} (hkeyed : KeyedWorld w)
    (fd : ℤ) (id : UInt16) : Evolves (Replies n n) w (timeoutRequest cfg fd w id) := by
  refine evolves_updateConn (.refl le_rfl) w fd fun c hc ↦ ?_
  split
  · exact .refl le_rfl c
  next r hr =>
  split
  · next hlate =>
    rw [Bool.and_assoc, Bool.and_eq_true, Bool.not_eq_true'] at hlate
    refine ⟨rfl, [endRequestRecord r.id 0 .overloaded], ?_⟩
    simp only
    rw [appendEndRequest_eq, ← List.flatMap_singleton Record.encode]
    refine .of_insert le_rfl (.inl hr) ⟨rfl, rfl, rfl, ?_⟩ fun rec hrec ↦ ?_
    · rw [hlate.1]
      exact .answer [] _ (fun _ hrec ↦ absurd hrec List.not_mem_nil) rfl
    · rw [List.mem_singleton.mp hrec]
      exact hkeyed hc hr
  · exact .refl le_rfl c

private theorem evolves_timeoutRequests (cfg : GlobalConfig) (n : ℕ) {w : World}
    (hkeyed : KeyedWorld w) (fd : ℤ) : Evolves (Replies n n) w (timeoutRequests cfg w fd) := by
  rw [timeoutRequests]
  refine List.foldlRecOn _ _ (Evolves.refl (.refl le_rfl) w) fun w' hw' id _ ↦ ?_
  exact hw'.trans .trans (evolves_timeoutRequest cfg n (hkeyed.evolve hw') fd id)

/-- `process_pending_output` on one request. -/
theorem evolves_answerPending (app : Application) (n : ℕ) {w : World} (hkeyed : KeyedWorld w)
    (p : RequestPtr) : Evolves (Replies n n) w (answerPending app w p) := by
  rcases answerPending_cases app w p with heq | ⟨r, c, offset, hr, -, -, -, heq⟩
  · rw [heq]
    exact .refl (.refl le_rfl) w
  rw [heq]
  obtain ⟨sent, hsent, hbytes, hlater⟩ := onRequestReady_spec app r offset
  set answer := onRequestReady app r offset
  obtain ⟨c₀, hc₀, hcid, hlookup, -⟩ := World.request_eq_some_iff.mp hr
  simp only [World.updateRequest, hr]
  intro k
  rw [World.lookup_updateRef, World.lookup_updateRef]
  cases hk : w.conns.lookup k with
  | none => exact .none
  | some c₁ =>
    rw [Option.map_some, Option.map_some]
    by_cases hp : k = p.conn.fd ∧ c₁.cid = p.conn.cid
    · obtain ⟨rfl, hcid₁⟩ := hp
      obtain rfl := Option.some.inj (hk.symm.trans hc₀)
      have hpos : p.conn.fd = p.conn.fd ∧ c₁.cid = p.conn.cid := ⟨rfl, hcid₁⟩
      rw [if_pos hpos, if_pos ⟨rfl, hcid₁⟩, hbytes]
      have hanswers : Answers n n c₁.requests c₁.outBuf (c₁.requests.insert p.id answer.1)
          (c₁.outBuf ++ sent.flatMap Record.encode) sent := by
        refine .of_insert le_rfl (.inl hlookup) hlater fun rec hrec ↦ ?_
        rw [hsent rec hrec]
        exact hkeyed hc₀ hlookup
      obtain ⟨epollOut, wanted, hanswer⟩ := appendAnswer_eq (sent.flatMap Record.encode)
        { c₁ with requests := c₁.requests.insert p.id answer.1 }
      rw [hanswer]
      exact .some ⟨rfl, sent, hanswers⟩
    · rw [if_neg hp, if_neg hp]
      exact .some (.refl le_rfl c₁)

private theorem evolves_processPendingOutput (app : Application) (n : ℕ) {w : World}
    (hkeyed : KeyedWorld w) : Evolves (Replies n n) w (processPendingOutput app w) := by
  rw [processPendingOutput]
  refine List.foldlRecOn _ _ (motive := Evolves (Replies n n) w) ?_ fun w' hw' p _ ↦ ?_
  · exact Evolves.refl (.refl le_rfl) w
  · exact hw'.trans .trans (evolves_answerPending app n (hkeyed.evolve hw') p)

/-- Nothing is written to a connection: requests may leave it or be released, and its output may be
flushed. -/
structure Quiet (c c' : Connection) : Prop where
  cid : c'.cid = c.cid
  outBuf : c'.outBuf = c.outBuf ∨ c'.outBuf = []
  requests {id r'} : c'.requests.lookup id = some r' → ∃ r, c.requests.lookup id = some r ∧
    r'.id = r.id ∧ r'.handle = r.handle ∧ r'.flags.responded = r.flags.responded ∧
    (r'.released = false → r.released = false)

theorem Quiet.of_requests {c c' : Connection} (hcid : c'.cid = c.cid)
    (hout : c'.outBuf = c.outBuf ∨ c'.outBuf = [])
    (hrequests : ∀ id, c'.requests.lookup id = c.requests.lookup id) : Quiet c c' :=
  ⟨hcid, hout, fun {id r'} hr' ↦ ⟨r', by rw [← hrequests, hr'], rfl, rfl, rfl, fun h ↦ h⟩⟩

theorem Quiet.refl (c : Connection) : Quiet c c := .of_requests rfl (.inl rfl) fun _ ↦ rfl

/-- One request changes beside what is sent for it. -/
theorem Quiet.of_insert {c c' : Connection} {id : UInt16} {r r' : Request}
    (hr : c.requests.lookup id = some r) (hcid : c'.cid = c.cid) (hout : c'.outBuf = c.outBuf)
    (hrequests : c'.requests = c.requests.insert id r') (hid : r'.id = r.id)
    (hhandle : r'.handle = r.handle) (hresponded : r'.flags.responded = r.flags.responded)
    (hreleased : r'.released = false → r.released = false) : Quiet c c' := by
  refine ⟨hcid, .inl hout, fun {i r₁} hr₁ ↦ ?_⟩
  rw [hrequests] at hr₁
  by_cases hi : i = id
  · subst hi
    rw [AList.lookup_insert, Option.some.injEq] at hr₁
    subst hr₁
    exact ⟨r, hr, hid, hhandle, hresponded, hreleased⟩
  · rw [AList.lookup_insert_ne hi] at hr₁
    exact ⟨r₁, hr₁, rfl, rfl, rfl, fun h ↦ h⟩

/-! ## Actions

Every action does one of three things to a connection: it is made, it is quiet, or some of its
requests are answered. An action that touches several connections does so to each of them. -/

/-- What an action can do to what connections send: a connection is new, it is quiet, or some of its
requests are answered. -/
structure Speaks (w w' : World) : Prop where
  le : w.nextHandle ≤ w'.nextHandle
  conns {k c'} : w'.conns.lookup k = some c' → c'.requests = ∅ ∨ ∃ c, w.conns.lookup k = some c ∧
    (Quiet c c' ∨ Replies w.nextHandle w'.nextHandle c c')

section Speaks

variable {w w' : World}

private theorem Speaks.of_quiet (hle : w.nextHandle ≤ w'.nextHandle)
    (hconns : ∀ {k c'}, w'.conns.lookup k = some c' →
      ∃ c, w.conns.lookup k = some c ∧ Quiet c c') : Speaks w w' := by
  refine ⟨hle, fun {k c'} hc' ↦ .inr ?_⟩
  obtain ⟨c, hc, hquiet⟩ := hconns hc'
  exact ⟨c, hc, .inl hquiet⟩

theorem Speaks.of_lookup (hle : w.nextHandle ≤ w'.nextHandle)
    (hconns : ∀ k, w'.conns.lookup k = w.conns.lookup k) : Speaks w w' :=
  .of_quiet hle fun {k c'} hc' ↦ ⟨c', by rw [← hconns, hc'], .refl c'⟩

theorem Speaks.of_evolves (hnext : w'.nextHandle = w.nextHandle) (h : Evolves Quiet w w') :
    Speaks w w' :=
  .of_quiet hnext.ge fun hc' ↦ h.lookup_left hc'

private theorem Speaks.of_replies (hle : w.nextHandle ≤ w'.nextHandle)
    (h : Evolves (Replies w.nextHandle w'.nextHandle) w w') : Speaks w w' := by
  refine ⟨hle, fun {k c'} hc' ↦ .inr ?_⟩
  obtain ⟨c, hc, hreplies⟩ := h.lookup_left hc'
  exact ⟨c, hc, .inr hreplies⟩

private theorem speaks_updateConn (w : World) (fd : ℤ) {f : Connection → Connection}
    (hf : ∀ c, w.conns.lookup fd = some c → Quiet c (f c)) : Speaks w (w.updateConn fd f) :=
  .of_evolves (World.nextHandle_updateConn fd f) (evolves_updateConn .refl w fd hf)

private theorem evolves_quiet_updateRequest (w : World) (p : RequestPtr) {f : Request → Request}
    (hf : ∀ r, (f r).id = r.id ∧ (f r).handle = r.handle ∧
      (f r).flags.responded = r.flags.responded ∧ (f r).released = r.released) :
    Evolves Quiet w (w.updateRequest p f) := by
  rw [World.updateRequest]
  split
  · exact .refl .refl w
  next r hr =>
  refine evolves_updateRef .refl w p.conn fun c hc ↦ ?_
  obtain ⟨c', hc', hcid, hlookup, -⟩ := World.request_eq_some_iff.mp hr
  rw [World.connection_eq_some_iff.mpr ⟨hc', hcid⟩, Option.some.injEq] at hc
  obtain ⟨hid, hhandle, hresponded, hreleased⟩ := hf r
  exact .of_insert (hc ▸ hlookup) rfl rfl rfl hid hhandle hresponded fun h ↦ hreleased ▸ h

private theorem speaks_new {fd : ℤ} {c : Connection} (hconns : w'.conns = w.conns.insert fd c)
    (hrequests : c.requests = ∅) (hnext : w'.nextHandle = w.nextHandle) : Speaks w w' := by
  refine ⟨hnext.ge, fun {k c'} hc' ↦ ?_⟩
  rw [hconns] at hc'
  by_cases hk : k = fd
  · rw [hk, AList.lookup_insert, Option.some.injEq] at hc'
    rw [← hc']
    exact .inl hrequests
  · rw [AList.lookup_insert_ne hk] at hc'
    exact .inr ⟨c', hc', .inl (.refl c')⟩

private theorem speaks_processFcgi (cfg : GlobalConfig) (hkeyed : KeyedWorld w) (fd : ℤ) :
    Speaks w (processFcgi cfg fd w) := by
  have hnext : (processFcgi cfg fd w).nextHandle = w.nextHandle ∨ ∃ c,
      w.conns.lookup fd = some c ∧
        (processFcgi cfg fd w).nextHandle = (processed cfg fd w c).ext.nextHandle := by
    rw [processFcgi]
    split
    · exact .inl rfl
    next c hc =>
    split
    · exact .inl rfl
    · exact .inr ⟨c, hc, World.nextHandle_updateConn _ _⟩
  have hprocessed {c : Connection} (hc : w.conns.lookup fd = some c) :=
    answers_processBuffer cfg cfg.toLimits ⟨fd, c.cid⟩ c.inBuf
      (m := ⟨c.requests, c.outBuf, w⟩) (hkeyed hc)
  have hle : w.nextHandle ≤ (processFcgi cfg fd w).nextHandle := by
    rcases hnext with heq | ⟨c, hc, heq⟩
    · exact heq.ge
    · obtain ⟨sent, hsent⟩ := hprocessed hc
      rw [heq]
      exact hsent.le
  refine ⟨hle, fun {k c'} hc' ↦ .inr ?_⟩
  obtain ⟨c, n, hc, -, ⟨-, rfl⟩ | ⟨rfl, hopen, rfl⟩⟩ := processFcgi_cases cfg hc'
  · exact ⟨c, hc, .inl (.of_requests rfl (.inl rfl) fun _ ↦ rfl)⟩
  · obtain ⟨sent, hsent⟩ := hprocessed hc
    have heq : (processFcgi cfg k w).nextHandle = (processed cfg k w c).ext.nextHandle := by
      rw [processFcgi, hc]
      simp only
      rw [hopen, if_neg Bool.false_ne_true]
      exact World.nextHandle_updateConn _ _
    refine ⟨c, hc, .inr ⟨rfl, sent, ?_⟩⟩
    rw [heq]
    exact hsent

private theorem speaks_workerStep (app : Application) (k : ℕ) (w : World) :
    Speaks w (workerStep app k w) := by
  have hupdate (w₁ : World) {w₂ : World} (p : RequestPtr) (f : Request → Request)
      (hf : ∀ r, (f r).id = r.id ∧ (f r).handle = r.handle ∧
        (f r).flags.responded = r.flags.responded ∧ (f r).released = r.released)
      (hconns : w₁.conns = w.conns) (hnext : w₁.nextHandle = w.nextHandle)
      (hconns₂ : w₂.conns = (w₁.updateRequest p f).conns)
      (hnext₂ : w₂.nextHandle = (w₁.updateRequest p f).nextHandle) : Speaks w w₂ := by
    have hled := sameLedger_updateRequest w₁ p f
    refine .of_evolves (by rw [hnext₂, hled.nextHandle, hnext]) fun k ↦ ?_
    rw [hconns₂, ← hconns]
    exact evolves_quiet_updateRequest w₁ p hf k
  rcases workerStep_cases app k w with
    heq | ⟨t, -, ⟨ph, -, heq⟩ | ⟨-, heq⟩ | ⟨-, heq⟩ | ⟨-, heq⟩⟩
  · rw [heq]
    exact .of_lookup le_rfl fun _ ↦ rfl
  · rw [heq]
    exact .of_lookup le_rfl fun _ ↦ rfl
  · rw [heq]
    exact hupdate { w with tasks := w.tasks.set k { t with phase := .pushed } } t.request
      app.prepared (fun r ↦ ⟨rfl, rfl, rfl, rfl⟩) rfl rfl rfl rfl
  · rw [heq]
    exact hupdate { w with tasks := w.tasks.set k { t with phase := .cleared } } t.request
      (fun r ↦ { r with workerActive := false }) (fun r ↦ ⟨rfl, rfl, rfl, rfl⟩) rfl rfl rfl rfl
  · rw [heq]
    refine .of_evolves (by simp) ?_
    exact evolves_updateRef .refl w t.request.conn fun c _ ↦
      .of_requests rfl (.inl rfl) fun _ ↦ rfl

private theorem speaks_timeoutRequests (cfg : GlobalConfig) (hkeyed : KeyedWorld w) (fd : ℤ) :
    Speaks w (timeoutRequests cfg w fd) := by
  have hnext : (timeoutRequests cfg w fd).nextHandle = w.nextHandle :=
    List.foldlRecOn (requestIds fd w) (timeoutRequest cfg fd)
      (motive := fun w' ↦ w'.nextHandle = w.nextHandle) rfl
      fun w' hw' id _ ↦ (World.nextHandle_updateConn _ _).trans hw'
  refine .of_replies hnext.ge ?_
  rw [hnext]
  exact evolves_timeoutRequests cfg w.nextHandle hkeyed fd

private theorem speaks_processPendingOutput (app : Application) (hkeyed : KeyedWorld w) :
    Speaks w (processPendingOutput app w) := by
  have hanswer (w : World) (p : RequestPtr) :
      (answerPending app w p).nextHandle = w.nextHandle := by
    rcases answerPending_cases app w p with heq | ⟨r, c, offset, -, -, -, -, heq⟩
    · rw [heq]
    · rw [heq]
      exact (World.nextHandle_updateRef _ _).trans (sameLedger_updateRequest w p _).nextHandle
  have hnext : (processPendingOutput app w).nextHandle = w.nextHandle :=
    List.foldlRecOn w.pendingOutput (answerPending app)
      (b := { w with pendingOutput := [] }) (motive := fun w' ↦ w'.nextHandle = w.nextHandle) rfl
      fun w' hw' p _ ↦ (hanswer w' p).trans hw'
  refine .of_replies hnext.ge ?_
  rw [hnext]
  exact evolves_processPendingOutput app w.nextHandle hkeyed

/-! ### Releases -/

private theorem speaks_finalizeRequest (cfg : GlobalConfig) (fd : ℤ) (id : UInt16) (w : World) :
    Speaks w (finalizeRequest cfg fd id w) := by
  rw [finalizeRequest]
  split
  · exact .of_lookup le_rfl fun _ ↦ rfl
  next r hr =>
  refine .of_evolves (World.nextHandle_updateConn fd _) ?_
  refine evolves_updateConn .refl w fd fun c hc ↦ ?_
  rw [hc, Option.bind_some] at hr
  exact .of_insert hr rfl rfl rfl rfl rfl rfl fun h ↦ h

private theorem speaks_destroyRequest (fd : ℤ) (id : UInt16) (w : World) :
    Speaks w (destroyRequest fd id w) := by
  rw [destroyRequest]
  split
  · exact .of_lookup le_rfl fun _ ↦ rfl
  next r hr =>
  have hquiet : Evolves Quiet w (w.updateConn fd fun c ↦
      { c with requests := c.requests.insert id { r with released := true } }) := by
    refine evolves_updateConn .refl w fd fun c hc ↦ ?_
    rw [hc, Option.bind_some] at hr
    exact .of_insert hr rfl rfl rfl rfl rfl rfl fun h ↦ absurd h.symm Bool.false_ne_true
  simp only
  split
  · exact .of_evolves (World.nextHandle_updateConn fd _) hquiet
  · exact .of_evolves (World.nextHandle_updateConn fd _) hquiet

private theorem speaks_eraseRequest (fd : ℤ) (id : UInt16) (w : World) :
    Speaks w (eraseRequest fd id w) := by
  refine speaks_updateConn w fd fun c _ ↦ ⟨rfl, .inl rfl, fun {i r} hr ↦ ?_⟩
  simp only at hr
  by_cases hi : i = id
  · rw [hi, AList.lookup_erase] at hr
    cases hr
  · rw [AList.lookup_erase_ne hi] at hr
    exact ⟨r, hr, rfl, rfl, rfl, fun h ↦ h⟩

private theorem speaks_eraseConnection (fd : ℤ) (w : World) : Speaks w (eraseConnection fd w) := by
  rw [eraseConnection]
  split
  · exact .of_lookup le_rfl fun _ ↦ rfl
  · refine .of_quiet le_rfl fun {k c'} hc' ↦ ⟨c', ?_, .refl c'⟩
    by_cases hk : k = fd
    · rw [hk, AList.lookup_erase] at hc'
      cases hc'
    · rwa [AList.lookup_erase_ne hk] at hc'

private theorem speaks_acceptConnection (cfd : ℤ) (w : World) :
    Speaks w (acceptConnection cfd w) := by
  rw [acceptConnection]
  cases hc : w.conns.lookup cfd with
  | some c =>
    refine .of_evolves rfl (.of_puts .refl hc (puts_of_conns rfl) ?_)
    exact .of_requests rfl (.inl rfl) fun _ ↦ rfl
  | none => exact speaks_new rfl rfl rfl

end Speaks

variable {cfg : GlobalConfig} {app : Application} {w : World}

/-- **No action writes anything but answers.** -/
theorem speaks_act (hkeyed : KeyedWorld w) (a : Action) : Speaks w (act cfg app w a) := by
  cases a with
  | hangUp fd => exact speaks_updateConn w fd fun c _ ↦ .of_requests rfl (.inl rfl) fun _ ↦ rfl
  | read fd data ending =>
    exact speaks_updateConn w fd fun c _ ↦ .of_requests rfl (.inl rfl) fun _ ↦ rfl
  | process fd => exact speaks_processFcgi cfg hkeyed fd
  | flush fd =>
    obtain ⟨conns, sends, closeQueue, heq⟩ := flushConnection_eq fd w
    have hnext : (flushConnection fd w).nextHandle = w.nextHandle := by rw [heq]
    refine .of_quiet hnext.ge fun hc' ↦ ?_
    obtain ⟨c, hc, hflushed, -⟩ := flushed_flushConnection hc'
    exact ⟨c, hc, .of_requests hflushed.cid hflushed.outBuf fun id ↦ by rw [hflushed.requests]⟩
  | timeouts fd => exact speaks_timeoutRequests cfg hkeyed fd
  | pendingOutput => exact speaks_processPendingOutput app hkeyed
  | finalize fd id => exact speaks_finalizeRequest cfg fd id w
  | destroy fd id => exact speaks_destroyRequest fd id w
  | erase fd id => exact speaks_eraseRequest fd id w
  | clear fd =>
    refine speaks_updateConn w fd fun c _ ↦ ⟨rfl, .inl rfl, fun {id r} hr ↦ ?_⟩
    rw [AList.lookup_empty] at hr
    cases hr
  | close fd => exact speaks_eraseConnection fd w
  | index fd =>
    rw [act, indexConns]
    split
    · exact .of_lookup le_rfl fun _ ↦ rfl
    · exact speaks_new rfl rfl rfl
  | accept cfd => exact speaks_acceptConnection cfd w
  | worker k => exact speaks_workerStep app k w
  | outside elapsed sends => exact .of_lookup le_rfl fun _ ↦ rfl
  | wsTake =>
    rw [act, step]
    split
    · exact .of_lookup le_rfl fun _ ↦ rfl
    · exact .of_lookup (Nat.le_succ _) fun _ ↦ rfl
  | wsReturn k =>
    rw [act, step]
    split
    · exact .of_lookup le_rfl fun _ ↦ rfl
    · exact .of_lookup le_rfl fun _ ↦ rfl
  | rehash fds fd ids =>
    rw [act, step]
    refine .of_evolves (World.nextHandle_updateConn fd _) fun k ↦ ?_
    rw [World.lookup_updateConn, lookup_reorder]
    cases hk : w.conns.lookup k with
    | none => exact .none
    | some c =>
      rw [Option.map_some]
      split
      · exact .some (.of_requests rfl (.inl rfl) fun id ↦ lookup_reorder _ _ _)
      · exact .some (.refl c)
  | queues closeQueue waitingConns acceptPaused => exact .of_lookup le_rfl fun _ ↦ rfl

theorem KeyedWorld.act (hkeyed : KeyedWorld w) (a : Action) :
    KeyedWorld (act cfg app w a) := by
  intro fd c' hc' id r' hr'
  rcases (speaks_act hkeyed a).conns hc' with hnil | ⟨c, hc, hquiet | ⟨-, sent, hsent⟩⟩
  · rw [hnil, AList.lookup_empty] at hr'
    cases hr'
  · obtain ⟨r, hr, hid, -⟩ := hquiet.requests hr'
    rw [hid, hkeyed hc hr]
  · exact hsent.keyed (hkeyed hc) hr'

/-! ## What an observer of the output sees

The observer compares the output buffers in front of and behind an action. What has been appended is
read back as records, and those that bear the id of the request are what has been written for it. -/

/-- The length of the output buffer of a connection. -/
def outLength (w : World) (p : ConnRef) : ℕ :=
  ((w.connection p).map fun c ↦ c.outBuf.length).getD 0

/-- The records written for a request when `w` becomes `w'`: those of its id among the records that
the output of its connection has grown by, provided the request is there. -/
def emitted (w w' : World) (p : RequestPtr) : List Record :=
  match w'.connection p.conn, w'.request p with
  | some c, some _ =>
    (recordFramer.frames (c.outBuf.drop (outLength w p.conn))).filter
      fun rec ↦ rec.requestId = p.id
  | _, _ => []

variable (cfg app) in
/-- The records a run of actions writes for a request. -/
def emissions : World → List Action → RequestPtr → List Record
  | _, [], _ => []
  | w, a :: as, p =>
    emitted w (FcgiConn.act cfg app w a) p ++ emissions (FcgiConn.act cfg app w a) as p

/-- Nothing is written for a request that is not there. -/
theorem emitted_of_none {w w' : World} {p : RequestPtr} (h : w'.request p = none) :
    emitted w w' p = [] := by
  rw [emitted, h]
  split
  · next heq => cases heq
  · rfl

private theorem emitted_of_some {w w' : World} {p : RequestPtr} {c : Connection} {r : Request}
    (hc : w'.connection p.conn = some c) (hr : w'.request p = some r) :
    emitted w w' p = (recordFramer.frames (c.outBuf.drop (outLength w p.conn))).filter
      fun rec ↦ rec.requestId = p.id := by
  rw [emitted, hc, hr]

/-- **What one action writes for a request.** The request was there before, or it is new. -/
theorem sends_emitted {w w' : World} (h : Speaks w w') {p : RequestPtr} {r' : Request}
    (hr' : w'.request p = some r') :
    (∃ r, w.request p = some r ∧ Sends r.flags.responded (emitted w w' p) r'.flags.responded) ∨
      (w.nextHandle ≤ p.handle ∧ p.handle < w'.nextHandle ∧
        Sends false (emitted w w' p) r'.flags.responded) := by
  obtain ⟨c', hc', hcid', hlookup', hhandle', hreleased'⟩ := World.request_eq_some_iff.mp hr'
  have hframes (c : Connection) (hc : w.conns.lookup p.conn.fd = some c)
      (hcid : c'.cid = c.cid) : emitted w w' p
        = (recordFramer.frames (c'.outBuf.drop c.outBuf.length)).filter
            fun rec ↦ rec.requestId = p.id := by
    rw [emitted_of_some (World.connection_eq_some_iff.mpr ⟨hc', hcid'⟩) hr', outLength,
      World.connection_eq_some_iff.mpr ⟨hc, hcid.symm.trans hcid'⟩]
    rfl
  rcases h.conns hc' with hnil | ⟨c, hc, hquiet | ⟨hcid, sent, hsent⟩⟩
  · rw [hnil, AList.lookup_empty] at hlookup'
    cases hlookup'
  · obtain ⟨r, hr, -, hhandle, hresponded, hreleased⟩ := hquiet.requests hlookup'
    refine .inl ⟨r, World.request_eq_some_iff.mpr ⟨c, hc, hquiet.cid.symm.trans hcid', hr,
      hhandle.symm.trans hhandle', hreleased hreleased'⟩, ?_⟩
    have hdrop : c'.outBuf.drop c.outBuf.length = [] := by
      rcases hquiet.outBuf with heq | heq
      · rw [heq, List.drop_length]
      · rw [heq, List.drop_nil]
    rw [hframes c hc hquiet.cid, hdrop, Framer.frames_of_none recordFramer.next_nil,
      List.filter_nil, hresponded]
    exact .nothing _
  · have hemitted : emitted w w' p = sent.filter fun rec ↦ rec.requestId = p.id := by
      rw [hframes c hc hcid, hsent.out, List.drop_left, frames_flatMap_encode]
    rw [hemitted]
    obtain ⟨r, hr | ⟨-, -, hresponded, hle, hlt⟩, hlater⟩ := hsent.later hlookup'
    · exact .inl ⟨r, World.request_eq_some_iff.mpr ⟨c, hc, hcid.symm.trans hcid', hr,
        hlater.handle.symm.trans hhandle', hlater.released.symm.trans hreleased'⟩, hlater.sends⟩
    · rw [hlater.handle] at hhandle'
      rw [hhandle'] at hle hlt
      exact .inr ⟨hle, hlt, hresponded ▸ hlater.sends⟩

/-! ## Runs

A request is recognized by its handle, which no other request ever gets. So what was written for it
can be summed up over a run, from the action that allocates it to the last one that finds it in its
map. -/

/-- `sent` lists what has been written for every request so far. -/
structure Recorded (w : World) (sent : RequestPtr → List Record) : Prop where
  keyed : KeyedWorld w
  handle_lt {p r} : w.request p = some r → p.handle < w.nextHandle
  sends {p r} : w.request p = some r → Sends false (sent p) r.flags.responded
  fresh {p} : w.nextHandle ≤ p.handle → sent p = []

variable (cfg app) in
theorem Recorded.act {sent : RequestPtr → List Record} (h : Recorded w sent) (a : Action) :
    Recorded (act cfg app w a) fun p ↦ sent p ++ emitted w (FcgiConn.act cfg app w a) p := by
  have hspeaks : Speaks w (FcgiConn.act cfg app w a) := speaks_act h.keyed a
  have hlt : ∀ {p r'}, (FcgiConn.act cfg app w a).request p = some r' →
      p.handle < (FcgiConn.act cfg app w a).nextHandle := by
    intro p r' hr'
    rcases sends_emitted hspeaks hr' with ⟨r, hr, -⟩ | ⟨-, hlt, -⟩
    · exact (h.handle_lt hr).trans_le hspeaks.le
    · exact hlt
  refine ⟨KeyedWorld.act h.keyed a, hlt, fun {p r'} hr' ↦ ?_, fun {p} hle ↦ ?_⟩
  · rcases sends_emitted hspeaks hr' with ⟨r, hr, hsends⟩ | ⟨hle, -, hsends⟩
    · exact (h.sends hr).trans hsends
    · rwa [h.fresh hle, List.nil_append]
  · have hnone : (FcgiConn.act cfg app w a).request p = none := by
      refine Option.eq_none_iff_forall_ne_some.mpr fun r' hr' ↦ ?_
      exact absurd (hlt hr') (Nat.not_lt.mpr hle)
    rw [h.fresh (hspeaks.le.trans hle), emitted_of_none hnone, List.append_nil]

variable (cfg app) in
theorem Recorded.run {sent : RequestPtr → List Record} (h : Recorded w sent) (as : List Action) :
    Recorded (as.foldl (FcgiConn.act cfg app) w) fun p ↦ sent p ++ emissions cfg app w as p := by
  induction as generalizing w sent with
  | nil =>
    simp only [emissions, List.append_nil]
    exact h
  | cons a as ih =>
    have := ih (h.act cfg app a)
    simp only [List.append_assoc] at this
    exact this

private theorem recorded_initial (bases : List UInt64) (capacity : UInt64) :
    Recorded (initial bases capacity) fun _ ↦ [] := by
  have hnone : ∀ p, (initial bases capacity).request p = none := fun p ↦ rfl
  refine ⟨fun {fd c} hc ↦ ?_, fun {p r} hr ↦ ?_, fun {p r} hr ↦ ?_, fun _ ↦ rfl⟩
  · cases hc
  · rw [hnone] at hr
    cases hr
  · rw [hnone] at hr
    cases hr

/-- **One terminal answer for each request.** In every run of actions, in whatever order they come,
what has been written for a request since it was allocated is one answer, complete exactly when
RESPONDED is set, as long as the request has not been released. -/
theorem oneAnswer_emissions (cfg : GlobalConfig) (app : Application) (bases : List UInt64)
    (capacity : UInt64) (as : List Action) {p : RequestPtr} {r : Request}
    (hr : (as.foldl (act cfg app) (initial bases capacity)).request p = some r) :
    OneAnswer r.flags.responded (emissions cfg app (initial bases capacity) as p) :=
  (((recorded_initial bases capacity).run cfg app as).sends hr).oneAnswer

/-- The event loop takes the actions in one of the orders. -/
theorem exists_recorded_of_events (cfg : GlobalConfig) (app : Application) (bases : List UInt64)
    (capacity : UInt64) (events : List Event) :
    ∃ as : List Action, as.foldl (act cfg app) (initial bases capacity)
        = events.foldl (step cfg app) (initial bases capacity) ∧
      Recorded (events.foldl (step cfg app) (initial bases capacity))
        (emissions cfg app (initial bases capacity) as) := by
  obtain ⟨as, -, heq⟩ := acts_foldl cfg app (acts_step cfg app) events (initial bases capacity)
  have hrun := (recorded_initial bases capacity).run cfg app as
  rw [heq] at hrun
  exact ⟨as, heq, hrun⟩

/-- A request is received, prepared by a worker and answered. -/
def answering : List Action :=
  [.accept 5, .read 5 emptyRequest .again, .process 5, .worker 0, .worker 0, .worker 0,
    .pendingOutput]

theorem oneAnswer_emissions_answering :
    OneAnswer true (emissions {} silent (initial [0x10000] 0x10000) answering ⟨⟨5, 0⟩, 1, 0⟩) := by
  obtain ⟨r, hr, hresponded⟩ := (Option.any_eq_true _ _).mp
    (by decide +kernel : ((answering.foldl (act {} silent) (initial [0x10000] 0x10000)).request
      ⟨⟨5, 0⟩, 1, 0⟩).any (fun r ↦ r.flags.responded) = true)
  have hone := oneAnswer_emissions {} silent [0x10000] 0x10000 answering hr
  rwa [hresponded] at hone

end Wasapi.FcgiConn
