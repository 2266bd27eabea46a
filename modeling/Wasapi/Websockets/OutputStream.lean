import Wasapi.Websockets.Interest

/-!
# What a peer is sent

The output of a client grows by whole messages: the answer to its handshake, the answers to its
pings, and the frames the tasks have left. `send_all` takes octets off its front, and when a call of
`send` fails it throws the rest away and goes on with what is appended later.

For every descriptor an observer keeps the messages that have been appended since it was accepted
and the octets that `send` has taken. What has been taken, followed by what is still in the buffer,
is what has been appended exactly as long as no call has failed; afterwards something is missing in
the middle of it, but nothing is out of order and nothing is sent twice.
-/

namespace Wasapi.Websockets

open Fastcgi

/-- Everything that is ever appended to an output is one of these. -/
inductive IsMessage (app : Application) : Bytes → Prop
  | switching (acceptKey : Bytes) : IsMessage app (switchingProtocols acceptKey)
  | pong (payload : Bytes) : IsMessage app (buildWsFrame 0xA payload)
  | reply (t : Task) : IsMessage app (t.frame app)

/-! ## The messages of an event

What an event appends is computed from what it reads, frame by frame, without a look at the output.
That the output grows by just this is proved next. -/

/-- What the part of a read event before the handshake appends. -/
def readMessages (sha1 : Bytes → Bytes) (c : Client) : List Bytes :=
  let inHttp := c.inHttp ++ c.inBuf
  match findPattern crlfcrlf inHttp with
  | none => []
  | some hdrEnd =>
    match parseHttpHeaders sha1 (inHttp.take (hdrEnd + 4)) with
    | some (_, acceptKey) => [switchingProtocols acceptKey]
    | none => []

/-- What one frame appends. -/
def frameMessages (h : FrameHead) (payload : Bytes) : List Bytes :=
  if h.opcode = 0x9 then [buildWsFrame 0xA payload] else []

/-- What the frame loop appends. -/
def loopMessages : ℕ → Client → List Bytes
  | 0, _ => []
  | fuel + 1, c =>
    match FrameHead.read c.inBuf with
    | none => []
    | some h =>
      if c.inBuf.length < sizeT h.total then []
      else if c.inBuf.length < h.total then []
      else
        let handled := handleFrame h (h.payload c.inBuf) c
        frameMessages h (h.payload c.inBuf) ++
          loopMessages fuel { handled.1 with inBuf := c.inBuf.drop h.total }

section

variable (cfg : GlobalConfig) (app : Application)

/-- What one read event appends. -/
def inputMessages (data : Bytes) (ending : RecvEnd) (c : Client) : List Bytes :=
  let c₁ := receive data ending c
  let c₂ := (readPart app data ending c).1
  (if c₁.handshakeDone then [] else readMessages app.sha1 c₁) ++
    if c₂.handshakeDone then loopMessages c₂.inBuf.length c₂ else []

def eventMessages (events : IoEvents) (data : Bytes) (ending : RecvEnd) (c : Client) :
    List Bytes :=
  let c := if events.hupOrErr then { c with closed := true } else c
  if events.epollIn then inputMessages app data ending c else []

end

/-! ## The sends of an event

`send_all` hands over what the socket takes, and on an error it drops what is left. An observer of
the socket sees the octets and knows whether a call has failed. -/

/-- The octets `send_all` hands to the socket, and whether its last call has failed. -/
def sendTaken : List SendResult → Bytes → Bytes × Bool
  | [], _ => ([], false)
  | r :: sends, buf =>
    if buf.isEmpty then ([], false)
    else
      match r with
      | .sent n =>
        let t := sendTaken sends (buf.drop (n + 1))
        (buf.take (n + 1) ++ t.1, t.2)
      | .again => ([], false)
      | .error => ([], true)

/-- What is known of the output of the connection that has a descriptor. -/
structure Stream where
  /-- the messages that have been appended -/
  messages : List Bytes := []
  /-- the octets `send` has taken -/
  sent : Bytes := []
  /-- a call of `send` has failed -/
  failed : Bool := false

def Stream.append (st : Stream) (messages : List Bytes) : Stream :=
  { st with messages := st.messages ++ messages }

def Stream.sendAll (st : Stream) (sends : List SendResult) (outBuf : Bytes) : Stream :=
  let t := sendTaken sends outBuf
  { st with sent := st.sent ++ t.1, failed := st.failed || t.2 }

/-- Behind the sends at the end of an event. -/
def finishStream (epollOut : Bool) (c : Client) (s : Server) (st : Stream) : Stream :=
  let p := if epollOut then sendAll s.sends c.outBuf else (c.outBuf, s.sends)
  let st := if epollOut then st.sendAll s.sends c.outBuf else st
  st.sendAll p.2 p.1

section

variable (cfg : GlobalConfig) (app : Application)

def clientStream (events : IoEvents) (data : Bytes) (ending : RecvEnd) (c : Client) (s : Server)
    (st : Stream) : Stream :=
  let p := eventPart cfg app events data ending c s
  let st := st.append (eventMessages app events data ending c)
  if p.2.terminated then st else finishStream events.epollOut p.1 p.2 st

/-- The observer behind an event. An accepted descriptor starts anew. -/
def observe (s : Server) (streams : ℤ → Stream) : Event → ℤ → Stream
  | .accept _ => fun fd ↦ if (s.clients.lookup fd).isSome then streams fd else {}
  | .client fd events data ending =>
    match s.clients.lookup fd with
    | none => streams
    | some c =>
      Function.update streams fd (clientStream cfg app events data ending c s (streams fd))
  | .pending =>
    s.pendingFrames.foldl (fun streams pf ↦
      Function.update streams pf.fd ((streams pf.fd).append [pf.frame])) streams
  | _ => streams

structure Observed where
  server : Server
  streams : ℤ → Stream := fun _ ↦ {}

def observedStep (o : Observed) (e : Event) : Observed where
  server := step cfg app o.server e
  streams := if o.server.terminated then o.streams else observe cfg app o.server o.streams e

end

variable {cfg : GlobalConfig} {app : Application} {s : Server}

/-! ## One event

The loop appends pongs, and the drain appends the frames of tasks. Each of them is a whole message,
and the order is the order in which they are appended. -/

private theorem outBuf_readHttp (sha1 : Bytes → Bytes) (c : Client) :
    (readHttp sha1 c).1.outBuf = c.outBuf ++ (readMessages sha1 c).flatten := by
  rw [readHttp, readMessages]
  simp only
  cases findPattern crlfcrlf (c.inHttp ++ c.inBuf) with
  | none =>
    simp only [List.flatten_nil, List.append_nil]
    split <;> rfl
  | some hdrEnd =>
    simp only
    cases parseHttpHeaders sha1 ((c.inHttp ++ c.inBuf).take (hdrEnd + 4)) with
    | none =>
      simp only [List.flatten_nil, List.append_nil]
      split <;> rfl
    | some keys => simp only [List.flatten_cons, List.flatten_nil, List.append_nil]

private theorem outBuf_handleFrame (h : FrameHead) (payload : Bytes) (c : Client) :
    (handleFrame h payload c).1.outBuf = c.outBuf ++ (frameMessages h payload).flatten := by
  rw [handleFrame, frameMessages]
  by_cases h9 : h.opcode = 0x9
  · rw [if_pos h9, if_pos h9, if_neg (by rw [h9]; decide)]
    simp only [List.flatten_cons, List.flatten_nil, List.append_nil]
  · rw [if_neg h9, if_neg h9, List.flatten_nil, List.append_nil]
    split
    · rfl
    split
    · rfl
    split
    · simp only
      split <;> split <;> rfl
    split
    · split
      · rfl
      · simp only
        split <;> rfl
    · rfl

/-- By induction on the turns of the frame loop. -/
theorem outBuf_frameLoop (fuel : ℕ) (c : Client) :
    (frameLoop fuel c).client.outBuf = c.outBuf ++ (loopMessages fuel c).flatten := by
  induction fuel generalizing c with
  | zero => exact (List.append_nil _).symm
  | succ fuel ih =>
    rw [frameLoop, loopMessages]
    cases FrameHead.read c.inBuf with
    | none => exact (List.append_nil _).symm
    | some h =>
      simp only
      by_cases hsize : c.inBuf.length < sizeT h.total
      · rw [if_pos hsize, if_pos hsize]
        exact (List.append_nil _).symm
      by_cases hthrown : c.inBuf.length < h.total
      · rw [if_neg hsize, if_neg hsize, if_pos hthrown, if_pos hthrown]
        exact (List.append_nil _).symm
      · rw [if_neg hsize, if_neg hsize, if_neg hthrown, if_neg hthrown, List.flatten_append,
          ← List.append_assoc, ← outBuf_handleFrame]
        exact ih _

private theorem outBuf_handleInput (data : Bytes) (ending : RecvEnd) (c : Client) (s : Server) :
    (handleInput cfg app data ending c s).1.outBuf
      = c.outBuf ++ (inputMessages app data ending c).flatten := by
  have hread : (readPart app data ending c).1.outBuf = c.outBuf ++
      (if (receive data ending c).handshakeDone then []
        else readMessages app.sha1 (receive data ending c)).flatten := by
    rw [readPart]
    split
    · exact (List.append_nil _).symm
    · exact outBuf_readHttp app.sha1 (receive data ending c)
  rw [handleInput_eq, inputMessages, List.flatten_append, ← List.append_assoc]
  simp only
  rw [← hread]
  split
  · exact outBuf_frameLoop _ _
  · exact (List.append_nil _).symm

private theorem outBuf_eventPart (events : IoEvents) (data : Bytes) (ending : RecvEnd) (c : Client)
    (s : Server) :
    (eventPart cfg app events data ending c s).1.outBuf
      = c.outBuf ++ (eventMessages app events data ending c).flatten := by
  set c₁ : Client := if events.hupOrErr then { c with closed := true } else c with hc₁
  have hout : c₁.outBuf = c.outBuf := by
    rw [hc₁]
    split <;> rfl
  have heq : eventPart cfg app events data ending c s =
      if events.epollIn then handleInput cfg app data ending c₁ s else (c₁, s) := rfl
  have hmessages : eventMessages app events data ending c =
      if events.epollIn then inputMessages app data ending c₁ else [] := rfl
  rw [heq, hmessages, ← hout]
  split
  · exact outBuf_handleInput data ending c₁ s
  · exact (List.append_nil _).symm

private theorem isMessage_of_mem_frameMessages {h : FrameHead} {payload m : Bytes}
    (hm : m ∈ frameMessages h payload) : IsMessage app m := by
  rw [frameMessages] at hm
  split at hm
  · rw [List.mem_singleton.mp hm]
    exact .pong payload
  · exact absurd hm List.not_mem_nil

private theorem isMessage_of_mem_loopMessages {fuel : ℕ} {c : Client} {m : Bytes}
    (hm : m ∈ loopMessages fuel c) : IsMessage app m := by
  induction fuel generalizing c with
  | zero => exact absurd hm List.not_mem_nil
  | succ fuel ih =>
    rw [loopMessages] at hm
    split at hm
    · exact absurd hm List.not_mem_nil
    split at hm
    · exact absurd hm List.not_mem_nil
    split at hm
    · exact absurd hm List.not_mem_nil
    · rcases List.mem_append.mp hm with hm | hm
      · exact isMessage_of_mem_frameMessages hm
      · exact ih hm

private theorem isMessage_of_mem_readMessages {sha1 : Bytes → Bytes} {c : Client} {m : Bytes}
    (hm : m ∈ readMessages sha1 c) : IsMessage app m := by
  rw [readMessages] at hm
  split at hm
  · exact absurd hm List.not_mem_nil
  split at hm
  · rw [List.mem_singleton.mp hm]
    exact .switching _
  · exact absurd hm List.not_mem_nil

private theorem isMessage_of_mem_inputMessages {data : Bytes} {ending : RecvEnd} {c : Client}
    {m : Bytes} (hm : m ∈ inputMessages app data ending c) : IsMessage app m := by
  rw [inputMessages] at hm
  rcases List.mem_append.mp hm with hm | hm
  · split at hm
    · exact absurd hm List.not_mem_nil
    · exact isMessage_of_mem_readMessages hm
  · split at hm
    · exact isMessage_of_mem_loopMessages hm
    · exact absurd hm List.not_mem_nil

private theorem isMessage_of_mem_eventMessages {events : IoEvents} {data : Bytes} {ending : RecvEnd}
    {c : Client} {m : Bytes} (hm : m ∈ eventMessages app events data ending c) :
    IsMessage app m := by
  rw [eventMessages] at hm
  split at hm
  · exact isMessage_of_mem_inputMessages hm
  · exact absurd hm List.not_mem_nil

/-! ## The invariant

Sent and unsent octets together are the messages, in order. A failed call drops what is left of the
buffer, and the observer remembers that there was one. -/

/-- What has been sent and what is still to be sent are what has been appended, in order, and
nothing is missing unless a call has failed. -/
structure Transmits (app : Application) (st : Stream) (outBuf : Bytes) : Prop where
  message : ∀ m ∈ st.messages, IsMessage app m
  sublist : (st.sent ++ outBuf).Sublist st.messages.flatten
  failed : st.failed = false ↔ st.sent ++ outBuf = st.messages.flatten

private theorem transmits_new (app : Application) : Transmits app {} [] :=
  ⟨fun _ hm ↦ absurd hm List.not_mem_nil, .slnil, iff_of_true rfl rfl⟩

theorem Transmits.append {st : Stream} {outBuf : Bytes} (h : Transmits app st outBuf)
    {messages : List Bytes} (hmessages : ∀ m ∈ messages, IsMessage app m) :
    Transmits app (st.append messages) (outBuf ++ messages.flatten) where
  message m hm := (List.mem_append.mp hm).elim (h.message m) (hmessages m)
  sublist := by
    rw [Stream.append, List.flatten_append, ← List.append_assoc]
    exact h.sublist.append_right _
  failed := by
    simp only [Stream.append]
    rw [List.flatten_append, ← List.append_assoc, List.append_left_inj]
    exact h.failed

/-- **What `send_all` takes off the buffer it hands to the socket**, unless a call fails: then the
rest is lost, and there is a rest. -/
theorem sendTaken_spec (sends : List SendResult) (buf : Bytes) :
    ((sendTaken sends buf).2 = false →
        (sendTaken sends buf).1 ++ (sendAll sends buf).1 = buf) ∧
      ((sendTaken sends buf).2 = true → (sendAll sends buf).1 = [] ∧
        ∃ lost ≠ [], (sendTaken sends buf).1 ++ lost = buf) := by
  induction sends generalizing buf with
  | nil => exact ⟨fun _ ↦ rfl, fun h ↦ absurd h Bool.false_ne_true⟩
  | cons r sends ih =>
    by_cases hempty : buf.isEmpty = true
    · unfold sendTaken sendAll
      rw [if_pos hempty, if_pos hempty]
      exact ⟨fun _ ↦ rfl, fun h ↦ absurd h Bool.false_ne_true⟩
    unfold sendTaken sendAll
    rw [if_neg hempty, if_neg hempty]
    cases r with
    | sent n =>
      obtain ⟨hkept, hlost⟩ := ih (buf.drop (n + 1))
      refine ⟨fun h ↦ ?_, fun h ↦ ?_⟩
      · rw [List.append_assoc, hkept h, List.take_append_drop]
      · obtain ⟨hnil, lost, hne, hrest⟩ := hlost h
        refine ⟨hnil, lost, hne, ?_⟩
        rw [List.append_assoc, hrest, List.take_append_drop]
    | again => exact ⟨fun _ ↦ rfl, fun h ↦ absurd h Bool.false_ne_true⟩
    | error =>
      refine ⟨fun h ↦ absurd h.symm Bool.false_ne_true, fun _ ↦ ⟨rfl, buf, ?_, rfl⟩⟩
      exact fun hnil ↦ hempty (List.isEmpty_iff.mpr hnil)

theorem Transmits.sendAll {st : Stream} {outBuf : Bytes} (h : Transmits app st outBuf)
    (sends : List SendResult) :
    Transmits app (st.sendAll sends outBuf) (sendAll sends outBuf).1 := by
  obtain ⟨hkept, hlost⟩ := sendTaken_spec sends outBuf
  cases hfailed : (sendTaken sends outBuf).2 with
  | false =>
    have hsame : (st.sendAll sends outBuf).sent ++ (Websockets.sendAll sends outBuf).1
        = st.sent ++ outBuf := by
      rw [Stream.sendAll, List.append_assoc, hkept hfailed]
    refine ⟨h.message, hsame ▸ h.sublist, ?_⟩
    rw [hsame, Stream.sendAll, hfailed, Bool.or_false]
    exact h.failed
  | true =>
    obtain ⟨hnil, lost, hne, hrest⟩ := hlost hfailed
    have hpart : (st.sent ++ (sendTaken sends outBuf).1) ++ lost = st.sent ++ outBuf := by
      rw [List.append_assoc, hrest]
    have hsent : (st.sendAll sends outBuf).sent ++ (Websockets.sendAll sends outBuf).1
        = st.sent ++ (sendTaken sends outBuf).1 := by
      rw [hnil, List.append_nil]
      rfl
    have hsublist := hpart ▸ h.sublist
    refine ⟨h.message, hsent ▸ (List.sublist_append_left _ lost).trans hsublist, ?_⟩
    refine iff_of_false ?_ fun heq ↦ ?_
    · rw [Stream.sendAll, hfailed, Bool.or_true]
      exact fun h ↦ absurd h.symm Bool.false_ne_true
    · -- the lost octets have been appended too
      have hlength := hsublist.length_le
      have heq' : st.sent ++ (sendTaken sends outBuf).1 = st.messages.flatten := hsent ▸ heq
      rw [List.length_append, heq'] at hlength
      have hpos := List.length_pos_iff.mpr hne
      omega

theorem Transmits.finish {c : Client} {st : Stream} (h : Transmits app st c.outBuf)
    (epollOut : Bool) (s : Server) :
    let p := if epollOut then Websockets.sendAll s.sends c.outBuf else (c.outBuf, s.sends)
    Transmits app (finishStream epollOut c s st) (Websockets.sendAll p.2 p.1).1 := by
  rw [finishStream]
  cases epollOut with
  | false => exact h.sendAll s.sends
  | true => exact (h.sendAll s.sends).sendAll _

private theorem outBuf_of_finishEvent {fd : ℤ} {epollOut : Bool} {c c' : Client}
    (hc' : (finishEvent fd epollOut c s).clients.lookup fd = some c') :
    let p := if epollOut then Websockets.sendAll s.sends c.outBuf else (c.outBuf, s.sends)
    c'.outBuf = (Websockets.sendAll p.2 p.1).1 := by
  rw [finishEvent] at hc'
  set p := if epollOut then Websockets.sendAll s.sends c.outBuf else (c.outBuf, s.sends)
  simp only at hc' ⊢
  split at hc'
  · rw [AList.lookup_erase] at hc'
    cases hc'
  · rw [AList.lookup_insert, Option.some.injEq] at hc'
    rw [← hc']

/-! ## Runs

A descriptor may be used again. Its stream then starts anew, with the connection. -/

/-- Every pending frame was left by a task, and every client transmits its stream. -/
structure Streamed (app : Application) (o : Observed) : Prop where
  frames : ∀ pf ∈ o.server.pendingFrames, ∃ t : Task, pf.frame = t.frame app
  transmits : ∀ fd c, o.server.clients.lookup fd = some c → Transmits app (o.streams fd) c.outBuf

/-- Accepting leaves the clients there are alone, and a new one has nothing to send. -/
theorem accepted_spec (cfds : List ℤ) (s : Server) :
    (cfds.foldl acceptClient s).pendingFrames = s.pendingFrames ∧
      ∀ fd, (∀ c, s.clients.lookup fd = some c →
          (cfds.foldl acceptClient s).clients.lookup fd = some c) ∧
        (s.clients.lookup fd = none →
          ∀ c ∈ (cfds.foldl acceptClient s).clients.lookup fd, c.outBuf = []) := by
  induction cfds generalizing s with
  | nil =>
    refine ⟨rfl, fun fd ↦ ⟨fun c hc ↦ hc, fun hnone c hc ↦ ?_⟩⟩
    rw [List.foldl_nil, hnone] at hc
    cases hc
  | cons cfd cfds ih =>
    obtain ⟨hframes, hclients⟩ := ih (acceptClient s cfd)
    rw [List.foldl_cons]
    cases hcfd : s.clients.lookup cfd with
    | some c =>
      rw [show acceptClient s cfd = s by rw [acceptClient, hcfd]] at hframes hclients ⊢
      exact ⟨hframes, hclients⟩
    | none =>
      have hnew : acceptClient s cfd = { s with
          clients := s.clients.insert cfd { cid := s.nextCid, fd := cfd }
          nextCid := s.nextCid + 1
          accepts := (cfd, s.nextCid) :: s.accepts } := by rw [acceptClient, hcfd]
      refine ⟨hframes.trans (by rw [hnew]), fun fd ↦ ?_⟩
      obtain ⟨hkept, hfresh⟩ := hclients fd
      by_cases hfd : fd = cfd
      · -- the client that was accepted stays as it is
        have hlookup : (acceptClient s cfd).clients.lookup fd
            = some { cid := s.nextCid, fd := cfd } := by
          rw [hnew, hfd, AList.lookup_insert]
        refine ⟨fun c hc ↦ ?_, fun _ c hc ↦ ?_⟩
        · rw [hfd, hcfd] at hc
          cases hc
        · rw [hkept _ hlookup, Option.mem_some_iff] at hc
          rw [← hc]
      · have hlookup : (acceptClient s cfd).clients.lookup fd = s.clients.lookup fd := by
          rw [hnew]
          exact AList.lookup_insert_ne hfd
        rw [hlookup] at hkept hfresh
        exact ⟨hkept, hfresh⟩

theorem Streamed.accept {o : Observed} (h : Streamed app o) (cfds : List ℤ) :
    Streamed app ⟨cfds.foldl acceptClient o.server,
      observe cfg app o.server o.streams (.accept cfds)⟩ := by
  obtain ⟨hframes, hclients⟩ := accepted_spec cfds o.server
  refine ⟨fun pf hpf ↦ h.frames pf (hframes ▸ hpf), fun fd c hc ↦ ?_⟩
  obtain ⟨hkept, hfresh⟩ := hclients fd
  simp only [observe]
  cases hbefore : o.server.clients.lookup fd with
  | none =>
    rw [Option.isSome_none, if_neg Bool.false_ne_true, hfresh hbefore c hc]
    exact transmits_new app
  | some c₀ =>
    rw [Option.isSome_some, if_pos rfl]
    cases (hkept c₀ hbefore).symm.trans hc
    exact h.transmits fd c hbefore

theorem Streamed.deliver {pfs : List PendingFrame} {streams : ℤ → Stream}
    (hpfs : ∀ pf ∈ pfs, ∃ t : Task, pf.frame = t.frame app)
    (h : ∀ fd c, s.clients.lookup fd = some c → Transmits app (streams fd) c.outBuf) :
    ∀ fd c, (pfs.foldl Websockets.deliver s).clients.lookup fd = some c →
      Transmits app (pfs.foldl (fun streams pf ↦
        Function.update streams pf.fd ((streams pf.fd).append [pf.frame])) streams fd)
        c.outBuf := by
  induction pfs generalizing s streams with
  | nil => exact h
  | cons pf pfs ih =>
    rw [List.foldl_cons, List.foldl_cons]
    refine ih (fun pf' hpf' ↦ hpfs pf' (List.mem_cons_of_mem _ hpf')) fun fd c hc ↦ ?_
    rw [lookup_deliver, Option.map_eq_some_iff] at hc
    obtain ⟨c₀, hc₀, rfl⟩ := hc
    by_cases hfd : fd = pf.fd
    · obtain ⟨t, ht⟩ := hpfs pf List.mem_cons_self
      have hreply : ∀ m ∈ [pf.frame], IsMessage app m := by
        intro m hm
        rw [List.mem_singleton.mp hm, ht]
        exact .reply t
      have happended := (h fd c₀ hc₀).append hreply
      rw [if_pos hfd, hfd, Function.update_self]
      rw [hfd, List.flatten_singleton] at happended
      exact happended
    · rw [if_neg hfd, Function.update_of_ne hfd]
      exact h fd c₀ hc₀

theorem Streamed.drain {o : Observed} (h : Streamed app o) :
    Streamed app ⟨drainPending o.server, observe cfg app o.server o.streams .pending⟩ := by
  refine ⟨fun pf hpf ↦ ?_, Streamed.deliver h.frames h.transmits⟩
  have hnone : (drainPending o.server).pendingFrames = [] := (delivers_leave _ _).1
  rw [hnone] at hpf
  exact absurd hpf List.not_mem_nil

theorem Streamed.handleClient {o : Observed} (h : Streamed app o) (fd : ℤ) (events : IoEvents)
    (data : Bytes) (ending : RecvEnd) :
    Streamed app ⟨handleClient cfg app fd events data ending o.server,
      observe cfg app o.server o.streams (.client fd events data ending)⟩ := by
  cases hc : o.server.clients.lookup fd with
  | none =>
    rw [Websockets.handleClient, observe, hc]
    exact h
  | some c =>
    obtain ⟨o', -, hreplaces, -⟩ := handleClient_spec cfg app hc events data ending
    refine ⟨fun pf hpf ↦ h.frames pf (hreplaces.pendingFrames ▸ hpf), fun k c' hc' ↦ ?_⟩
    rw [observe, hc]
    simp only
    by_cases hk : k = fd
    swap
    · rw [Function.update_of_ne hk]
      refine h.transmits k c' ?_
      rwa [hreplaces.clients, if_neg hk] at hc'
    rw [hk, Function.update_self, clientStream]
    have happended : Transmits app
        ((o.streams fd).append (eventMessages app events data ending c))
        (eventPart cfg app events data ending c o.server).1.outBuf := by
      rw [outBuf_eventPart]
      exact (h.transmits fd c hc).append fun m hm ↦ isMessage_of_mem_eventMessages hm
    rw [hk, handleClient_eq cfg app hc] at hc'
    simp only at hc' ⊢
    split at hc'
    · next hthrown =>
      -- an exception leaves the buffer as it is
      rw [AList.lookup_insert, Option.some.injEq] at hc'
      rw [if_pos hthrown, ← hc']
      exact happended
    · next hopen =>
      have hfinished := happended.finish events.epollOut
        (eventPart cfg app events data ending c o.server).2
      rw [if_neg hopen]
      rw [outBuf_of_finishEvent hc']
      exact hfinished

theorem Streamed.workerStep {o : Observed} (h : Streamed app o) (k : ℕ) :
    Streamed app ⟨workerStep app k o.server, o.streams⟩ := by
  rcases o with ⟨s, streams⟩
  rw [Websockets.workerStep]
  split
  · exact h
  next t _ =>
  split
  · split
    · exact h
    · exact ⟨h.frames, h.transmits⟩
  · refine ⟨fun pf hpf ↦ ?_, h.transmits⟩
    simp only at hpf
    split at hpf
    · exact h.frames pf hpf
    · rcases List.mem_append.mp hpf with hpf | hpf
      · exact h.frames pf hpf
      · rw [List.mem_singleton.mp hpf]
        exact ⟨t, rfl⟩
  · exact ⟨h.frames, h.transmits⟩

theorem Streamed.step {o : Observed} (h : Streamed app o) (e : Event) :
    Streamed app (observedStep cfg app o e) := by
  unfold observedStep Websockets.step
  by_cases hterminated : o.server.terminated = true
  · rw [if_pos hterminated, if_pos hterminated]
    exact h
  rw [if_neg hterminated, if_neg hterminated]
  cases e with
  | accept cfds => exact h.accept cfds
  | client fd events data ending => exact h.handleClient fd events data ending
  | pending => exact h.drain
  | worker k => exact h.workerStep k
  | outside elapsed sends => exact ⟨h.frames, h.transmits⟩
  | fcgiTake =>
    simp only
    split
    · exact h
    · exact ⟨h.frames, h.transmits⟩
  | fcgiReturn k =>
    simp only
    split
    · exact h
    · exact ⟨h.frames, h.transmits⟩

/-- **Output is a stream of whole messages.** In every run, what has been sent on the connection of
a client, followed by what is in its buffer, is what has been appended for it, exactly as long as no
call of `send` on it has failed; then octets are missing, and still none is out of order. -/
theorem always_streamed (cfg : GlobalConfig) (app : Application) (bases : List UInt64)
    (capacity : UInt64) (events : List Event) :
    Always (observedStep cfg app)
      (fun o ↦ ∀ fd c, o.server.clients.lookup fd = some c → Transmits app (o.streams fd) c.outBuf)
      ⟨initial bases capacity, fun _ ↦ {}⟩ events := by
  have hinitial : Streamed app ⟨initial bases capacity, fun _ ↦ {}⟩ := by
    refine ⟨fun pf hpf ↦ absurd hpf List.not_mem_nil, fun fd c hc ↦ ?_⟩
    rw [initial, AList.lookup_empty] at hc
    cases hc
  exact (always_of_invariant (fun _ e h ↦ h.step e) hinitial events).mono fun _ h ↦ h.transmits

end Wasapi.Websockets
