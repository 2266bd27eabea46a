import Wasapi.Websockets.Server

/-!
# What a read event changes

The steps of the websocket server have wide states, and most properties concern a few fields.
`Schedules` says what the scheduling functions can do, and `handleInput_spec` what one read event
does to its client and to the rest of the server.
-/

namespace Wasapi.Websockets

/-- Only tasks and arenas have changed, and every new task is for the client `c`. -/
structure Schedules (c : Client) (s s' : Server) : Prop where
  clients : s'.clients = s.clients
  pendingFrames : s'.pendingFrames = s.pendingFrames
  nextCid : s'.nextCid = s.nextCid
  accepts : s'.accepts = s.accepts
  deliveries : s'.deliveries = s.deliveries
  tasks : ∀ t ∈ s'.tasks, t ∈ s.tasks ∨ t.fd = c.fd ∧ t.origin = c.cid

theorem Schedules.refl (c : Client) (s : Server) : Schedules c s s :=
  ⟨rfl, rfl, rfl, rfl, rfl, fun _ ht ↦ .inl ht⟩

theorem Schedules.trans {c : Client} {s₁ s₂ s₃ : Server} (h : Schedules c s₁ s₂)
    (h' : Schedules c s₂ s₃) : Schedules c s₁ s₃ where
  clients := h'.clients.trans h.clients
  pendingFrames := h'.pendingFrames.trans h.pendingFrames
  nextCid := h'.nextCid.trans h.nextCid
  accepts := h'.accepts.trans h.accepts
  deliveries := h'.deliveries.trans h.deliveries
  tasks t ht := (h'.tasks t ht).elim (h.tasks t) .inr

variable (cfg : GlobalConfig) (app : Application) {s : Server} {c : Client}

private theorem schedules_enqueue {t : Task} (hfd : t.fd = c.fd) (horigin : t.origin = c.cid) :
    Schedules c s (enqueue t s) := by
  refine ⟨rfl, rfl, rfl, rfl, rfl, fun t' ht' ↦ ?_⟩
  rcases List.mem_append.mp ht' with ht' | ht'
  · exact .inl ht'
  · rw [List.mem_singleton.mp ht']
    exact .inr ⟨hfd, horigin⟩

private theorem schedules_newRequest (c : Client) (s : Server) :
    Schedules c s (newRequest cfg s).2 ∧ (newRequest cfg s).2.httpCalls = s.httpCalls := by
  rw [newRequest]
  split
  · exact ⟨.refl c s, rfl⟩
  · split
    · exact ⟨⟨rfl, rfl, rfl, rfl, rfl, fun _ ht ↦ .inl ht⟩, rfl⟩
    · exact ⟨⟨rfl, rfl, rfl, rfl, rfl, fun _ ht ↦ .inl ht⟩, rfl⟩

private theorem schedules_scheduleMessage (c : Client) (s : Server) (call : MessageCall) :
    Schedules c s (scheduleMessage cfg c s call) ∧
      (scheduleMessage cfg c s call).httpCalls = s.httpCalls := by
  obtain ⟨hnew, hcalls⟩ := schedules_newRequest cfg c s
  rw [scheduleMessage]
  split
  · next heq =>
    rw [heq] at hnew hcalls
    exact ⟨hnew, hcalls⟩
  · next heq =>
    rw [heq] at hnew hcalls
    exact ⟨hnew.trans (schedules_enqueue rfl rfl), hcalls⟩

private theorem schedules_scheduleHttp (c : Client) (requestText body : Bytes) (s : Server) :
    Schedules c s (scheduleHttp cfg app c requestText body s) ∧
      (scheduleHttp cfg app c requestText body s).httpCalls
        = s.httpCalls ++ [⟨c.cid, requestText, body⟩] := by
  rw [scheduleHttp]
  set s₁ : Server := { s with httpCalls := s.httpCalls ++ [⟨c.cid, requestText, body⟩] } with hs₁
  have hlog : Schedules c s s₁ := ⟨rfl, rfl, rfl, rfl, rfl, fun _ ht ↦ .inl ht⟩
  obtain ⟨hnew, hcalls⟩ := schedules_newRequest cfg c s₁
  simp only
  split
  · exact ⟨hlog, rfl⟩
  split
  · next heq =>
    rw [heq] at hnew hcalls
    exact ⟨hlog.trans hnew, hcalls⟩
  · next heq =>
    rw [heq] at hnew hcalls
    exact ⟨(hlog.trans hnew).trans (schedules_enqueue rfl rfl), hcalls⟩

/-! ## The client of a read event

Before the frame loop a read event works on one client, and may schedule one request for it. The
loop then works on the same client, and schedules messages. -/

/-- What the frame loop leaves alone. -/
structure SameHttp (c c' : Client) : Prop where
  cid : c'.cid = c.cid
  fd : c'.fd = c.fd
  handshakeDone : c'.handshakeDone = c.handshakeDone
  inHttp : c'.inHttp = c.inHttp
  httpMode : c'.httpMode = c.httpMode
  httpContentLength : c'.httpContentLength = c.httpContentLength

theorem SameHttp.refl (c : Client) : SameHttp c c := ⟨rfl, rfl, rfl, rfl, rfl, rfl⟩

theorem SameHttp.trans {c₁ c₂ c₃ : Client} (h : SameHttp c₁ c₂) (h' : SameHttp c₂ c₃) :
    SameHttp c₁ c₃ :=
  ⟨h'.cid.trans h.cid, h'.fd.trans h.fd, h'.handshakeDone.trans h.handshakeDone,
    h'.inHttp.trans h.inHttp, h'.httpMode.trans h.httpMode,
    h'.httpContentLength.trans h.httpContentLength⟩

private theorem sameHttp_handleFrame (h : FrameHead) (payload : Bytes) (c : Client) :
    SameHttp c (handleFrame h payload c).1 := by
  rw [handleFrame]
  split
  · exact ⟨rfl, rfl, rfl, rfl, rfl, rfl⟩
  split
  · exact ⟨rfl, rfl, rfl, rfl, rfl, rfl⟩
  split
  · exact .refl c
  split
  · simp only
    split <;> split <;> exact ⟨rfl, rfl, rfl, rfl, rfl, rfl⟩
  split
  · split
    · exact ⟨rfl, rfl, rfl, rfl, rfl, rfl⟩
    · simp only
      split <;> exact ⟨rfl, rfl, rfl, rfl, rfl, rfl⟩
  · exact .refl c

private theorem sameHttp_frameLoop (fuel : ℕ) (c : Client) :
    SameHttp c (frameLoop fuel c).client := by
  induction fuel generalizing c with
  | zero => exact .refl c
  | succ fuel ih =>
    rw [frameLoop]
    split
    · exact .refl c
    next h _ =>
    split
    · exact .refl c
    split
    · exact .refl c
    · have hframe := sameHttp_handleFrame h (h.payload c.inBuf) c
      refine SameHttp.trans ?_ (ih _)
      exact ⟨hframe.cid, hframe.fd, hframe.handshakeDone, hframe.inHttp, hframe.httpMode,
        hframe.httpContentLength⟩

private theorem readHttp_cid (sha1 : Bytes → Bytes) (c : Client) :
    (readHttp sha1 c).1.cid = c.cid ∧ (readHttp sha1 c).1.fd = c.fd := by
  rw [readHttp]
  simp only
  split
  · split
    · exact ⟨rfl, rfl⟩
    · split <;> exact ⟨rfl, rfl⟩
  · split <;> exact ⟨rfl, rfl⟩

/-- The part of a read event before the frame loop: the client, and the call of `schedule_http`. -/
def readPart (data : Bytes) (ending : RecvEnd) (c : Client) : Client × Option (Bytes × Bytes) :=
  let c := receive data ending c
  if c.handshakeDone then (c, none) else readHttp app.sha1 c

theorem readPart_cid (data : Bytes) (ending : RecvEnd) (c : Client) :
    (readPart app data ending c).1.cid = c.cid ∧ (readPart app data ending c).1.fd = c.fd := by
  rw [readPart]
  split
  · exact ⟨rfl, rfl⟩
  · exact readHttp_cid app.sha1 (receive data ending c)

/-- The server after that call. -/
def scheduledPart (data : Bytes) (ending : RecvEnd) (c : Client) (s : Server) : Server :=
  match (readPart app data ending c).2 with
  | none => s
  | some (requestText, body) =>
    scheduleHttp cfg app (readPart app data ending c).1 requestText body s

theorem handleInput_eq (data : Bytes) (ending : RecvEnd) (c : Client) (s : Server) :
    handleInput cfg app data ending c s =
      let c' := (readPart app data ending c).1
      let s' := scheduledPart cfg app data ending c s
      if c'.handshakeDone then
        let exit := frameLoop c'.inBuf.length c'
        (exit.client, { exit.calls.foldl (scheduleMessage cfg c') s' with
          terminated := s'.terminated || exit.thrown })
      else (c', s') := rfl

private theorem scheduledPart_spec (data : Bytes) (ending : RecvEnd) (c : Client) (s : Server) :
    Schedules c s (scheduledPart cfg app data ending c s) ∧
      (scheduledPart cfg app data ending c s).httpCalls
        = s.httpCalls ++
          ((readPart app data ending c).2.map fun p ↦ ⟨c.cid, p.1, p.2⟩).toList := by
  obtain ⟨hcid, hfd⟩ := readPart_cid app data ending c
  rw [scheduledPart]
  split
  · next hnone =>
    rw [hnone, Option.map_none, Option.toList_none, List.append_nil]
    exact ⟨.refl c s, rfl⟩
  · next requestText body hsome =>
    obtain ⟨hsched, hcalls⟩ :=
      schedules_scheduleHttp cfg app (readPart app data ending c).1 requestText
        body s
    rw [hsome, Option.map_some, Option.toList_some]
    refine ⟨⟨hsched.clients, hsched.pendingFrames, hsched.nextCid, hsched.accepts,
      hsched.deliveries, fun t ht ↦ ?_⟩, ?_⟩
    · rw [← hcid, ← hfd]
      exact hsched.tasks t ht
    · rw [hcalls, hcid]

/-- **One read event.** It schedules for its client only, and calls `schedule_http` as its first
part says. -/
theorem handleInput_spec (data : Bytes) (ending : RecvEnd) (c : Client) (s : Server) :
    SameHttp (readPart app data ending c).1 (handleInput cfg app data ending c s).1 ∧
      ((readPart app data ending c).1.handshakeDone = false →
        (handleInput cfg app data ending c s).1 = (readPart app data ending c).1) ∧
      Schedules c s (handleInput cfg app data ending c s).2 ∧
      (handleInput cfg app data ending c s).2.httpCalls
        = s.httpCalls ++
          ((readPart app data ending c).2.map fun p ↦ ⟨c.cid, p.1, p.2⟩).toList := by
  obtain ⟨hsched, hcalls⟩ := scheduledPart_spec cfg app data ending c s
  obtain ⟨hcid, hfd⟩ := readPart_cid app data ending c
  rw [handleInput_eq]
  set c' := (readPart app data ending c).1
  set s' := scheduledPart cfg app data ending c s
  simp only
  split
  swap
  · exact ⟨.refl c', fun _ ↦ rfl, hsched, hcalls⟩
  next hdone =>
  refine ⟨sameHttp_frameLoop _ c', fun hnot ↦ absurd hdone (by rw [hnot]; decide), ?_⟩
  have hmessages : ∀ (calls : List MessageCall) (s₁ : Server),
      Schedules c s s₁ → s₁.httpCalls = s'.httpCalls →
      Schedules c s (calls.foldl (scheduleMessage cfg c') s₁) ∧
        (calls.foldl (scheduleMessage cfg c') s₁).httpCalls = s'.httpCalls := by
    intro calls
    induction calls with
    | nil => exact fun s₁ h₁ hc₁ ↦ ⟨h₁, hc₁⟩
    | cons call calls ih =>
      intro s₁ h₁ hc₁
      obtain ⟨h₂, hc₂⟩ := schedules_scheduleMessage cfg c' s₁ call
      refine ih _ (h₁.trans ⟨h₂.clients, h₂.pendingFrames, h₂.nextCid, h₂.accepts,
        h₂.deliveries, fun t ht ↦ ?_⟩) (hc₂.trans hc₁)
      rw [← hcid, ← hfd]
      exact h₂.tasks t ht
  obtain ⟨hall, hallcalls⟩ := hmessages (frameLoop c'.inBuf.length c').calls s' hsched rfl
  exact ⟨⟨hall.clients, hall.pendingFrames, hall.nextCid, hall.accepts, hall.deliveries,
    hall.tasks⟩, hallcalls.trans hcalls⟩

/-! ## A whole client event

An event leaves the other clients alone. Its own client is changed, sent to, and erased if it is
closed, so it is described by the client in front of the sends and by what the sends leave. -/

/-- The server has the clients of `s` except at `fd`, and keeps its other records. -/
structure Replaces (s s' : Server) (fd : ℤ) (o : Option Client) : Prop where
  clients : ∀ k, s'.clients.lookup k = if k = fd then o else s.clients.lookup k
  pendingFrames : s'.pendingFrames = s.pendingFrames
  nextCid : s'.nextCid = s.nextCid
  accepts : s'.accepts = s.accepts
  deliveries : s'.deliveries = s.deliveries

/-- The client as the end of an event leaves it, if it leaves it: only its output has changed. -/
def LeftOver (c : Client) (o : Option Client) : Prop :=
  ∀ c' ∈ o, SameHttp c c' ∧ c'.inBuf = c.inBuf

private theorem finishEvent_spec (fd : ℤ) (epollOut : Bool) (c : Client) (s : Server) :
    ∃ o, LeftOver c o ∧ Replaces s (finishEvent fd epollOut c s) fd o ∧
      (finishEvent fd epollOut c s).httpCalls = s.httpCalls ∧
      (finishEvent fd epollOut c s).tasks = s.tasks := by
  rw [finishEvent]
  simp only
  generalize sendAll _ _ = p
  split
  · refine ⟨none, fun c' hc' ↦ (nomatch hc'), ⟨fun k ↦ ?_, rfl, rfl, rfl, rfl⟩, rfl, rfl⟩
    by_cases hk : k = fd
    · rw [if_pos hk, hk, AList.lookup_erase]
    · rw [if_neg hk, AList.lookup_erase_ne hk]
  · refine ⟨some { c with outBuf := p.1 }, fun c' hc' ↦ ?_, ⟨fun k ↦ ?_, rfl, rfl, rfl, rfl⟩, rfl,
      rfl⟩
    · obtain rfl := Option.some.inj hc'
      exact ⟨⟨rfl, rfl, rfl, rfl, rfl, rfl⟩, rfl⟩
    · by_cases hk : k = fd
      · rw [if_pos hk, hk, AList.lookup_insert]
      · rw [if_neg hk, AList.lookup_insert_ne hk]

/-- The client and the server before the sends at the end of an event. -/
def eventPart (events : IoEvents) (data : Bytes) (ending : RecvEnd) (c : Client) (s : Server) :
    Client × Server :=
  let c := if events.hupOrErr then { c with closed := true } else c
  if events.epollIn then handleInput cfg app data ending c s else (c, s)

theorem eventPart_spec (events : IoEvents) (data : Bytes) (ending : RecvEnd) (c : Client)
    (s : Server) :
    (eventPart cfg app events data ending c s).1.cid = c.cid ∧
      (eventPart cfg app events data ending c s).1.fd = c.fd ∧
      Schedules c s (eventPart cfg app events data ending c s).2 := by
  set c₁ : Client := if events.hupOrErr then { c with closed := true } else c with hc₁
  have hsame : c₁.cid = c.cid ∧ c₁.fd = c.fd := by
    rw [hc₁]
    split <;> exact ⟨rfl, rfl⟩
  have heq : eventPart cfg app events data ending c s =
      if events.epollIn then handleInput cfg app data ending c₁ s else (c₁, s) := rfl
  rw [heq]
  split
  · obtain ⟨hhttp, -, hsched, -⟩ := handleInput_spec cfg app data ending c₁ s
    obtain ⟨hcid, hfd⟩ := readPart_cid app data ending c₁
    refine ⟨hhttp.cid.trans (hcid.trans hsame.1), hhttp.fd.trans (hfd.trans hsame.2),
      ⟨hsched.clients, hsched.pendingFrames, hsched.nextCid, hsched.accepts, hsched.deliveries,
        fun t ht ↦ ?_⟩⟩
    rw [← hsame.1, ← hsame.2]
    exact hsched.tasks t ht
  · exact ⟨hsame.1, hsame.2, .refl c s⟩

/-- **One event of a client.** -/
theorem handleClient_spec {fd : ℤ} (hc : s.clients.lookup fd = some c) (events : IoEvents)
    (data : Bytes) (ending : RecvEnd) :
    ∃ o, LeftOver (eventPart cfg app events data ending c s).1 o ∧
      Replaces s (handleClient cfg app fd events data ending s) fd o ∧
      (handleClient cfg app fd events data ending s).httpCalls
        = (eventPart cfg app events data ending c s).2.httpCalls ∧
      (handleClient cfg app fd events data ending s).tasks
        = (eventPart cfg app events data ending c s).2.tasks := by
  have heq : handleClient cfg app fd events data ending s =
      let p := eventPart cfg app events data ending c s
      if p.2.terminated then { p.2 with clients := p.2.clients.insert fd p.1 }
      else finishEvent fd events.epollOut p.1 p.2 := by
    rw [handleClient, hc]
    rfl
  obtain ⟨-, -, hsched⟩ := eventPart_spec cfg app events data ending c s
  set p := eventPart cfg app events data ending c s
  rw [heq]
  simp only
  split
  · refine ⟨some p.1, fun c' hc' ↦ ?_, ⟨fun k ↦ ?_, hsched.pendingFrames, hsched.nextCid,
      hsched.accepts, hsched.deliveries⟩, rfl, rfl⟩
    · obtain rfl := Option.some.inj hc'
      exact ⟨.refl _, rfl⟩
    · simp only
      by_cases hk : k = fd
      · rw [if_pos hk, hk, AList.lookup_insert]
      · rw [if_neg hk, AList.lookup_insert_ne hk, hsched.clients]
  · obtain ⟨o, hleft, hreplaces, hcalls, htasks⟩ :=
      finishEvent_spec fd events.epollOut p.1 p.2
    refine ⟨o, hleft, ⟨fun k ↦ ?_, hreplaces.pendingFrames.trans hsched.pendingFrames,
      hreplaces.nextCid.trans hsched.nextCid, hreplaces.accepts.trans hsched.accepts,
      hreplaces.deliveries.trans hsched.deliveries⟩, hcalls, htasks⟩
    rw [hreplaces.clients, hsched.clients]

end Wasapi.Websockets
