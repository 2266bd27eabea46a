import Wasapi.Library.Transitions
import Wasapi.Websockets.Bookkeeping

/-!
# Plain HTTP requests are dispatched again and again

`schedule_http` takes `in_http` by rvalue reference and only reads it, and nothing else empties
`in_http` or remembers that the request has been taken. So the next read event finds the same header
block with the same content length in it, and a body that is at least as long, and calls
`schedule_http` again, whatever has arrived, if only the end of file.
-/

namespace Wasapi.Websockets

/-- What a call of `schedule_http` was about: the connection, the header block and the body. -/
def HttpCall.request (call : HttpCall) : ℕ × Bytes × Bytes :=
  (call.cid,
    match findPattern crlfcrlf call.requestText with
    | none => call.requestText
    | some n => call.requestText.take (n + 4),
    call.body)

/-- No request has been dispatched twice. -/
def DispatchedOnce (s : Server) : Prop := (s.httpCalls.map HttpCall.request).Nodup

/-- No read event reaches a client for which `schedule_http` has been called. -/
def ReadsNoMore (s : Server) : Event → Prop
  | .client fd events _ _ =>
    s.terminated = false → events.epollIn = true → ∀ c ∈ s.clients.lookup fd,
      ∀ call ∈ s.httpCalls, call.cid ≠ c.cid
  | _ => True

/-- The client still holds the request of the call: its header block, which does not ask for an
upgrade, and at least as many octets behind it as it announces. -/
structure Holds (sha1 : Bytes → Bytes) (c : Client) (call : HttpCall) : Prop where
  handshakeDone : c.handshakeDone = false
  inBuf : c.inBuf = []
  headers : ∃ n, findPattern crlfcrlf c.inHttp = some n ∧
    findPattern crlfcrlf call.requestText = some n ∧
    c.inHttp.take (n + 4) = call.requestText.take (n + 4) ∧
    parseHttpHeaders sha1 (c.inHttp.take (n + 4)) = none ∧
    (contentLength (c.inHttp.take (n + 4))).getD c.httpContentLength = c.httpContentLength ∧
    c.httpContentLength ≤ (c.inHttp.drop (n + 4)).length ∧
    call.body = (c.inHttp.drop (n + 4)).take c.httpContentLength

/-- In `http_mode` the end of the headers has been found. -/
def HeadersFound (c : Client) : Prop :=
  c.httpMode = true → (findPattern crlfcrlf c.inHttp).isSome = true

/-- Connections are numbered, and a client for which `schedule_http` has been called still holds its
request. -/
structure Dispatches (sha1 : Bytes → Bytes) (s : Server) : Prop where
  cid_lt {fd c} : s.clients.lookup fd = some c → c.cid < s.nextCid
  cid_inj {fd c fd' c'} : s.clients.lookup fd = some c → s.clients.lookup fd' = some c' →
    c.cid = c'.cid → fd = fd'
  call_lt {call} : call ∈ s.httpCalls → call.cid < s.nextCid
  headers {fd c} : s.clients.lookup fd = some c → HeadersFound c
  holds {fd c call} : s.clients.lookup fd = some c → call ∈ s.httpCalls → call.cid = c.cid →
    Holds sha1 c call
  once : DispatchedOnce s

variable {cfg : GlobalConfig} {app : Application} {s s' : Server} {c : Client}

/-! ## Reading before the handshake

Any read event runs the same code from the beginning, with `in_http` as the one before has left it.
If the request was complete then, it is complete now. -/

private theorem take_append_of_findPattern {t : Bytes} {n : ℕ} (h : findPattern crlfcrlf t = some n)
    (d : Bytes) : (t ++ d).take (n + 4) = t.take (n + 4) := by
  refine List.take_append_of_le_length ?_
  exact length_le_of_findPattern h (by decide)

private theorem drop_append_of_findPattern {t : Bytes} {n : ℕ} (h : findPattern crlfcrlf t = some n)
    (d : Bytes) : (t ++ d).drop (n + 4) = t.drop (n + 4) ++ d := by
  refine List.drop_append_of_le_length ?_
  exact length_le_of_findPattern h (by decide)

/-- **A request that has been dispatched is dispatched again by the next read.** -/
theorem readHttp_of_holds {sha1 : Bytes → Bytes} {call : HttpCall} (h : Holds sha1 c call)
    (hcid : call.cid = c.cid) (data : Bytes) (ending : RecvEnd) :
    ∃ text body, (readHttp sha1 (receive data ending c)).2 = some (text, body) ∧
      HttpCall.request ⟨c.cid, text, body⟩ = call.request := by
  obtain ⟨n, hn, hn', htake, hplain, hlength, hle, hbody⟩ := h.headers
  have hgrown := findPattern_append hn data
  have hbuf : (receive data ending c).inBuf = data := by
    rw [receive, h.inBuf, List.nil_append]
  have hhttp : (receive data ending c).inHttp = c.inHttp := rfl
  have hlen : (receive data ending c).httpContentLength = c.httpContentLength := rfl
  refine ⟨c.inHttp ++ data, call.body, ?_, ?_⟩
  · rw [readHttp]
    simp only [hbuf, hhttp, hlen, hgrown, take_append_of_findPattern hn, hplain, hlength,
      drop_append_of_findPattern hn]
    rw [if_pos]
    · rw [hbody, List.take_append_of_le_length hle]
    · rw [List.length_append]
      exact Nat.le_add_right_of_le hle
  · rw [HttpCall.request, HttpCall.request]
    simp only [hgrown, hn', take_append_of_findPattern hn, htake, hcid]

/-- A client without a blank line is not in the mode that waits for a body. -/
theorem httpMode_of_findPattern (hfound : HeadersFound c)
    (hnone : findPattern crlfcrlf (c.inHttp ++ c.inBuf) = none) : c.httpMode = false := by
  by_contra hmode
  obtain ⟨n, hn⟩ := Option.isSome_iff_exists.mp (hfound (Bool.eq_true_of_not_eq_false hmode))
  rw [findPattern_append hn c.inBuf] at hnone
  cases hnone

/-- **A client for which `schedule_http` has been called keeps the request.** -/
theorem readHttp_holds {sha1 : Bytes → Bytes} (hnot : c.handshakeDone = false)
    (hfound : HeadersFound c) {text body : Bytes}
    (hcall : (readHttp sha1 c).2 = some (text, body)) :
    Holds sha1 (readHttp sha1 c).1 ⟨c.cid, text, body⟩ := by
  rw [readHttp] at hcall ⊢
  simp only at hcall ⊢
  split at hcall
  · next n hn =>
    split at hcall
    · cases hcall
    next hplain =>
    split at hcall
    swap
    · cases hcall
    next hle =>
    rw [if_pos hle]
    obtain ⟨rfl, rfl⟩ := Prod.mk.inj (Option.some.inj hcall)
    refine ⟨hnot, rfl, n, hn, hn, rfl, hplain, ?_, hle, rfl⟩
    cases contentLength ((c.inHttp ++ c.inBuf).take (n + 4)) <;> rfl
  · next hnone =>
    split at hcall
    swap
    · cases hcall
    next hmode =>
    simp only [Bool.and_eq_true] at hmode
    exact absurd hmode.1.1 (by rw [httpMode_of_findPattern hfound hnone]; decide)

private theorem headersFound_readHttp {sha1 : Bytes → Bytes} (hfound : HeadersFound c) :
    HeadersFound (readHttp sha1 c).1 := by
  rw [readHttp]
  simp only
  split
  · next n hn =>
    have hsome : (findPattern crlfcrlf (c.inHttp ++ c.inBuf)).isSome = true := by rw [hn]; rfl
    split
    · exact fun _ ↦ hsome
    · split <;> exact fun _ ↦ hsome
  · next hnone =>
    have hmode := httpMode_of_findPattern hfound hnone
    split <;> exact fun hf ↦ absurd hmode (by rw [hf]; decide)

private theorem Holds.of_sameHttp {sha1 : Bytes → Bytes} {call : HttpCall} {c' : Client}
    (h : Holds sha1 c call) (hsame : SameHttp c c') (hbuf : c'.inBuf = c.inBuf) :
    Holds sha1 c' call := by
  obtain ⟨hnot, hnil, hheaders⟩ := h
  refine ⟨hsame.handshakeDone.trans hnot, hbuf.trans hnil, ?_⟩
  rw [hsame.inHttp, hsame.httpContentLength]
  exact hheaders

private theorem HeadersFound.of_sameHttp {c' : Client} (h : HeadersFound c)
    (hsame : SameHttp c c') : HeadersFound c' := by
  rw [HeadersFound, hsame.httpMode, hsame.inHttp]
  exact h

/-! ## One event

An event that reads nothing dispatches too, as the end of the stream is noticed by a read. An event
without EPOLLIN leaves the client as it is, but for its output. -/

private theorem readPart_holds (hfound : HeadersFound c) (data : Bytes) (ending : RecvEnd)
    {text body : Bytes} (hcall : (readPart app data ending c).2 = some (text, body)) :
    Holds app.sha1 (readPart app data ending c).1 ⟨c.cid, text, body⟩ := by
  have hc : (receive data ending c).handshakeDone = c.handshakeDone := rfl
  rw [readPart] at hcall ⊢
  simp only [hc] at hcall ⊢
  cases hdone : c.handshakeDone with
  | true =>
    rw [if_pos hdone] at hcall
    cases hcall
  | false =>
    rw [hdone] at hcall
    exact readHttp_holds (c := receive data ending c) (hc.trans hdone) hfound hcall

private theorem headersFound_readPart (hfound : HeadersFound c) (data : Bytes) (ending : RecvEnd) :
    HeadersFound (readPart app data ending c).1 := by
  rw [readPart]
  split
  · exact hfound
  · exact headersFound_readHttp (c := receive data ending c) hfound

/-- A client from which nothing was read, or that has been given more output. -/
structure Unread (c c' : Client) : Prop extends SameHttp c c' where
  inBuf : c'.inBuf = c.inBuf

private theorem Dispatches.of_unread (h : Dispatches app.sha1 s)
    (hcalls : s'.httpCalls = s.httpCalls) (hnext : s'.nextCid = s.nextCid)
    (hclients : ∀ {k c'}, s'.clients.lookup k = some c' →
      ∃ c, s.clients.lookup k = some c ∧ Unread c c') : Dispatches app.sha1 s' where
  cid_lt hc' := by
    obtain ⟨c, hc, hsame⟩ := hclients hc'
    rw [hnext, hsame.cid]
    exact h.cid_lt hc
  cid_inj hc₁' hc₂' heq := by
    obtain ⟨c₁, hc₁, hsame₁⟩ := hclients hc₁'
    obtain ⟨c₂, hc₂, hsame₂⟩ := hclients hc₂'
    rw [hsame₁.cid, hsame₂.cid] at heq
    exact h.cid_inj hc₁ hc₂ heq
  call_lt hcall := by
    rw [hcalls] at hcall
    rw [hnext]
    exact h.call_lt hcall
  headers hc' := by
    obtain ⟨c, hc, hsame⟩ := hclients hc'
    exact (h.headers hc).of_sameHttp hsame.toSameHttp
  holds hc' hcall hcid := by
    obtain ⟨c, hc, hsame⟩ := hclients hc'
    rw [hcalls] at hcall
    exact (h.holds hc hcall (hcid.trans hsame.cid)).of_sameHttp hsame.toSameHttp hsame.inBuf
  once := by
    rw [DispatchedOnce, hcalls]
    exact h.once

/-- A read event of a client for which `schedule_http` has not been called. -/
theorem Dispatches.read (h : Dispatches app.sha1 s) {fd : ℤ} (hc : s.clients.lookup fd = some c)
    (hfirst : ∀ call ∈ s.httpCalls, call.cid ≠ c.cid) {c' : Client} {o : Option Client}
    {new : Option (Bytes × Bytes)} (hcid : c'.cid = c.cid) (hfound : HeadersFound c')
    (hnew : ∀ p ∈ new, Holds app.sha1 c' ⟨c.cid, p.1, p.2⟩) (hleft : LeftOver c' o)
    (hreplaces : Replaces s s' fd o)
    (hcalls : s'.httpCalls = s.httpCalls ++ (new.map fun p ↦ ⟨c.cid, p.1, p.2⟩).toList) :
    Dispatches app.sha1 s' := by
  -- a client is the old one, or it is at `fd` and comes from `c'`
  have hclients : ∀ {k c₁}, s'.clients.lookup k = some c₁ →
      k = fd ∧ Unread c' c₁ ∨ k ≠ fd ∧ s.clients.lookup k = some c₁ := by
    intro k c₁ hc₁
    rw [hreplaces.clients] at hc₁
    by_cases hk : k = fd
    · rw [if_pos hk] at hc₁
      exact .inl ⟨hk, (hleft c₁ hc₁).1, (hleft c₁ hc₁).2⟩
    · rw [if_neg hk] at hc₁
      exact .inr ⟨hk, hc₁⟩
  have hmem : ∀ {call}, call ∈ s'.httpCalls →
      call ∈ s.httpCalls ∨ ∃ p ∈ new, call = ⟨c.cid, p.1, p.2⟩ := by
    intro call hcall
    rw [hcalls] at hcall
    refine (List.mem_append.mp hcall).imp_right fun hcall ↦ ?_
    obtain ⟨p, hp, rfl⟩ := Option.map_eq_some_iff.mp (Option.mem_toList.mp hcall)
    exact ⟨p, hp, rfl⟩
  constructor
  case cid_lt =>
    intro k c₁ hc₁
    rw [hreplaces.nextCid]
    rcases hclients hc₁ with ⟨-, hsame⟩ | ⟨-, hc₁⟩
    · rw [hsame.cid, hcid]
      exact h.cid_lt hc
    · exact h.cid_lt hc₁
  case cid_inj =>
    intro k c₁ k' c₂ hc₁ hc₂ heq
    rcases hclients hc₁ with ⟨rfl, hsame₁⟩ | ⟨hk, hc₁⟩
    · rcases hclients hc₂ with ⟨rfl, -⟩ | ⟨hk', hc₂⟩
      · rfl
      · rw [hsame₁.cid, hcid] at heq
        exact h.cid_inj hc hc₂ heq
    · rcases hclients hc₂ with ⟨rfl, hsame₂⟩ | ⟨hk', hc₂⟩
      · rw [hsame₂.cid, hcid] at heq
        exact h.cid_inj hc₁ hc heq
      · exact h.cid_inj hc₁ hc₂ heq
  case call_lt =>
    intro call hcall
    rw [hreplaces.nextCid]
    rcases hmem hcall with hcall | ⟨p, -, rfl⟩
    · exact h.call_lt hcall
    · exact h.cid_lt hc
  case headers =>
    intro k c₁ hc₁
    rcases hclients hc₁ with ⟨-, hsame⟩ | ⟨-, hc₁⟩
    · exact hfound.of_sameHttp hsame.toSameHttp
    · exact h.headers hc₁
  case holds =>
    intro k c₁ call hc₁ hcall hcid₁
    rcases hclients hc₁ with ⟨-, hsame⟩ | ⟨hk, hc₁⟩
    · rcases hmem hcall with hcall | ⟨p, hp, rfl⟩
      · exact absurd (hcid₁.trans (hsame.cid.trans hcid)) (hfirst call hcall)
      · exact (hnew p hp).of_sameHttp hsame.toSameHttp hsame.inBuf
    · rcases hmem hcall with hcall | ⟨p, -, rfl⟩
      · exact h.holds hc₁ hcall hcid₁
      · exact absurd (h.cid_inj hc₁ hc hcid₁.symm) hk
  case once =>
    rw [DispatchedOnce, hcalls, List.map_append]
    cases new with
    | none =>
      rw [Option.map_none, Option.toList_none, List.map_nil, List.append_nil]
      exact h.once
    | some p =>
      rw [Option.map_some, Option.toList_some, List.map_singleton]
      -- the first call for this client
      refine h.once.append (List.nodup_singleton _) ?_
      rw [List.disjoint_singleton]
      intro hrequest
      obtain ⟨call, hcall, heq⟩ := List.mem_map.mp hrequest
      exact hfirst call hcall (congrArg Prod.fst heq)

/-- The client of an event with its end noted. -/
def hungUp (events : IoEvents) (c : Client) : Client :=
  if events.hupOrErr then { c with closed := true } else c

private theorem unread_hungUp (events : IoEvents) (c : Client) : Unread c (hungUp events c) := by
  rw [hungUp]
  split <;> exact ⟨⟨rfl, rfl, rfl, rfl, rfl, rfl⟩, rfl⟩

private theorem eventPart_of_read {events : IoEvents} (hin : events.epollIn = true) (data : Bytes)
    (ending : RecvEnd) (c : Client) (s : Server) :
    eventPart cfg app events data ending c s =
      handleInput cfg app data ending (hungUp events c) s := if_pos hin

theorem Dispatches.handleClient (h : Dispatches app.sha1 s) (fd : ℤ) (events : IoEvents)
    (data : Bytes) (ending : RecvEnd)
    (hguard : events.epollIn = true → ∀ c ∈ s.clients.lookup fd,
      ∀ call ∈ s.httpCalls, call.cid ≠ c.cid) :
    Dispatches app.sha1 (handleClient cfg app fd events data ending s) := by
  cases hc : s.clients.lookup fd with
  | none =>
    rw [Websockets.handleClient, hc]
    exact h
  | some c =>
    obtain ⟨o, hleft, hreplaces, hcalls, -⟩ :=
      handleClient_spec cfg app hc events data ending
    have hunread := unread_hungUp events c
    cases hin : events.epollIn with
    | false =>
      have hpart : eventPart cfg app events data ending c s = (hungUp events c, s) := by
        rw [eventPart, hin]
        rfl
      rw [hpart] at hleft hcalls
      refine h.of_unread hcalls hreplaces.nextCid fun {k c'} hc' ↦ ?_
      rw [hreplaces.clients] at hc'
      by_cases hk : k = fd
      · rw [if_pos hk] at hc'
        obtain ⟨hsame, hbuf⟩ := hleft c' hc'
        exact ⟨c, hk ▸ hc, hunread.toSameHttp.trans hsame, hbuf.trans hunread.inBuf⟩
      · rw [if_neg hk] at hc'
        exact ⟨c', hc', .refl c', rfl⟩
    | true =>
      obtain ⟨hhttp, heq, -, hinput⟩ :=
        handleInput_spec cfg app data ending (hungUp events c) s
      obtain ⟨hcid, -⟩ := readPart_cid app data ending (hungUp events c)
      have hfound : HeadersFound (hungUp events c) := (h.headers hc).of_sameHttp hunread.toSameHttp
      rw [eventPart_of_read hin] at hleft hcalls
      rw [hinput, hunread.cid] at hcalls
      refine h.read hc (hguard hin c hc) (hhttp.cid.trans (hcid.trans hunread.cid))
        ((headersFound_readPart hfound data ending).of_sameHttp hhttp) (fun p hp ↦ ?_) hleft
        hreplaces hcalls
      have hholds := readPart_holds hfound data ending hp
      rw [heq hholds.handshakeDone, ← hunread.cid]
      exact hholds

/-- **A read event of a client for which `schedule_http` has been called dispatches its request
again.** -/
theorem not_dispatchedOnce_handleClient (h : Dispatches app.sha1 s) {fd : ℤ} {events : IoEvents}
    (hin : events.epollIn = true) (hc : s.clients.lookup fd = some c) {call : HttpCall}
    (hcall : call ∈ s.httpCalls) (hcid : call.cid = c.cid) (data : Bytes) (ending : RecvEnd) :
    ¬DispatchedOnce (handleClient cfg app fd events data ending s) := by
  obtain ⟨-, -, -, hcalls, -⟩ := handleClient_spec cfg app hc events data ending
  obtain ⟨-, -, -, hinput⟩ :=
    handleInput_spec cfg app data ending (hungUp events c) s
  have hunread := unread_hungUp events c
  have hholds : Holds app.sha1 (hungUp events c) call :=
    (h.holds hc hcall hcid).of_sameHttp hunread.toSameHttp hunread.inBuf
  obtain ⟨text, body, hread, hsame⟩ :=
    readHttp_of_holds hholds (hcid.trans hunread.cid.symm) data ending
  have hpart : (readPart app data ending (hungUp events c)).2 = some (text, body) := by
    have hdone : (receive data ending (hungUp events c)).handshakeDone = false :=
      hholds.handshakeDone
    rw [readPart]
    simp only [hdone]
    exact hread
  rw [eventPart_of_read hin, hinput, hpart, Option.map_some, Option.toList_some] at hcalls
  rw [DispatchedOnce, hcalls, List.map_append, List.map_singleton, hsame]
  intro hnodup
  exact List.disjoint_of_nodup_append hnodup (List.mem_map_of_mem hcall)
    (List.mem_singleton_self _)

theorem Dispatches.acceptClient (h : Dispatches app.sha1 s) (cfd : ℤ) :
    Dispatches app.sha1 (acceptClient s cfd) := by
  rw [Websockets.acceptClient]
  split
  · exact h
  set fresh : Client := { cid := s.nextCid, fd := cfd } with hfresh
  have hclients : ∀ {k c₁}, (s.clients.insert cfd fresh).lookup k = some c₁ →
      k = cfd ∧ c₁ = fresh ∨ s.clients.lookup k = some c₁ := by
    intro k c₁ hc₁
    by_cases hk : k = cfd
    · rw [hk, AList.lookup_insert, Option.some.injEq] at hc₁
      exact .inl ⟨hk, hc₁.symm⟩
    · rw [AList.lookup_insert_ne hk] at hc₁
      exact .inr hc₁
  refine ⟨fun {k c₁} hc₁ ↦ ?_, fun {k c₁ k' c₂} hc₁ hc₂ heq ↦ ?_,
    fun {call} hcall ↦ Nat.lt_succ_of_lt (h.call_lt hcall), fun {k c₁} hc₁ ↦ ?_,
    fun {k c₁ call} hc₁ hcall hcid ↦ ?_, h.once⟩
  · rcases hclients hc₁ with ⟨-, rfl⟩ | hc₁
    · exact Nat.lt_succ_self _
    · exact Nat.lt_succ_of_lt (h.cid_lt hc₁)
  · rcases hclients hc₁ with ⟨rfl, rfl⟩ | hold₁
    · rcases hclients hc₂ with ⟨rfl, rfl⟩ | hold₂
      · rfl
      · exact absurd heq (h.cid_lt hold₂).ne'
    · rcases hclients hc₂ with ⟨rfl, rfl⟩ | hold₂
      · exact absurd heq (h.cid_lt hold₁).ne
      · exact h.cid_inj hold₁ hold₂ heq
  · rcases hclients hc₁ with ⟨-, rfl⟩ | hc₁
    · exact fun hmode ↦ (nomatch hmode)
    · exact h.headers hc₁
  · rcases hclients hc₁ with ⟨-, rfl⟩ | hc₁
    · exact absurd hcid (h.call_lt hcall).ne
    · exact h.holds hc₁ hcall hcid

private theorem Dispatches.of_clients_eq (h : Dispatches app.sha1 s)
    (hcalls : s'.httpCalls = s.httpCalls)
    (hnext : s'.nextCid = s.nextCid) (hclients : s'.clients = s.clients) :
    Dispatches app.sha1 s' :=
  h.of_unread hcalls hnext fun {_ c'} hc' ↦ ⟨c', hclients ▸ hc', .refl c', rfl⟩

theorem Dispatches.deliver (h : Dispatches app.sha1 s) (pf : PendingFrame) :
    Dispatches app.sha1 (deliver s pf) := by
  rw [Websockets.deliver]
  split
  · exact h
  next c hc =>
  refine h.of_unread rfl rfl fun {k c'} hc' ↦ ?_
  simp only at hc'
  by_cases hk : k = pf.fd
  · rw [hk, AList.lookup_insert, Option.some.injEq] at hc'
    rw [hk, ← hc']
    exact ⟨c, hc, ⟨rfl, rfl, rfl, rfl, rfl, rfl⟩, rfl⟩
  · rw [AList.lookup_insert_ne hk] at hc'
    exact ⟨c', hc', .refl c', rfl⟩

theorem Dispatches.workerStep (h : Dispatches app.sha1 s) (k : ℕ) :
    Dispatches app.sha1 (workerStep app k s) := by
  rw [Websockets.workerStep]
  split
  · exact h
  split
  · split
    · exact h
    · exact h.of_clients_eq rfl rfl rfl
  · exact h.of_clients_eq rfl rfl rfl
  · exact h.of_clients_eq rfl rfl rfl

/-! ## Runs

The first call for a request is right and the second is wrong. So a run is right as long as no read
event comes after the first call, and the condition is exact. -/

private theorem dispatches_initial (sha1 : Bytes → Bytes) (bases : List UInt64)
    (capacity : UInt64) : Dispatches sha1 (initial bases capacity) := by
  have hnone : ∀ {fd c}, (initial bases capacity).clients.lookup fd = some c → False := by
    intro fd c hc
    rw [initial, AList.lookup_empty] at hc
    cases hc
  exact ⟨fun hc ↦ (hnone hc).elim, fun hc ↦ (hnone hc).elim, fun hcall ↦ (nomatch hcall),
    fun hc ↦ (hnone hc).elim, fun hc ↦ (hnone hc).elim, List.nodup_nil⟩

theorem Dispatches.step (h : Dispatches app.sha1 s) {e : Event} (hguard : ReadsNoMore s e) :
    Dispatches app.sha1 (step cfg app s e) := by
  unfold Websockets.step
  split
  · exact h
  next hterminated =>
  cases e with
  | accept cfds =>
    exact List.foldlRecOn (motive := Dispatches app.sha1) cfds _ h
      fun s' hs' cfd _ ↦ hs'.acceptClient cfd
  | client fd events data ending =>
    exact h.handleClient fd events data ending (hguard (Bool.eq_false_iff.mpr hterminated))
  | pending =>
    exact List.foldlRecOn (motive := Dispatches app.sha1) s.pendingFrames _
      (h.of_clients_eq rfl rfl rfl) fun s' hs' pf _ ↦ hs'.deliver pf
  | worker k => exact h.workerStep k
  | outside elapsed sends => exact h.of_clients_eq rfl rfl rfl
  | fcgiTake =>
    simp only
    split
    · exact h
    · exact h.of_clients_eq rfl rfl rfl
  | fcgiReturn k =>
    simp only
    split
    · exact h
    · exact h.of_clients_eq rfl rfl rfl

private theorem not_dispatchedOnce_step (h : Dispatches app.sha1 s) {e : Event}
    (hnot : ¬ReadsNoMore s e) :
    ¬DispatchedOnce (step cfg app s e) := by
  cases e with
  | client fd events data ending =>
    rw [ReadsNoMore] at hnot
    push Not at hnot
    obtain ⟨hterminated, hin, c, hc, call, hcall, hcid⟩ := hnot
    unfold Websockets.step
    rw [if_neg (Bool.eq_false_iff.mp hterminated)]
    exact not_dispatchedOnce_handleClient h hin hc hcall hcid data ending
  | accept cfds => exact absurd trivial hnot
  | pending => exact absurd trivial hnot
  | worker k => exact absurd trivial hnot
  | outside elapsed sends => exact absurd trivial hnot
  | fcgiTake => exact absurd trivial hnot
  | fcgiReturn k => exact absurd trivial hnot

/-- **Requests are dispatched once exactly as long as no read event reaches a connection after the
one that dispatched its request.** -/
theorem always_dispatchedOnce_iff (cfg : GlobalConfig) (app : Application) (bases : List UInt64)
    (capacity : UInt64) (events : List Event) :
    Always (step cfg app) DispatchedOnce (initial bases capacity) events
      ↔ Meets (step cfg app) ReadsNoMore (initial bases capacity) events :=
  always_iff_meets_of_guarded (fun _ h ↦ h.once) (fun _ _ h hguard ↦ h.step hguard)
    (fun _ _ h hnot ↦ not_dispatchedOnce_step h hnot)
    (dispatches_initial app.sha1 bases capacity)

/-- A peer asks and closes its side: the event that reports the end of file reads once more. -/
def asksAndCloses : List Event :=
  [.accept [5], .client 5 ⟨true, false, false⟩ (ascii "GET / HTTP/1.1" ++ crlfcrlf) .again,
    .client 5 ⟨true, false, false⟩ [] .eof]

theorem not_always_dispatchedOnce_asksAndCloses :
    ¬Always (step {} ⟨fun _ ↦ [], fun r ↦ r, none, some fun r ↦ (r, [])⟩) DispatchedOnce
      (initial [0x10000] 0x10000) asksAndCloses := by
  intro h
  have hcalls : (asksAndCloses.foldl (step {} ⟨fun _ ↦ [], fun r ↦ r, none, some fun r ↦ (r, [])⟩)
      (initial [0x10000] 0x10000)).httpCalls.map HttpCall.request
        = [(0, ascii "GET / HTTP/1.1" ++ crlfcrlf, []),
          (0, ascii "GET / HTTP/1.1" ++ crlfcrlf, [])] := by decide +kernel
  generalize asksAndCloses = events at h hcalls
  have honce := h.last
  rw [DispatchedOnce, hcalls, List.nodup_cons] at honce
  exact honce.1 (List.mem_singleton_self _)

end Wasapi.Websockets
