import Wasapi.Websockets.PlainHttp

/-!
# Bodies that arrive in pieces

As long as a body is incomplete, what has come of it waits in `in_buf`, and also at the end of
`in_http`. The next read appends `in_buf` to `in_http` once more before it looks for the end of the
headers, so that everything that has waited is there twice. A body gets through whole if no part of
it has to wait; otherwise only if the text with the doubled parts begins like the body itself.
-/

namespace Wasapi.Websockets

/-- A plain HTTP request: the header block ends at its first empty line, holds no websocket key and
announces the length of the body. -/
structure PlainRequest (sha1 : Bytes → Bytes) where
  headers : Bytes
  body : Bytes
  found : findPattern crlfcrlf headers = some (headers.length - 4)
  plain : parseHttpHeaders sha1 headers = none
  announced : (contentLength headers).getD 0 = body.length

/-- One read of an open connection, and what it does to the server. -/
def readInto (cfg : GlobalConfig) (app : Application) (p : Client × Server) (chunk : Bytes) :
    Client × Server :=
  handleInput cfg app chunk .again p.1 p.2

/-- The bodies of the calls of `schedule_http` for a connection. -/
def bodiesOf (cid : ℕ) (s : Server) : List Bytes :=
  (s.httpCalls.filter fun call ↦ call.cid = cid).map HttpCall.body

/-- The first call of `schedule_http` for the client comes with the last read and gets the body. -/
def DispatchesBody (cfg : GlobalConfig) (app : Application) (body : Bytes) (p : Client × Server)
    (reads : List Bytes) : Prop :=
  bodiesOf p.1.cid (reads.dropLast.foldl (readInto cfg app) p).2 = [] ∧
    (bodiesOf p.1.cid (reads.foldl (readInto cfg app) p).2).head? = some body

/-! ## How a cut divides the body

What has come of the body is in two places when the next part arrives, and is appended to itself.
`doubled` is the text that grows that way, by its definition and without the program. -/

/-- What the reads bring behind the first `n` octets. -/
def bodyParts : ℕ → List Bytes → List Bytes
  | _, [] => []
  | n, r :: rs => if r.length ≤ n then bodyParts (n - r.length) rs else r.drop n :: rs

/-- The text that arises when whatever waits is repeated before the next part is appended. -/
def doubled (waiting : Bytes) (parts : List Bytes) : Bytes :=
  parts.foldl (fun waiting part ↦ waiting ++ waiting ++ part) waiting

private theorem doubled_cons (waiting part : Bytes) (parts : List Bytes) :
    doubled waiting (part :: parts) = doubled (waiting ++ waiting ++ part) parts := rfl

private theorem length_le_doubled (waiting : Bytes) (parts : List Bytes) :
    waiting.length ≤ (doubled waiting parts).length := by
  induction parts generalizing waiting with
  | nil => exact le_rfl
  | cons part parts ih =>
    rw [doubled_cons]
    refine le_trans ?_ (ih _)
    rw [List.length_append, List.length_append]
    omega

/-- The body is not cut, or nobody can tell: the doubled parts are too short to pass for it before
the last part has come, and then look like it. -/
def BodyWhole (body : Bytes) (parts : List Bytes) : Prop :=
  parts.length ≤ 1 ∨ (doubled [] parts.dropLast).length < body.length ∧ body <+: doubled [] parts

/-! ## Reads

Between two reads a connection awaits the end of its headers or the rest of its body. In the second
case what waits in `in_buf` stands at the end of `in_http` too. -/

section

variable {cfg : GlobalConfig} {app : Application} {s : Server} {c : Client}

/-- The end of the headers has not come. -/
structure AwaitsHeaders (q : PlainRequest app.sha1) (got : Bytes) (c : Client) : Prop where
  handshakeDone : c.handshakeDone = false
  httpMode : c.httpMode = false
  inHttp : c.inHttp = got
  inBuf : c.inBuf = []
  announced : (contentLength q.headers).getD c.httpContentLength = q.body.length
  lt : got.length < q.headers.length

/-- Some of the body waits. -/
structure AwaitsBody (q : PlainRequest app.sha1) (waiting : Bytes) (c : Client) : Prop where
  handshakeDone : c.handshakeDone = false
  inHttp : c.inHttp = q.headers ++ waiting
  inBuf : c.inBuf = waiting
  announced : (contentLength q.headers).getD c.httpContentLength = q.body.length
  lt : waiting.length < q.body.length

variable {q : PlainRequest app.sha1}

private theorem bodiesOf_readInto (p : Client × Server) (chunk : Bytes) :
    bodiesOf p.1.cid (readInto cfg app p chunk).2 =
      bodiesOf p.1.cid p.2 ++ ((readPart app chunk .again p.1).2.map Prod.snd).toList := by
  obtain ⟨-, -, -, hcalls⟩ := handleInput_spec cfg app chunk .again p.1 p.2
  rw [readInto, bodiesOf, hcalls, List.filter_append, List.map_append]
  congr 1
  cases (readPart app chunk .again p.1).2 with
  | none => rfl
  | some call => simp

private theorem cid_readInto (p : Client × Server) (chunk : Bytes) :
    (readInto cfg app p chunk).1.cid = p.1.cid := by
  obtain ⟨hsame, -, -, -⟩ := handleInput_spec cfg app chunk .again p.1 p.2
  exact hsame.cid.trans (readPart_cid app chunk .again p.1).1

/-- Calls are never forgotten. -/
theorem bodiesOf_foldl_ne_nil {p : Client × Server} (reads : List Bytes)
    (h : bodiesOf p.1.cid p.2 ≠ []) :
    bodiesOf p.1.cid (reads.foldl (readInto cfg app) p).2 ≠ [] := by
  induction reads generalizing p with
  | nil => exact h
  | cons chunk reads ih =>
    rw [List.foldl_cons, ← cid_readInto p chunk]
    refine ih ?_
    rw [cid_readInto, bodiesOf_readInto]
    exact fun hnil ↦ h (List.append_eq_nil_iff.mp hnil).1

/-- Before the last read a chunk does not call. -/
theorem dispatchesBody_cons {p : Client × Server} {body chunk : Bytes} {reads : List Bytes}
    (hne : reads ≠ []) :
    DispatchesBody cfg app body p (chunk :: reads) ↔
      DispatchesBody cfg app body (readInto cfg app p chunk) reads := by
  rw [DispatchesBody, DispatchesBody, List.dropLast_cons_of_ne_nil hne, List.foldl_cons,
    List.foldl_cons, cid_readInto]

/-! ## One read

A read appends `in_buf` to `in_http` and looks again from the beginning. It calls `schedule_http` if
there are as many octets behind the headers as announced, whatever they are. -/

theorem PlainRequest.four_le (q : PlainRequest app.sha1) : 4 ≤ q.headers.length := by
  have hle : q.headers.length - 4 + 4 ≤ q.headers.length :=
    length_le_of_findPattern q.found (by decide)
  omega

private theorem readPart_of_initial {got : Bytes} (h : AwaitsHeaders q got c) {chunk : Bytes}
    (hinitial : got ++ chunk <+: q.headers) (hlt : (got ++ chunk).length < q.headers.length) :
    (readPart app chunk .again c).2 = none ∧
      AwaitsHeaders q (got ++ chunk) (readPart app chunk .again c).1 := by
  have hnone := findPattern_of_initial (by decide) q.found hinitial hlt
  have hread : readPart app chunk .again c =
      ({ receive chunk .again c with inHttp := got ++ chunk, inBuf := [] }, none) := by
    simp only [readPart, receive, h.handshakeDone, Bool.false_eq_true, if_false, readHttp, h.inHttp,
      h.inBuf, List.nil_append, hnone, h.httpMode, Bool.false_and]
  rw [hread]
  exact ⟨rfl, h.handshakeDone, h.httpMode, rfl, rfl, h.announced, hlt⟩

/-- A read behind which the whole header block is there, with `u` after it. -/
theorem readPart_of_headers (hdone : c.handshakeDone = false)
    (hannounced : (contentLength q.headers).getD c.httpContentLength = q.body.length)
    {chunk u : Bytes} (hhttp : c.inHttp ++ (c.inBuf ++ chunk) = q.headers ++ u) :
    (q.body.length ≤ u.length →
        (readPart app chunk .again c).2 = some (q.headers ++ u, u.take q.body.length)) ∧
      (u.length < q.body.length → (readPart app chunk .again c).2 = none ∧
        AwaitsBody q u (readPart app chunk .again c).1) := by
  have hfound := findPattern_append q.found u
  have hend : q.headers.length - 4 + 4 = q.headers.length := by
    have hle := q.four_le
    omega
  have hread : readPart app chunk .again c =
      let c' := { receive chunk .again c with
        inHttp := q.headers ++ u
        httpMode := true
        httpContentLength := q.body.length
        httpHeadersParsed := true
        inBuf := u }
      if q.body.length ≤ u.length then
        ({ c' with inBuf := [] }, some (q.headers ++ u, u.take q.body.length))
      else (c', none) := by
    simp only [readPart, receive, hdone, Bool.false_eq_true, if_false, readHttp, hhttp, hfound,
      hend, List.take_left, List.drop_left, q.plain, hannounced]
  rw [hread]
  constructor
  · intro hle
    simp only [if_pos hle]
  · intro hlt
    simp only [if_neg (not_le.mpr hlt)]
    refine ⟨trivial, hdone, rfl, rfl, ?_, hlt⟩
    cases hlength : contentLength q.headers with
    | none => rfl
    | some n =>
      rw [hlength] at hannounced
      exact hannounced

/-! ## A request in several reads

By induction on the reads that are left, with what waits as the accumulator. The call comes as soon
as the doubled text is long enough, and gets its first octets. -/

variable (cfg) in
private theorem readInto_of_awaits {p : Client × Server} {chunk : Bytes}
    (hcall : (readPart app chunk .again p.1).2 = none)
    (hdone : (readPart app chunk .again p.1).1.handshakeDone = false)
    (hcalls : bodiesOf p.1.cid p.2 = []) :
    (readInto cfg app p chunk).1 = (readPart app chunk .again p.1).1 ∧
      bodiesOf (readInto cfg app p chunk).1.cid (readInto cfg app p chunk).2 = [] := by
  obtain ⟨-, heq, -, -⟩ := handleInput_spec cfg app chunk .again p.1 p.2
  refine ⟨heq hdone, ?_⟩
  rw [cid_readInto, bodiesOf_readInto, hcalls, hcall, Option.map_none, Option.toList_none,
    List.append_nil]

/-- **What waits is doubled by every read.** -/
theorem dispatchesBody_iff_of_awaitsBody {p : Client × Server} {waiting : Bytes}
    (h : AwaitsBody q waiting p.1) (hcalls : bodiesOf p.1.cid p.2 = []) (parts : List Bytes) :
    DispatchesBody cfg app q.body p parts ↔
      (doubled waiting parts.dropLast).length < q.body.length ∧
        q.body <+: doubled waiting parts := by
  induction parts generalizing p waiting with
  | nil =>
    constructor
    · rintro ⟨-, hhead⟩
      rw [List.foldl_nil, hcalls] at hhead
      cases hhead
    · rintro ⟨-, hinitial⟩
      exact absurd hinitial.length_le (not_le.mpr h.lt)
  | cons part parts ih =>
    have hhttp : p.1.inHttp ++ (p.1.inBuf ++ part) = q.headers ++ (waiting ++ waiting ++ part) := by
      rw [h.inHttp, h.inBuf]
      simp only [List.append_assoc]
    obtain ⟨hdispatch, hwait⟩ := readPart_of_headers h.handshakeDone h.announced hhttp
    rw [doubled_cons]
    rcases lt_or_ge (waiting ++ waiting ++ part).length q.body.length with hlt | hle
    · -- it has to wait longer
      obtain ⟨hnone, hwaits⟩ := hwait hlt
      obtain ⟨hclient, hbodies⟩ := readInto_of_awaits cfg hnone hwaits.handshakeDone hcalls
      rw [← hclient] at hwaits
      cases parts with
      | nil =>
        constructor
        · rintro ⟨-, hhead⟩
          rw [List.foldl_cons, List.foldl_nil, ← cid_readInto p part, hbodies] at hhead
          cases hhead
        · rintro ⟨-, hinitial⟩
          exact absurd hinitial.length_le (not_le.mpr hlt)
      | cons part' parts =>
        rw [dispatchesBody_cons (List.cons_ne_nil part' parts), ih hwaits hbodies,
          List.dropLast_cons_of_ne_nil (List.cons_ne_nil part' parts), doubled_cons waiting part]
    · have hbodies : bodiesOf p.1.cid (readInto cfg app p part).2
          = [(waiting ++ waiting ++ part).take q.body.length] := by
        rw [bodiesOf_readInto, hcalls, hdispatch hle]
        rfl
      cases parts with
      | nil =>
        rw [DispatchesBody, List.foldl_cons, List.foldl_nil, hbodies, List.head?_cons,
          Option.some.injEq, List.prefix_iff_eq_take, eq_comm (b := q.body)]
        exact and_congr_left fun _ ↦ ⟨fun _ ↦ h.lt, fun _ ↦ hcalls⟩
      | cons part' parts =>
        -- the call comes before the last read
        refine iff_of_false ?_ ?_
        · rintro ⟨hearly, -⟩
          rw [List.dropLast_cons_of_ne_nil (List.cons_ne_nil part' parts), List.foldl_cons,
            ← cid_readInto p part] at hearly
          refine bodiesOf_foldl_ne_nil _ ?_ hearly
          rw [cid_readInto, hbodies]
          exact List.cons_ne_nil _ _
        · rintro ⟨hshort, -⟩
          rw [List.dropLast_cons_of_ne_nil (List.cons_ne_nil part' parts), doubled_cons] at hshort
          exact absurd (hle.trans (length_le_doubled _ _)) (not_le.mpr hshort)

private theorem bodyParts_zero {reads : List Bytes} (hne : ∀ r ∈ reads, r ≠ []) :
    bodyParts 0 reads = reads := by
  cases reads with
  | nil => rfl
  | cons r rs =>
    have hpos := List.length_pos_of_ne_nil (hne r List.mem_cons_self)
    rw [bodyParts, if_neg (by omega), List.drop_zero]

/-- Only the end of the body comes after `u`. -/
private theorem bodyWhole_iff {body u : Bytes} {reads : List Bytes} (hne : ∀ r ∈ reads, r ≠ [])
    (hcut : u ++ reads.flatten = body) (hlt : u.length < body.length) :
    (doubled u reads.dropLast).length < body.length ∧ body <+: doubled u reads ↔
      BodyWhole body (if u = [] then reads else u :: reads) := by
  have hreads : reads ≠ [] := by
    rintro rfl
    rw [← hcut, List.flatten_nil, List.append_nil] at hlt
    exact lt_irrefl _ hlt
  rw [BodyWhole]
  by_cases hu : u = []
  · subst hu
    rw [if_pos rfl]
    refine ⟨.inr, ?_⟩
    rintro (hone | h)
    · obtain ⟨part, rfl⟩ := List.length_eq_one_iff.mp
        (le_antisymm hone (List.length_pos_of_ne_nil hreads))
      rw [List.nil_append, List.flatten_singleton] at hcut
      rw [hcut]
      exact ⟨hlt, List.prefix_refl body⟩
    · exact h
  · rw [if_neg hu, List.dropLast_cons_of_ne_nil hreads, doubled_cons, doubled_cons]
    have hpos := List.length_pos_of_ne_nil hreads
    refine ⟨.inr, fun h ↦ h.resolve_left ?_⟩
    rw [List.length_cons]
    omega

/-- The read that ends the headers brings the first part of the body, if any. -/
theorem bodyParts_of_headers {headers got r u : Bytes} (hlt : got.length < headers.length)
    (hu : headers ++ u = got ++ r) {rs : List Bytes} (hne : ∀ r ∈ rs, r ≠ []) :
    bodyParts (headers.length - got.length) (r :: rs) = if u = [] then rs else u :: rs := by
  have hlen := congrArg List.length hu
  rw [List.length_append, List.length_append] at hlen
  rw [bodyParts]
  by_cases hnil : u = []
  · rw [hnil, List.length_nil] at hlen
    rw [if_pos (by omega), if_pos hnil,
      show headers.length - got.length - r.length = 0 by omega, bodyParts_zero hne]
  · have hpos := List.length_pos_of_ne_nil hnil
    have hdrop : r.drop (headers.length - got.length) = u := by
      have hcancel := congrArg (List.drop headers.length) hu
      rwa [List.drop_left, List.drop_append, List.drop_of_length_le hlt.le, List.nil_append,
        eq_comm] at hcancel
    rw [if_neg (by omega), if_neg hnil, hdrop]

private theorem dispatchesBody_iff_of_awaitsHeaders {p : Client × Server} {got : Bytes}
    (h : AwaitsHeaders q got p.1) (hcalls : bodiesOf p.1.cid p.2 = []) {reads : List Bytes}
    (hne : ∀ r ∈ reads, r ≠ []) (hcut : got ++ reads.flatten = q.headers ++ q.body) :
    DispatchesBody cfg app q.body p reads ↔
      BodyWhole q.body (bodyParts (q.headers.length - got.length) reads) := by
  induction reads generalizing p got with
  | nil =>
    rw [List.flatten_nil, List.append_nil] at hcut
    have hlt := h.lt
    rw [hcut, List.length_append] at hlt
    omega
  | cons r rs ih =>
    have hne' : ∀ r ∈ rs, r ≠ [] := fun r hr ↦ hne r (List.mem_cons_of_mem _ hr)
    rw [List.flatten_cons, ← List.append_assoc] at hcut
    have hgot : (got ++ r).length = got.length + r.length := List.length_append
    have hlt := h.lt
    rcases lt_or_ge (got ++ r).length q.headers.length with hshort | hlong
    · -- the end of the headers is still to come
      have hinitial : got ++ r <+: q.headers :=
        List.prefix_of_prefix_length_le ⟨rs.flatten, hcut⟩ (List.prefix_append _ _) hshort.le
      have hrs : rs ≠ [] := by
        rintro rfl
        rw [List.flatten_nil, List.append_nil] at hcut
        rw [hcut, List.length_append] at hshort
        omega
      obtain ⟨hnone, hawaits⟩ := readPart_of_initial h hinitial hshort
      obtain ⟨hclient, hbodies⟩ := readInto_of_awaits cfg hnone hawaits.handshakeDone hcalls
      rw [← hclient] at hawaits
      rw [dispatchesBody_cons hrs, ih hawaits hbodies hne' hcut, bodyParts, if_pos (by omega), hgot,
        Nat.sub_sub]
    · obtain ⟨u, hu⟩ : q.headers <+: got ++ r :=
        List.prefix_of_prefix_length_le (List.prefix_append _ _) ⟨rs.flatten, hcut⟩ hlong
      rw [← hu, List.append_assoc, List.append_cancel_left_eq] at hcut
      have hhttp : p.1.inHttp ++ (p.1.inBuf ++ r) = q.headers ++ u := by
        rw [h.inHttp, h.inBuf, List.nil_append, hu]
      obtain ⟨hdispatch, hwait⟩ := readPart_of_headers h.handshakeDone h.announced hhttp
      rw [bodyParts_of_headers hlt hu hne']
      rcases lt_or_ge u.length q.body.length with hpart | hwhole
      · obtain ⟨hnone, hwaits⟩ := hwait hpart
        obtain ⟨hclient, hbodies⟩ := readInto_of_awaits cfg hnone hwaits.handshakeDone hcalls
        rw [← hclient] at hwaits
        have hrs : rs ≠ [] := by
          rintro rfl
          rw [← hcut, List.flatten_nil, List.append_nil] at hpart
          exact lt_irrefl _ hpart
        rw [dispatchesBody_cons hrs, dispatchesBody_iff_of_awaitsBody hwaits hbodies,
          bodyWhole_iff hne' hcut hpart]
      · -- all of it has come, so this was the last read
        have hflat : rs.flatten = [] := by
          have hlen := congrArg List.length hcut
          rw [List.length_append] at hlen
          exact List.eq_nil_of_length_eq_zero (by omega)
        have hrs : rs = [] := by
          refine List.eq_nil_iff_forall_not_mem.mpr fun r' hr' ↦ hne' r' hr' ?_
          exact List.flatten_eq_nil_iff.mp hflat r' hr'
        rw [hflat, List.append_nil] at hcut
        subst hrs
        refine iff_of_true ⟨hcalls, ?_⟩ (.inl ?_)
        · rw [List.foldl_cons, List.foldl_nil, bodiesOf_readInto, hcalls, hdispatch hwhole, hcut,
            List.take_length]
          rfl
        · split <;> simp

end

/-- **When a cut does not harm the body.** The first call of `schedule_http` comes with the last
read and gets the body exactly when the body arrives in one piece, or when repeating the parts that
wait happens to give the same text. -/
theorem dispatchesBody_iff (cfg : GlobalConfig) (app : Application) (q : PlainRequest app.sha1)
    (cid : ℕ) (fd : ℤ) {s : Server} (hfirst : bodiesOf cid s = []) {reads : List Bytes}
    (hne : ∀ r ∈ reads, r ≠ []) (hcut : reads.flatten = q.headers ++ q.body) :
    DispatchesBody cfg app q.body ({ cid := cid, fd := fd }, s) reads ↔
      BodyWhole q.body (bodyParts q.headers.length reads) := by
  have hpos := q.four_le
  have hawaits : AwaitsHeaders q [] { cid := cid, fd := fd } :=
    ⟨rfl, rfl, rfl, rfl, q.announced, by rw [List.length_nil]; omega⟩
  have hcut' : [] ++ reads.flatten = q.headers ++ q.body := hcut
  exact dispatchesBody_iff_of_awaitsHeaders hawaits hfirst hne hcut'

/-- A server whose handler answers nothing. -/
def quiet : Application := ⟨fun _ ↦ [], fun r ↦ r, none, some fun r ↦ (r, [])⟩

def postRequest : PlainRequest quiet.sha1 where
  headers := ascii "POST / HTTP/1.1" ++ crlf ++ ascii "Content-Length: 4" ++ crlfcrlf
  body := ascii "ping"
  found := by decide +kernel
  plain := by decide +kernel
  announced := by decide +kernel

/-- The body arrives in one piece. -/
theorem dispatchesBody_post :
    DispatchesBody {} quiet postRequest.body ({ cid := 0, fd := 5 }, initial [0x10000] 0x10000)
      [postRequest.headers.take 20, postRequest.headers.drop 20, ascii "ping"] := by
  have hwhole : BodyWhole postRequest.body (bodyParts postRequest.headers.length
      [postRequest.headers.take 20, postRequest.headers.drop 20, ascii "ping"]) :=
    .inl (by decide +kernel)
  exact (dispatchesBody_iff {} quiet postRequest 0 5 rfl (by decide +kernel)
    (by decide +kernel)).mpr hwhole

/-- The handler is called with the body `pipi`. -/
theorem not_dispatchesBody_post :
    ¬DispatchesBody {} quiet postRequest.body
      ({ cid := 0, fd := 5 }, initial [0x10000] 0x10000)
      [postRequest.headers ++ ascii "pi", ascii "ng"] := by
  rw [DispatchesBody]
  decide +kernel

end Wasapi.Websockets
