import Wasapi.Websockets.BodyCuts

/-!
# Input behind the upgrade request

Before the handshake everything that arrives goes from `in_buf` to `in_http`. A request that is not
an upgrade has what follows its headers moved back to `in_buf`. When the handshake is made nothing
is moved back, so the octets that came with the end of the request never reach the frame loop.
-/

namespace Wasapi.Websockets

/-- The text of a request, up to its first empty line. -/
structure HeaderBlock where
  text : Bytes
  found : findPattern crlfcrlf text = some (text.length - 4)

/-- The server takes the request for an upgrade. -/
def HeaderBlock.Upgrades (sha1 : Bytes → Bytes) (u : HeaderBlock) : Prop :=
  (parseHttpHeaders sha1 u.text).isSome = true

/-- **No octet is lost at the handshake**: at the moment it is made, the input still to be parsed as
frames is what has been received behind the request. -/
def HandshakeKeepsInput (cfg : GlobalConfig) (app : Application) (u : HeaderBlock)
    (p : Client × Server) (reads : List Bytes) : Prop :=
  ∀ before chunk after, reads = before ++ chunk :: after →
    let c := (before.foldl (readInto cfg app) p).1
    let c' := (readPart app chunk .again c).1
    c.handshakeDone = false → c'.handshakeDone = true →
      c'.inBuf = (before ++ [chunk]).flatten.drop u.text.length

/-- A read ends where the request ends. -/
def CutBehind (u : HeaderBlock) (reads : List Bytes) : Prop :=
  ∃ before after, reads = before ++ after ∧ before.flatten = u.text

/-- The read that brings the `n`-th octet. -/
theorem exists_read_of_lt {n : ℕ} {reads : List Bytes} (hpos : 0 < n)
    (hn : n ≤ reads.flatten.length) :
    ∃ before chunk after, reads = before ++ chunk :: after ∧ before.flatten.length < n ∧
      n ≤ (before ++ [chunk]).flatten.length := by
  induction reads using List.reverseRecOn with
  | nil =>
    rw [List.flatten_nil, List.length_nil] at hn
    omega
  | append_singleton reads chunk ih =>
    rcases lt_or_ge reads.flatten.length n with hlt | hle
    · exact ⟨reads, chunk, [], rfl, hlt, hn⟩
    · obtain ⟨before, chunk', after, rfl, hlt, hge⟩ := ih hle
      exact ⟨before, chunk', after ++ [chunk], by simp, hlt, hge⟩

/-- A cut behind the request is behind the read that completes it. -/
theorem length_le_of_cutBehind {u : HeaderBlock} {before after : List Bytes} {chunk : Bytes}
    (h : CutBehind u (before ++ chunk :: after))
    (hlt : before.flatten.length < u.text.length) :
    (before ++ [chunk]).flatten.length ≤ u.text.length := by
  obtain ⟨before', after', hcut, htext⟩ := h
  have hbefore : before <+: before' ++ after' := ⟨chunk :: after, hcut⟩
  have hthrough : before ++ [chunk] <+: before' ++ after' := ⟨after, by rw [← hcut]; simp⟩
  have hpart : before' <+: before' ++ after' := List.prefix_append _ _
  rcases lt_or_ge before.length before'.length with hshort | hlong
  · obtain ⟨t, rfl⟩ := List.prefix_of_prefix_length_le hthrough hpart
      (by rw [List.length_append]; exact hshort)
    rw [← htext, @List.flatten_append _ (before ++ [chunk]), List.length_append]
    exact Nat.le_add_right _ _
  · obtain ⟨t, rfl⟩ := List.prefix_of_prefix_length_le hpart hbefore hlong
    rw [← htext, List.flatten_append, List.length_append] at hlt
    omega

section

variable {cfg : GlobalConfig} {app : Application} {u : HeaderBlock} {c : Client}
  {p : Client × Server}

theorem HeaderBlock.four_le (u : HeaderBlock) : 4 ≤ u.text.length := by
  have hle : u.text.length - 4 + 4 ≤ u.text.length := length_le_of_findPattern u.found (by decide)
  omega

/-! ## One read

All that has arrived goes to `in_http`, and `in_buf` is emptied. When the header block turns out to
be that of an upgrade, what follows it is not moved back to `in_buf`, where frames are looked for.
-/

/-- The end of the request has not come. -/
structure AwaitsEnd (got : Bytes) (c : Client) : Prop where
  handshakeDone : c.handshakeDone = false
  httpMode : c.httpMode = false
  inHttp : c.inHttp = got
  inBuf : c.inBuf = []

private theorem readPart_awaitsEnd {got chunk : Bytes} (h : AwaitsEnd got c)
    (hinitial : got ++ chunk <+: u.text) (hlt : (got ++ chunk).length < u.text.length) :
    AwaitsEnd (got ++ chunk) (readPart app chunk .again c).1 := by
  have hnone := findPattern_of_initial (by decide) u.found hinitial hlt
  have hread : readPart app chunk .again c =
      ({ receive chunk .again c with inHttp := got ++ chunk, inBuf := [] }, none) := by
    simp only [readPart, receive, h.handshakeDone, Bool.false_eq_true, if_false, readHttp, h.inHttp,
      h.inBuf, List.nil_append, hnone, h.httpMode, Bool.false_and]
  rw [hread]
  exact ⟨h.handshakeDone, h.httpMode, rfl, rfl⟩

variable (app) in
/-- A read behind which the whole request is there, with `t` after it. An upgrade leaves nothing to
be parsed. -/
theorem readPart_of_whole {chunk t : Bytes} (hdone : c.handshakeDone = false)
    (hhttp : c.inHttp ++ (c.inBuf ++ chunk) = u.text ++ t) :
    (u.Upgrades app.sha1 → (readPart app chunk .again c).1.handshakeDone = true ∧
        (readPart app chunk .again c).1.inBuf = []) ∧
      (¬u.Upgrades app.sha1 → (readPart app chunk .again c).1.handshakeDone = false ∧
        (readPart app chunk .again c).1.inHttp = u.text ++ t) := by
  have hfound := findPattern_append u.found t
  have hend : u.text.length - 4 + 4 = u.text.length := Nat.sub_add_cancel u.four_le
  rw [HeaderBlock.Upgrades]
  simp only [readPart, receive, hdone, Bool.false_eq_true, if_false, readHttp, hhttp, hfound, hend,
    List.take_left]
  rcases parseHttpHeaders app.sha1 u.text with _ | keys
  · refine ⟨fun hsome ↦ absurd hsome Bool.false_ne_true, fun _ ↦ ?_⟩
    simp only
    split <;> exact ⟨rfl, rfl⟩
  · exact ⟨fun _ ↦ ⟨rfl, rfl⟩, fun hnot ↦ absurd rfl hnot⟩

/-! ## Several reads

A connection is in one of a few stages, by how much of the request has come. The stage and the
octets received determine what is in the two buffers. -/

/-- Where a connection is when `got` has been received. -/
inductive Stage (sha1 : Bytes → Bytes) (u : HeaderBlock) (got : Bytes) (c : Client) : Prop where
  /-- the end of the request has not come -/
  | awaits (hlt : got.length < u.text.length) (h : AwaitsEnd got c)
  | upgraded (hle : u.text.length ≤ got.length) (hdone : c.handshakeDone = true)
  /-- the request is a plain one -/
  | plain (h : ¬u.Upgrades sha1) (hdone : c.handshakeDone = false)
      (hhttp : ∃ t, c.inHttp = u.text ++ t)

private theorem Stage.awaitsEnd_of_lt {sha1 : Bytes → Bytes} {got : Bytes} (h : Stage sha1 u got c)
    (hup : u.Upgrades sha1) (hlt : got.length < u.text.length) : AwaitsEnd got c := by
  rcases h with ⟨-, h⟩ | ⟨hle, -⟩ | ⟨hnot, -, -⟩
  · exact h
  · omega
  · exact absurd hup hnot

variable (app) in
/-- What the next read makes of a connection that awaits the end of the request. -/
theorem readPart_of_awaits {got chunk r : Bytes} (h : AwaitsEnd got c)
    (hinitial : got ++ chunk <+: u.text ++ r) :
    (got ++ chunk).length < u.text.length ∧
        AwaitsEnd (got ++ chunk) (readPart app chunk .again c).1 ∨
      u.text.length ≤ (got ++ chunk).length ∧
        ∃ t, c.inHttp ++ (c.inBuf ++ chunk) = u.text ++ t := by
  rcases lt_or_ge (got ++ chunk).length u.text.length with hlt | hle
  · have hshort := List.prefix_of_prefix_length_le hinitial (List.prefix_append _ r) hlt.le
    exact .inl ⟨hlt, readPart_awaitsEnd h hshort hlt⟩
  · obtain ⟨t, ht⟩ := List.prefix_of_prefix_length_le (List.prefix_append _ r) hinitial hle
    refine .inr ⟨hle, t, ?_⟩
    rw [h.inHttp, h.inBuf, List.nil_append, ht]

/-- One read goes from stage to stage. -/
theorem Stage.read {got chunk r : Bytes} (h : Stage app.sha1 u got p.1)
    (hinitial : got ++ chunk <+: u.text ++ r) :
    Stage app.sha1 u (got ++ chunk) (readInto cfg app p chunk).1 := by
  obtain ⟨hsame, hclient, -, -⟩ := handleInput_spec cfg app chunk .again p.1 p.2
  -- a read that finds the whole request
  have hwhole {t : Bytes} (hle : u.text.length ≤ (got ++ chunk).length)
      (hdone : p.1.handshakeDone = false)
      (hhttp : p.1.inHttp ++ (p.1.inBuf ++ chunk) = u.text ++ t) :
      Stage app.sha1 u (got ++ chunk) (readInto cfg app p chunk).1 := by
    obtain ⟨hupgrade, hplain⟩ := readPart_of_whole app hdone hhttp
    by_cases hup : u.Upgrades app.sha1
    · exact .upgraded hle (hsame.handshakeDone.trans (hupgrade hup).1)
    · obtain ⟨hnot, htext⟩ := hplain hup
      exact .plain hup (hsame.handshakeDone.trans hnot) ⟨t, hsame.inHttp.trans htext⟩
  have hlonger : got.length ≤ (got ++ chunk).length := (List.prefix_append got chunk).length_le
  rcases h with ⟨hlt, h⟩ | ⟨hle, hdone⟩ | ⟨hup, hdone, t, hhttp⟩
  · rcases readPart_of_awaits app h hinitial with ⟨hlt', hawaits⟩ | ⟨hle, t, hhttp⟩
    · have heq : (readInto cfg app p chunk).1 = _ := hclient hawaits.handshakeDone
      refine .awaits hlt' ?_
      rw [heq]
      exact hawaits
    · exact hwhole hle h.handshakeDone hhttp
  · have hdone' : (receive chunk .again p.1).handshakeDone = true := hdone
    refine .upgraded (hle.trans hlonger) (hsame.handshakeDone.trans ?_)
    rw [readPart, if_pos hdone']
    exact hdone'
  · have hnot := (readPart_of_whole app hdone
      (t := t ++ (p.1.inBuf ++ chunk)) (by rw [hhttp, List.append_assoc])).2 hup
    exact .plain hup (hsame.handshakeDone.trans hnot.1) ⟨_, hsame.inHttp.trans hnot.2⟩

private theorem stage_foldl {r : Bytes} (h : AwaitsEnd [] p.1) {before : List Bytes}
    (hinitial : before.flatten <+: u.text ++ r) :
    Stage app.sha1 u before.flatten (before.foldl (readInto cfg app) p).1 := by
  induction before using List.reverseRecOn with
  | nil => exact .awaits (lt_of_lt_of_le (by decide : 0 < 4) u.four_le) h
  | append_singleton before chunk ih =>
    rw [List.flatten_append, List.flatten_singleton] at hinitial ⊢
    rw [List.foldl_append]
    exact (ih ((List.prefix_append _ _).trans hinitial)).read hinitial

variable (cfg app) in
/-- A read of some: where the connection is before it, and what it brings. -/
theorem stage_before {r : Bytes} (h : AwaitsEnd [] p.1) {before after : List Bytes} {chunk : Bytes}
    (hcut : (before ++ chunk :: after).flatten = u.text ++ r) :
    Stage app.sha1 u before.flatten (before.foldl (readInto cfg app) p).1 ∧
      before.flatten ++ chunk <+: u.text ++ r := by
  have hinitial : before.flatten ++ chunk <+: u.text ++ r :=
    ⟨after.flatten, by rw [← hcut, List.flatten_append, List.flatten_cons, List.append_assoc]⟩
  exact ⟨stage_foldl h ((List.prefix_append _ _).trans hinitial), hinitial⟩

end

/-! ## The handshake

The read that completes an upgrade request loses what it brings behind it. Nothing is lost if it
brings nothing, that is, if a read ends where the request ends. -/

/-- **When no octet is lost.** The handshake keeps the input exactly if the request is no upgrade,
or a read ends where it ends. -/
theorem handshakeKeepsInput_iff (cfg : GlobalConfig) (app : Application) (u : HeaderBlock) (cid : ℕ)
    (fd : ℤ) (s : Server) {r : Bytes} {reads : List Bytes} (hcut : reads.flatten = u.text ++ r) :
    HandshakeKeepsInput cfg app u ({ cid := cid, fd := fd }, s) reads ↔
      (u.Upgrades app.sha1 → CutBehind u reads) := by
  have hfresh : AwaitsEnd [] ({ cid := cid, fd := fd } : Client) := ⟨rfl, rfl, rfl, rfl⟩
  constructor
  · intro hkeeps hup
    have hreceived : u.text.length ≤ reads.flatten.length := by
      rw [hcut, List.length_append]
      exact Nat.le_add_right _ _
    obtain ⟨before, chunk, after, rfl, hlt, hge⟩ :=
      exists_read_of_lt (lt_of_lt_of_le (by decide : 0 < 4) u.four_le) hreceived
    obtain ⟨hstage, hinitial⟩ :=
      stage_before cfg app (p := ({ cid := cid, fd := fd }, s)) hfresh hcut
    have hflatten : (before ++ [chunk]).flatten = before.flatten ++ chunk := by
      rw [List.flatten_append, List.flatten_singleton]
    rw [hflatten] at hge
    have hawaits := hstage.awaitsEnd_of_lt hup hlt
    rcases readPart_of_awaits app hawaits hinitial with ⟨hlt', -⟩ | ⟨-, t, hhttp⟩
    · omega
    · obtain ⟨hdone, hbuf⟩ := (readPart_of_whole app hawaits.handshakeDone hhttp).1 hup
      have hdrop := hkeeps before chunk after rfl hawaits.handshakeDone hdone
      rw [hbuf, hflatten, eq_comm, List.drop_eq_nil_iff] at hdrop
      refine ⟨before ++ [chunk], after, (List.append_cons _ _ _), ?_⟩
      rw [hflatten]
      exact (List.prefix_of_prefix_length_le hinitial (List.prefix_append _ r) hdrop).eq_of_length
        (le_antisymm hdrop hge)
  · intro hbehind before chunk after hreads c c' hnot hdone
    rw [hreads] at hcut hbehind
    obtain ⟨hstage, hinitial⟩ :=
      stage_before cfg app (p := ({ cid := cid, fd := fd }, s)) hfresh hcut
    rcases hstage with ⟨hlt, hawaits⟩ | ⟨-, hdone'⟩ | ⟨hup, -, t, hhttp⟩
    · rcases readPart_of_awaits app hawaits hinitial with ⟨-, hawaits'⟩ | ⟨-, t, hhttp⟩
      · exact absurd (hawaits'.handshakeDone.symm.trans hdone) Bool.false_ne_true
      · obtain ⟨hupgrade, hplain⟩ := readPart_of_whole app hnot hhttp
        by_cases hup : u.Upgrades app.sha1
        · have hbuf : c'.inBuf = [] := (hupgrade hup).2
          rw [hbuf, List.drop_of_length_le (length_le_of_cutBehind (hbehind hup) hlt)]
        · exact absurd ((hplain hup).1.symm.trans hdone) Bool.false_ne_true
    · exact absurd (hnot.symm.trans hdone') Bool.false_ne_true
    · have htext : c.inHttp ++ (c.inBuf ++ chunk) = u.text ++ (t ++ (c.inBuf ++ chunk)) := by
        rw [hhttp, List.append_assoc]
      have hplain := (readPart_of_whole app hnot htext).2 hup
      exact absurd (hplain.1.symm.trans hdone) Bool.false_ne_true

def upgradeRequest : HeaderBlock where
  text := ascii "GET / HTTP/1.1" ++ crlf ++ ascii "Sec-WebSocket-Key: AA==" ++ crlfcrlf
  found := by decide +kernel

/-- Cut behind the request. -/
theorem handshakeKeepsInput_ping :
    HandshakeKeepsInput {} quiet upgradeRequest
      ({ cid := 0, fd := 5 }, initial [0x10000] 0x10000)
      [upgradeRequest.text.take 9, upgradeRequest.text.drop 9, [0x89, 0]] := by
  have hbehind : CutBehind upgradeRequest
      [upgradeRequest.text.take 9, upgradeRequest.text.drop 9, [0x89, 0]] :=
    ⟨[upgradeRequest.text.take 9, upgradeRequest.text.drop 9], [[0x89, 0]], rfl, by decide +kernel⟩
  exact (handshakeKeepsInput_iff {} quiet upgradeRequest 0 5 _ (r := [0x89, 0])
    (by decide +kernel)).mpr fun _ ↦ hbehind

/-- The request and a ping in one read: the ping is lost. -/
theorem not_handshakeKeepsInput_ping :
    ¬HandshakeKeepsInput {} quiet upgradeRequest
      ({ cid := 0, fd := 5 }, initial [0x10000] 0x10000)
      [upgradeRequest.text ++ [0x89, 0]] := by
  intro h
  have hbuf := h [] _ [] rfl rfl (by decide +kernel)
  revert hbuf
  decide +kernel

end Wasapi.Websockets
