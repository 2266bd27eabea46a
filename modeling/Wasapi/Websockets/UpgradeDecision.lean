import Wasapi.Websockets.Http

/-!
# Upgrade or not

`parse_http_headers` takes a request for an upgrade if the text `Sec-WebSocket-Key:` stands anywhere
in its header block, and takes the key from what follows. It looks neither at where in a line the
text stands nor for another spelling of the name. So the decision is right exactly if the first line
that holds the text is followed by the value of a field of that name, or no line holds the text and
no field has the name.
-/

namespace Wasapi.Websockets

/-- A line `name:value`. -/
structure HeaderField where
  name : Bytes
  value : Bytes
  no_colon : (58 : UInt8) ∉ name
  no_break : (13 : UInt8) ∉ name ++ 58 :: value

def HeaderField.line (f : HeaderField) : Bytes := f.name ++ 58 :: f.value

/-- The request line and the header fields. -/
structure RequestHead where
  requestLine : Bytes
  fields : List HeaderField
  no_break : (13 : UInt8) ∉ requestLine

namespace RequestHead

def lines (h : RequestHead) : List Bytes := h.requestLine :: h.fields.map HeaderField.line

/-- The header block, with the empty line at its end. -/
def text (h : RequestHead) : Bytes := h.lines.flatMap (· ++ crlf) ++ crlf

end RequestHead

/-- The field has the name of the key, in any spelling. -/
def HeaderField.IsKey (f : HeaderField) : Prop :=
  f.name.map toLower = (ascii "Sec-WebSocket-Key").map toLower

/-- What the server answers to a key: base64 of the hash of the key and the GUID of the protocol. -/
def acceptKey (sha1 : Bytes → Bytes) (key : Bytes) : Bytes :=
  base64Encode (sha1 (key ++ ascii "258EAFA5-E914-47DA-95CA-C5AB0DC85B11"))

/-- The request is taken for an upgrade if a field has the name of the key, and the key is its
value. -/
def DecidesUpgrade (sha1 : Bytes → Bytes) (h : RequestHead) : Prop :=
  match parseHttpHeaders sha1 h.text with
  | none => ∀ f ∈ h.fields, ¬f.IsKey
  | some (key, responseKey) =>
    (∃ f ∈ h.fields, f.IsKey ∧ key = trimSpaces f.value) ∧ responseKey = acceptKey sha1 key

/-! ## The first line that holds the text

The search does not know of lines, but the text has no line break in it. So where it first stands is
in one line, and this line decides what is taken for the key. -/

def keyText : Bytes := ascii "Sec-WebSocket-Key:"

/-- What follows the text where it first stands in a line. -/
def behindKeyText (line : Bytes) : Option Bytes :=
  (findPattern keyText line).map fun n ↦ line.drop (n + keyText.length)

/-- What follows the text where it first stands in the block. -/
def RequestHead.taken (h : RequestHead) : Option Bytes := h.lines.findSome? behindKeyText

/-- The first line that holds the text. -/
def RequestHead.firstMention (h : RequestHead) : Option Bytes :=
  h.lines.find? fun l ↦ (findPattern keyText l).isSome

/-- The first line that holds the text is that of a field with exactly this name, or what follows
the text in it happens to be the value of a field with the name. If no line holds the text, no field
has the name. -/
def RequestHead.Clear (h : RequestHead) : Prop :=
  match h.firstMention with
  | none => ∀ f ∈ h.fields, ¬f.IsKey
  | some l =>
    (∃ f ∈ h.fields, f.name = ascii "Sec-WebSocket-Key" ∧ l = f.line) ∨
    ∃ f ∈ h.fields, f.IsKey ∧ ∃ t, behindKeyText l = some t ∧ trimSpaces t = trimSpaces f.value

/-- A line without the text is passed over. -/
theorem findPattern_nextLine {l : Bytes} (h : findPattern keyText l = none) (s : Bytes) :
    findPattern keyText (l ++ 13 :: 10 :: s) =
      (findPattern keyText s).map (· + (l.length + 2)) := by
  have hnot : ¬keyText <+: 10 :: s := fun hprefix ↦
    absurd (List.cons_prefix_cons.mp hprefix).1 (by decide)
  rw [findPattern_append_cons (by decide) h (by decide), findPattern_cons_of_not hnot,
    Option.map_map]
  refine congrArg (Option.map · _) (funext fun n ↦ ?_)
  dsimp only [Function.comp_apply]
  omega

/-- The search goes line by line. -/
theorem findPattern_flatMap_crlf {lines : List Bytes} (h : ∀ l ∈ lines, (13 : UInt8) ∉ l) :
    match lines.findSome? behindKeyText with
    | none => findPattern keyText (lines.flatMap (· ++ crlf) ++ crlf) = none
    | some t => 13 ∉ t ∧ ∃ n u,
        findPattern keyText (lines.flatMap (· ++ crlf) ++ crlf) = some n ∧
        (lines.flatMap (· ++ crlf) ++ crlf).drop (n + keyText.length) = t ++ 13 :: u := by
  induction lines with
  | nil =>
    have hnone : findPattern keyText crlf = none := by decide
    exact hnone
  | cons l lines ih =>
    have hl : (13 : UInt8) ∉ l := h l List.mem_cons_self
    have hnext := ih fun l hl ↦ h l (List.mem_cons_of_mem _ hl)
    set s := lines.flatMap (· ++ crlf) ++ crlf with hs
    have hcons : (l :: lines).flatMap (· ++ crlf) ++ crlf = l ++ 13 :: 10 :: s := by
      rw [List.flatMap_cons, List.append_assoc, List.append_assoc]
      rfl
    rw [hcons]
    cases hfind : findPattern keyText l with
    | some n =>
      have hle : n + keyText.length ≤ l.length := length_le_of_findPattern hfind (by decide)
      have htaken : (l :: lines).findSome? behindKeyText = some (l.drop (n + keyText.length)) := by
        rw [List.findSome?_cons, behindKeyText, hfind]
        rfl
      rw [htaken]
      refine ⟨fun hmem ↦ hl (List.mem_of_mem_drop hmem), n, 10 :: s, findPattern_append hfind _, ?_⟩
      exact List.drop_append_of_le_length hle
    | none =>
      have htaken : (l :: lines).findSome? behindKeyText = lines.findSome? behindKeyText := by
        rw [List.findSome?_cons, behindKeyText, hfind]
        rfl
      rw [htaken, findPattern_nextLine hfind]
      cases hrest : lines.findSome? behindKeyText with
      | none =>
        rw [hrest] at hnext
        rw [hnext]
        rfl
      | some t =>
        rw [hrest] at hnext
        obtain ⟨ht, n, u, hn, hdrop⟩ := hnext
        refine ⟨ht, n + (l.length + 2), u, ?_, ?_⟩
        · rw [hn, Option.map_some]
        · have hlen : n + (l.length + 2) + keyText.length
              = l.length + (n + keyText.length + 2) := by omega
          rw [hlen, ← List.drop_drop, List.drop_left]
          exact hdrop

private theorem RequestHead.no_break_lines (h : RequestHead) : ∀ l ∈ h.lines, (13 : UInt8) ∉ l := by
  intro l hl
  rcases List.mem_cons.mp hl with rfl | hl
  · exact h.no_break
  · obtain ⟨f, -, rfl⟩ := List.mem_map.mp hl
    exact f.no_break

/-- Up to a line break, reading stops at it. -/
theorem take_key {t : Bytes} (ht : (13 : UInt8) ∉ t) (u : Bytes) :
    ∃ n, findPattern [13] ((t ++ 13 :: u).dropWhile isBlank) = some n ∧
      (((t ++ 13 :: u).dropWhile isBlank).take n).rdropWhile isBlank = trimSpaces t := by
  have hdrop : (t ++ 13 :: u).dropWhile isBlank = t.dropWhile isBlank ++ 13 :: u := by
    rw [List.dropWhile_append]
    split
    · next hnil =>
      rw [List.isEmpty_iff.mp hnil, List.nil_append]
      exact List.dropWhile_cons_of_neg (by decide)
    · rfl
  refine ⟨(t.dropWhile isBlank).length, ?_, ?_⟩
  · rw [hdrop]
    refine findPattern_behind (fun hmem ↦ ht ((List.dropWhile_sublist _).subset hmem)) ?_
    exact List.cons_prefix_cons.mpr ⟨rfl, List.nil_prefix⟩
  · rw [hdrop, List.take_left]
    rfl

/-- `parse_http_headers` takes what follows the text where it first stands. -/
theorem parseHttpHeaders_text (sha1 : Bytes → Bytes) (h : RequestHead) :
    parseHttpHeaders sha1 h.text =
      h.taken.map fun t ↦ (trimSpaces t, acceptKey sha1 (trimSpaces t)) := by
  have hsearch := findPattern_flatMap_crlf h.no_break_lines
  rw [RequestHead.taken, parseHttpHeaders, RequestHead.text]
  cases htaken : h.lines.findSome? behindKeyText with
  | none =>
    rw [htaken] at hsearch
    rw [← keyText, hsearch]
    rfl
  | some t =>
    rw [htaken] at hsearch
    obtain ⟨ht, n, u, hn, hdrop⟩ := hsearch
    obtain ⟨k, hk, hkey⟩ := take_key ht u
    have hlen : n + 18 = n + keyText.length := rfl
    rw [← keyText, hn]
    simp only [hlen, hdrop, hk, hkey, Option.map_some, acceptKey]

private theorem taken_eq_bind (h : RequestHead) : h.taken = h.firstMention.bind behindKeyText := by
  rw [RequestHead.taken, RequestHead.firstMention]
  induction h.lines with
  | nil => rfl
  | cons l lines ih =>
    rw [List.findSome?_cons, List.find?_cons]
    cases hfind : findPattern keyText l with
    | none =>
      rw [behindKeyText, hfind]
      exact ih
    | some n =>
      rw [Option.isSome_some]
      simp only [behindKeyText, hfind, Option.map_some, Option.bind_some]

/-- Behind the name comes the value. -/
theorem behindKeyText_line {f : HeaderField} (hname : f.name = ascii "Sec-WebSocket-Key") :
    behindKeyText f.line = some f.value := by
  have htext : keyText = ascii "Sec-WebSocket-Key" ++ [58] := by decide +kernel
  have hline : f.line = keyText ++ f.value := by
    rw [HeaderField.line, hname, htext, List.append_assoc, List.singleton_append]
  rw [behindKeyText, hline, findPattern_eq_zero (List.prefix_append _ _), Option.map_some,
    Nat.zero_add, List.drop_left]

private theorem isKey_of_name {f : HeaderField} (hname : f.name = ascii "Sec-WebSocket-Key") :
    f.IsKey := by
  rw [HeaderField.IsKey, hname]

/-- **When the decision is right.** -/
theorem decidesUpgrade_iff (sha1 : Bytes → Bytes) (h : RequestHead) :
    DecidesUpgrade sha1 h ↔ h.Clear := by
  rw [DecidesUpgrade, RequestHead.Clear, parseHttpHeaders_text, taken_eq_bind]
  cases hmention : h.firstMention with
  | none => exact Iff.rfl
  | some l =>
    have hfound : (findPattern keyText l).isSome = true :=
      List.find?_some (p := fun l ↦ (findPattern keyText l).isSome) hmention
    obtain ⟨n, hn⟩ := Option.isSome_iff_exists.mp hfound
    have hbehind : behindKeyText l = some (l.drop (n + keyText.length)) := by
      rw [behindKeyText, hn]
      rfl
    rw [Option.bind_some, hbehind, Option.map_some]
    dsimp only
    constructor
    · rintro ⟨⟨f, hf, hkey, hvalue⟩, -⟩
      exact .inr ⟨f, hf, hkey, _, hbehind, hvalue⟩
    · rintro (⟨f, hf, hname, rfl⟩ | ⟨f, hf, hkey, t, ht, hvalue⟩)
      · rw [behindKeyText_line hname, Option.some.injEq] at hbehind
        exact ⟨⟨f, hf, isKey_of_name hname, by rw [← hbehind]⟩, rfl⟩
      · rw [hbehind, Option.some.injEq] at ht
        exact ⟨⟨f, hf, hkey, ht ▸ hvalue⟩, rfl⟩

/-- A request whose key is spelled in lower case, as the name of a header may be. -/
def lowerCaseUpgrade : RequestHead where
  requestLine := ascii "GET /chat HTTP/1.1"
  fields := [⟨ascii "sec-websocket-key", ascii " x", by decide, by decide⟩]
  no_break := by decide

/-- A request whose target holds the text. -/
def mentioningTarget : RequestHead where
  requestLine := ascii "GET /?Sec-WebSocket-Key:x HTTP/1.1"
  fields := []
  no_break := by decide

/-- The first is not taken for an upgrade, and the second is. -/
theorem not_decidesUpgrade :
    (¬DecidesUpgrade id lowerCaseUpgrade) ∧ ¬DecidesUpgrade id mentioningTarget := by
  constructor
  · have hparse : parseHttpHeaders id lowerCaseUpgrade.text = none := by decide +kernel
    intro h
    rw [DecidesUpgrade, hparse] at h
    have hkey : ∀ f ∈ lowerCaseUpgrade.fields, f.IsKey := by
      intro f hf
      obtain rfl := List.mem_singleton.mp hf
      rw [HeaderField.IsKey]
      decide +kernel
    exact h _ (List.mem_singleton_self _) (hkey _ (List.mem_singleton_self _))
  · have hparse : (parseHttpHeaders id mentioningTarget.text).isSome = true := by decide +kernel
    obtain ⟨⟨key, responseKey⟩, hsome⟩ := Option.isSome_iff_exists.mp hparse
    intro h
    rw [DecidesUpgrade, hsome] at h
    obtain ⟨⟨f, hf, -⟩, -⟩ := h
    exact absurd hf List.not_mem_nil

end Wasapi.Websockets
