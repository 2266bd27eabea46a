import Wasapi.Json.Printer
import Wasapi.Websockets.Http

/-!
# HTTP responses

`output_headers`, which writes the response headers of a request, and what a client makes of the
bytes of a response: a status line, header lines up to an empty line, and as much of what follows as
the content length says.
-/

namespace Wasapi.Http

open Websockets

/-! ## Writing the headers

Every header is a line of its own, and an empty line ends them. A value that is no string is written
as JSON, which the numbers in it may prevent. -/

/-- The value of a response header: a string as it is, anything else as JSON. -/
def headerText : DynamicVariable → Option Bytes
  | .string s => some s
  | v => Json.toJson v false 0

/-- `output_headers`, on the fields of `r.headers` in the order the map is iterated in. -/
def outputHeaders : List (Bytes × DynamicVariable) → Option Bytes
  | [] => some crlf
  | (name, v) :: o => do
    let text ← headerText v
    let more ← outputHeaders o
    return name ++ ascii ": " ++ text ++ crlf ++ more

/-! ## Reading a response

The reader is that of a client and knows nothing of the server: lines up to an empty one, fields
with names and values, and as much of what follows as the content length says. -/

/-- A response as its reader sees it. -/
structure HttpMessage where
  statusLine : Bytes
  headers : List (Bytes × Bytes)
  body : Bytes

/-- The lines up to the first empty one, and what follows it; `fuel` bounds their number. -/
def readLines : ℕ → Bytes → Option (List Bytes × Bytes)
  | 0, _ => none
  | fuel + 1, s =>
    match findPattern crlf s with
    | none => none
    | some 0 => some ([], s.drop 2)
    | some n => (readLines fuel (s.drop (n + 2))).map fun p ↦ (s.take n :: p.1, p.2)

/-- What the name of a header is made of. -/
def isTokenChar (b : UInt8) : Bool :=
  isDigit b || (97 ≤ toLower b && toLower b ≤ 122) || (ascii "!#$%&'*+-.^_`|~").contains b

/-- One header line: a name, a colon, and a value in blanks. -/
def readField (line : Bytes) : Option (Bytes × Bytes) :=
  match findPattern [58] line with
  | none => none
  | some colon =>
    if (line.take colon).all isTokenChar then
      some (line.take colon, trimSpaces (line.drop (colon + 1)))
    else none

def readFields : List Bytes → Option (List (Bytes × Bytes))
  | [] => some []
  | line :: lines => do
    let f ← readField line
    let fs ← readFields lines
    return f :: fs

/-- The content length, in any spelling of its name. -/
def declaredLength (headers : List (Bytes × Bytes)) : Option ℕ :=
  (headers.find? fun f ↦ f.1.map toLower = ascii "content-length").map fun f ↦
    Json.digitsValue f.2

def readResponse (s : Bytes) : Option HttpMessage :=
  match readLines s.length s with
  | some (statusLine :: lines, rest) =>
    if (ascii "HTTP/").isPrefixOf statusLine then do
      let headers ← readFields lines
      let len ← declaredLength headers
      if rest.length < len then none else some ⟨statusLine, headers, rest.take len⟩
    else none
  | _ => none

/-- The response has the headers in `o`, the blanks around their values apart, and the body `b`. -/
def Carries (s : Bytes) (o : List (Bytes × DynamicVariable)) (b : Bytes) : Prop :=
  ∃ m, readResponse s = some m ∧ m.body = b ∧
    ∀ f ∈ o, ∃ h ∈ m.headers, h.1.map toLower = f.1.map toLower ∧
      (headerText f.2).map trimSpaces = some h.2

/-! ## Lines -/

private theorem not_mem_of_isTokenChar {name : Bytes} (h : name.all isTokenChar = true) {b : UInt8}
    (hb : isTokenChar b = false) : b ∉ name := by
  intro hmem
  rw [List.all_eq_true.mp h b hmem] at hb
  cases hb

/-- Lines that are not empty and have no CR are read back. -/
theorem readLines_flatMap {lines : List Bytes} (h : ∀ l ∈ lines, l ≠ [] ∧ 13 ∉ l) {fuel : ℕ}
    (hfuel : lines.length < fuel) (rest : Bytes) :
    readLines fuel (lines.flatMap (fun l ↦ l ++ crlf) ++ (crlf ++ rest)) = some (lines, rest) := by
  induction lines generalizing fuel with
  | nil =>
    obtain ⟨fuel, rfl⟩ := Nat.exists_eq_add_of_lt hfuel
    rw [List.flatMap_nil, List.nil_append, readLines, findPattern_eq_zero (List.prefix_append _ _)]
    rfl
  | cons l lines ih =>
    obtain ⟨fuel, rfl⟩ := Nat.exists_eq_add_of_le' (Nat.one_le_of_lt hfuel)
    obtain ⟨⟨hne, hcr⟩, hlines⟩ := List.forall_mem_cons.mp h
    rw [List.length_cons, Nat.add_lt_add_iff_right] at hfuel
    have hassoc (t : Bytes) : ((l :: lines).flatMap fun l ↦ l ++ crlf) ++ t
        = l ++ (crlf ++ ((lines.flatMap fun l ↦ l ++ crlf) ++ t)) := by
      rw [List.flatMap_cons, List.append_assoc, List.append_assoc]
    have hfind (t : Bytes) : findPattern crlf (l ++ (crlf ++ t)) = some l.length :=
      findPattern_behind hcr (List.prefix_append crlf t)
    have hlen : l.length ≠ 0 := fun h0 ↦ hne (List.eq_nil_of_length_eq_zero h0)
    have hdrop (t : Bytes) : (l ++ (crlf ++ t)).drop (l.length + 2) = t := by
      rw [← List.drop_drop, List.drop_left]
      rfl
    -- the match looks for an empty line first
    rw [hassoc, readLines, hfind]
    obtain ⟨n, hn⟩ := Nat.exists_eq_succ_of_ne_zero hlen
    simp only [hn]
    rw [← hn, hdrop, ih hlines hfuel, List.take_left]
    rfl

theorem readField_eq {name : Bytes} (hname : name.all isTokenChar = true) (value : Bytes) :
    readField (name ++ 58 :: value) = some (name, trimSpaces value) := by
  have hcolon : 58 ∉ name := not_mem_of_isTokenChar hname (by decide)
  have hfind : findPattern [58] (name ++ 58 :: value) = some name.length :=
    findPattern_behind hcolon (List.prefix_append [58] value)
  rw [readField, hfind]
  simp only
  rw [List.take_left, if_pos hname, ← List.drop_drop, List.drop_left]
  rfl

/-- Header names are tokens. -/
theorem isTokenChar_of_readFields {lines : List Bytes} {fs : List (Bytes × Bytes)}
    (h : readFields lines = some fs) : ∀ f ∈ fs, f.1.all isTokenChar = true := by
  induction lines generalizing fs with
  | nil =>
    obtain rfl := Option.some.inj h
    exact fun f hf ↦ (nomatch hf)
  | cons line lines ih =>
    rw [readFields] at h
    obtain ⟨f, hf, h⟩ := Option.bind_eq_some_iff.mp h
    obtain ⟨gs, hgs, h⟩ := Option.bind_eq_some_iff.mp h
    obtain rfl := Option.some.inj h
    refine List.forall_mem_cons.mpr ⟨?_, ih hgs⟩
    rw [readField] at hf
    split at hf
    · cases hf
    · split at hf
      · next htoken =>
        obtain rfl := Option.some.inj hf
        exact htoken
      · cases hf

theorem isTokenChar_of_readResponse {s : Bytes} {m : HttpMessage} (h : readResponse s = some m) :
    ∀ f ∈ m.headers, f.1.all isTokenChar = true := by
  rw [readResponse] at h
  split at h
  · split at h
    · obtain ⟨headers, hheaders, h⟩ := Option.bind_eq_some_iff.mp h
      obtain ⟨len, -, h⟩ := Option.bind_eq_some_iff.mp h
      split at h
      · cases h
      · obtain rfl := Option.some.inj h
        exact isTokenChar_of_readFields hheaders
    · cases h
  · cases h

/-! ## Numbers -/

private theorem decimal_eq (n : ℕ) :
    decimal n = (Nat.toDigits 10 n).map fun c ↦ UInt8.ofNat c.toNat := by
  rw [decimal, ascii]
  exact congrArg _ Nat.toList_repr

private theorem toNat_of_mem_toDigits {n : ℕ} {c : Char} (hc : c ∈ Nat.toDigits 10 n) :
    48 ≤ c.toNat ∧ c.toNat ≤ 57 := by
  have hdigit := Nat.isDigit_of_mem_toDigits (by decide) (by decide) hc
  rw [Char.isDigit, Bool.and_eq_true, decide_eq_true_eq, decide_eq_true_eq] at hdigit
  exact hdigit

theorem isDigit_decimal (n : ℕ) : ∀ d ∈ decimal n, isDigit d = true := by
  intro d hd
  rw [decimal_eq] at hd
  obtain ⟨c, hc, rfl⟩ := List.mem_map.mp hd
  obtain ⟨hlo, hhi⟩ := toNat_of_mem_toDigits hc
  rw [isDigit, Bool.and_eq_true, decide_eq_true_eq, decide_eq_true_eq, UInt8.le_iff_toNat_le,
    UInt8.le_iff_toNat_le, UInt8.toNat_ofNat', Nat.mod_eq_of_lt (by omega)]
  exact ⟨hlo, hhi⟩

theorem digitsValue_decimal (n : ℕ) : Json.digitsValue (decimal n) = n := by
  -- by induction on the digits, for any number they are read behind
  have hfold : ∀ (cs : List Char) (m : ℕ), (∀ c ∈ cs, c.toNat < 256) →
      (cs.map fun c ↦ UInt8.ofNat c.toNat).foldl (fun n d ↦ n * 10 + (d.toNat - 48)) m
        = Nat.ofDigitChars 10 cs m := by
    intro cs
    induction cs with
    | nil => exact fun m _ ↦ rfl
    | cons c cs ih =>
      intro m hcs
      obtain ⟨hc, hcs⟩ := List.forall_mem_cons.mp hcs
      rw [List.map_cons, List.foldl_cons, ih _ hcs, Nat.ofDigitChars_cons, UInt8.toNat_ofNat',
        Nat.mod_eq_of_lt hc, Nat.mul_comm]
      rfl
  rw [decimal_eq, Json.digitsValue, hfold _ 0 fun c hc ↦ ?_, Nat.ofDigitChars_ten_toDigits]
  exact (toNat_of_mem_toDigits hc).2.trans_lt (by decide)

end Wasapi.Http
