import Wasapi.Json.Numbers
import Wasapi.Library.Pieces
import Wasapi.Library.Trimming
import Wasapi.Request

/-!
# The cookie header

`parse_cookie_header`, and the headers it reads exactly: segments between semicolons, each a name
and a value around the first `=`, a name alone, or blanks. A value in double quotes loses the outer
pair.
-/

namespace Wasapi.Http

open Json

/-- A control character or a space. -/
def isAsciiWs (b : UInt8) : Bool := b ≤ 32

/-- `trim_ascii_ws` -/
def trimAsciiWs (s : Bytes) : Bytes := trim isAsciiWs s

/-- `std::to_string` of a `double`: six digits behind the point. -/
def fixedText (num : ℚ) : Bytes :=
  let n := (roundHalfEven (|num| * 10 ^ 6)).toNat
  (if num < 0 then [45] else []) ++ ascii (toString (n / 10 ^ 6)) ++
    46 :: decimalDigits 6 (n % 10 ^ 6)

/-- `DynamicVariable::to_string` -/
def variableText : DynamicVariable → Bytes
  | .string s => s
  | .number num => fixedText num
  | .bool b => if b then ascii "true" else ascii "false"
  | _ => []

/-- A value without the double quotes around it. -/
def unquote (value : Bytes) : Bytes :=
  if 2 ≤ value.length ∧ value.head? = some 34 ∧ value.getLast? = some 34 then value.tail.dropLast
  else value

/-- One turn of the loop: what is done with a segment. -/
def readSegment (cookies : DynamicVariable) (segment : Bytes) : DynamicVariable :=
  let segment := trimAsciiWs segment
  if segment = [] then cookies
  else
    let pair : Bytes × Bytes := match findPattern [61] segment with
      -- flag cookie gets empty value
      | none => (segment, [])
      | some eq =>
        (trimAsciiWs (segment.take eq), unquote (trimAsciiWs (segment.drop (eq + 1))))
    if pair.1 = [] then cookies else cookies.assign pair.1 (.string pair.2)

/-- The cookies after `parse_cookie_header`. -/
def parseCookieHeader (cookies : DynamicVariable) (cookieVar : Option DynamicVariable) :
    DynamicVariable :=
  let cookieString := cookieVar.elim [] variableText
  foldPieces 59 readSegment cookieString.length cookieString cookies.asObject

/-! ## Headers that are read exactly

A grammar of the headers of which every part is found again: names without separators, values plain
or in quotes, and blanks wherever the function trims. -/

/-- A name of a cookie. -/
structure CookieName where
  text : Bytes
  ne_nil : text ≠ []
  no_semicolon : (59 : UInt8) ∉ text
  no_equals : (61 : UInt8) ∉ text
  trimmed : Trimmed isAsciiWs text

/-- A value as it is written. -/
inductive CookieValue where
  | plain (text : Bytes) (no_semicolon : (59 : UInt8) ∉ text) (trimmed : Trimmed isAsciiWs text)
    (unquoted : ¬(text.head? = some 34 ∧ text.getLast? = some 34))
  | quoted (inner : Bytes) (no_semicolon : (59 : UInt8) ∉ inner)

def CookieValue.text : CookieValue → Bytes
  | .plain text _ _ _ => text
  | .quoted inner _ => 34 :: (inner ++ [34])

/-- The value without the quotes around it. -/
def CookieValue.content : CookieValue → Bytes
  | .plain text _ _ _ => text
  | .quoted inner _ => inner

/-- Spaces and tabs. -/
structure Blanks where
  text : Bytes
  blank : ∀ b ∈ text, b = 32 ∨ b = 9

/-- What stands between two semicolons. -/
inductive CookieSegment where
  | pair (before : Blanks) (name : CookieName) (beforeEq afterEq : Blanks) (value : CookieValue)
    (after : Blanks)
  | flag (before : Blanks) (name : CookieName) (after : Blanks)
  | empty (blanks : Blanks)

namespace CookieSegment

def text : CookieSegment → Bytes
  | .pair before name beforeEq afterEq value after =>
    before.text ++
      (name.text ++ beforeEq.text ++ 61 :: (afterEq.text ++ (value.text ++ after.text)))
  | .flag before name after => before.text ++ (name.text ++ after.text)
  | .empty blanks => blanks.text

/-- The cookie a segment sets, and to what. -/
def cookie : CookieSegment → Option (Bytes × Bytes)
  | .pair _ name _ _ value _ => some (name.text, value.content)
  | .flag _ name _ => some (name.text, [])
  | .empty _ => none

end CookieSegment

def cookieHeader (segments : List CookieSegment) : Bytes :=
  [59].intercalate (segments.map CookieSegment.text)

/-! ## Reading a segment

The first `=` is the one behind the name, since names have none. What is trimmed from both sides
stops at the first and the last character that is no blank. -/

private theorem Blanks.isAsciiWs (blanks : Blanks) :
    ∀ b ∈ blanks.text, Http.isAsciiWs b = true := by
  intro b hb
  rcases blanks.blank b hb with rfl | rfl
  · rfl
  · rfl

theorem Blanks.not_mem (blanks : Blanks) {b : UInt8} (hb : b ≠ 32 ∧ b ≠ 9) : b ∉ blanks.text :=
  fun hmem ↦ (blanks.blank b hmem).elim hb.1 hb.2

private theorem CookieValue.trimmed (value : CookieValue) : Trimmed isAsciiWs value.text := by
  cases value with
  | plain text _ htrimmed _ => exact htrimmed
  | quoted inner _ =>
    constructor
    · rintro a ⟨rfl⟩
      rfl
    · intro a ha
      rw [text, ← List.cons_append, List.getLast?_concat] at ha
      obtain ⟨rfl⟩ := ha
      rfl

private theorem CookieValue.unquote_text (value : CookieValue) :
    unquote value.text = value.content := by
  cases value with
  | plain text _ _ hunquoted => exact if_neg fun h ↦ hunquoted h.2
  | quoted inner _ =>
    have hlast : (34 :: (inner ++ [34])).getLast? = some 34 := by
      rw [← List.cons_append, List.getLast?_concat]
    have hlength : 2 ≤ (34 :: (inner ++ [34])).length := by simp
    rw [text, unquote, if_pos ⟨hlength, rfl, hlast⟩, List.tail_cons, List.dropLast_concat]
    rfl

theorem CookieValue.no_semicolon (value : CookieValue) : (59 : UInt8) ∉ value.text := by
  cases value with
  | plain text hsemicolon _ _ => exact hsemicolon
  | quoted inner hsemicolon =>
    rw [text, List.mem_cons, List.mem_append, List.mem_singleton, not_or, not_or]
    exact ⟨by decide, hsemicolon, by decide⟩

theorem CookieSegment.no_semicolon (segment : CookieSegment) : (59 : UInt8) ∉ segment.text := by
  have hblank (blanks : Blanks) : (59 : UInt8) ∉ blanks.text := blanks.not_mem (by decide)
  cases segment with
  | pair before name beforeEq afterEq value after =>
    simp only [text, List.mem_append, List.mem_cons, not_or]
    exact ⟨hblank _, ⟨name.no_semicolon, hblank _⟩, by decide, hblank _, value.no_semicolon,
      hblank _⟩
  | flag before name after =>
    simp only [text, List.mem_append, not_or]
    exact ⟨hblank _, name.no_semicolon, hblank _⟩
  | empty blanks => exact hblank blanks

/-- The first character of a name stops the trimming of what stands in front of it. -/
theorem CookieName.dropWhile_append (name : CookieName) (before : Blanks) (t : Bytes) :
    (before.text ++ (name.text ++ t)).dropWhile isAsciiWs = name.text ++ t := by
  rw [List.dropWhile_append_of_pos before.isAsciiWs]
  have hne := name.ne_nil
  have hfirst := name.trimmed.1
  cases htext : name.text with
  | nil => exact absurd htext hne
  | cons a s =>
    rw [htext] at hfirst
    rw [List.cons_append]
    exact List.dropWhile_cons_of_neg (by rw [hfirst a rfl]; exact Bool.false_ne_true)

private theorem readSegment_text (cookies : DynamicVariable) (segment : CookieSegment) :
    readSegment cookies segment.text =
      segment.cookie.elim cookies fun c ↦ cookies.assign c.1 (.string c.2) := by
  cases segment with
  | empty blanks =>
    have htrim : trimAsciiWs blanks.text = [] := trim_eq_nil blanks.isAsciiWs
    rw [CookieSegment.text, readSegment, htrim]
    rfl
  | flag before name after =>
    have htrim : trimAsciiWs (before.text ++ (name.text ++ after.text)) = name.text :=
      trim_append before.isAsciiWs after.isAsciiWs name.trimmed
    rw [CookieSegment.text, readSegment, htrim, findPattern_eq_none name.no_equals]
    dsimp only
    rw [if_neg name.ne_nil, if_neg name.ne_nil]
    rfl
  | pair before name beforeEq afterEq value after =>
    -- what is left behind the `=` when the whole segment has been trimmed
    let t := (afterEq.text ++ (value.text ++ after.text)).rdropWhile isAsciiWs
    have htrim : trimAsciiWs (CookieSegment.pair before name beforeEq afterEq value after).text
        = name.text ++ beforeEq.text ++ 61 :: t := by
      rw [CookieSegment.text, trimAsciiWs, trim, List.append_assoc name.text, name.dropWhile_append,
        ← List.append_assoc, rdropWhile_append_cons rfl]
    have heq : findPattern [61] (name.text ++ beforeEq.text ++ 61 :: t)
        = some (name.text ++ beforeEq.text).length := by
      refine findPattern_behind ?_ (List.cons_prefix_cons.mpr ⟨rfl, List.nil_prefix⟩)
      rw [List.mem_append, not_or]
      exact ⟨name.no_equals, beforeEq.not_mem (by decide)⟩
    have hname : trimAsciiWs (name.text ++ beforeEq.text) = name.text :=
      trim_append (l := []) (by simp) beforeEq.isAsciiWs name.trimmed
    have hvalue : trimAsciiWs t = value.text :=
      (trim_rdropWhile _).trans (trim_append afterEq.isAsciiWs after.isAsciiWs value.trimmed)
    have hdrop : (name.text ++ beforeEq.text ++ 61 :: t).drop
        ((name.text ++ beforeEq.text).length + 1) = t := by
      rw [← List.drop_drop, List.drop_left, List.drop_one, List.tail_cons]
    have hne : name.text ++ beforeEq.text ++ 61 :: t ≠ [] := by simp
    rw [readSegment, htrim, heq]
    dsimp only
    rw [if_neg hne, List.take_left, hdrop, hname, hvalue, value.unquote_text, if_neg name.ne_nil]
    rfl

/-! ## Reading a header

The loop cuts the header at semicolons, of which neither names nor values have any. So it works on
the segments as they were written, and a later one overwrites an earlier one of the same name. -/

/-- The last segment that sets a cookie counts. -/
theorem find_foldl_readSegment (cookies : DynamicVariable) (segments : List CookieSegment)
    (key : Bytes) :
    ((segments.map CookieSegment.text).foldl readSegment cookies).find key =
      (((segments.filterMap CookieSegment.cookie).reverse.lookup key).map .string).or
        (cookies.find key) := by
  induction segments using List.reverseRecOn with
  | nil => rfl
  | append_singleton segments segment ih =>
    rw [List.map_append, List.foldl_append, List.map_singleton, List.foldl_cons, List.foldl_nil,
      readSegment_text, List.filterMap_append, List.reverse_append]
    cases hcookie : segment.cookie with
    | none =>
      rw [List.filterMap_cons_none hcookie, List.filterMap_nil]
      exact ih
    | some c =>
      obtain ⟨name, content⟩ := c
      rw [List.filterMap_cons_some hcookie, List.filterMap_nil, List.reverse_singleton,
        List.singleton_append, List.lookup_cons]
      by_cases hkey : key = name
      · subst hkey
        rw [beq_self_eq_true]
        exact DynamicVariable.find_assign_self _ _ _
      · rw [beq_false_of_ne hkey]
        exact (DynamicVariable.find_assign_of_ne _ _ hkey).trans ih

/-- **Cookies are read as they were written.** A cookie the header sets has its last content, any
other is left as it was. -/
theorem find_parseCookieHeader (cookies : DynamicVariable) (segments : List CookieSegment)
    (key : Bytes) :
    (parseCookieHeader cookies (some (.string (cookieHeader segments)))).find key =
      match (segments.filterMap CookieSegment.cookie).reverse.lookup key with
      | some content => some (.string content)
      | none => cookies.find key := by
  have hpieces : ∀ piece ∈ segments.map CookieSegment.text, (59 : UInt8) ∉ piece := by
    intro piece hpiece
    obtain ⟨segment, -, rfl⟩ := List.mem_map.mp hpiece
    exact segment.no_semicolon
  have hempty : ∀ cookies, readSegment cookies [] = cookies := fun _ ↦ rfl
  rw [parseCookieHeader, Option.elim_some, variableText, cookieHeader]
  rw [foldPieces_intercalate hempty hpieces, find_foldl_readSegment,
    DynamicVariable.find_asObject]
  cases (segments.filterMap CookieSegment.cookie).reverse.lookup key with
  | none => rfl
  | some content => rfl

end Wasapi.Http
