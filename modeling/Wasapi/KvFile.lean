import Wasapi.Ctype
import Wasapi.Library.Pieces
import Wasapi.Library.Trimming

/-!
# Endpoint files

`load_kv_file` on the content `read_entire_file_cached` returns: lines `key=value`, lines that go on
with the key of the line before, comments and blank lines. A key whose values keep coming changes
from a missing entry to a string and from a string to an array. The same file as a list of
contributions, each a key and a value, gives each key all of its values in order.
-/

namespace Wasapi.KvFile

/-- `trim_inplace` -/
def trimInplace (s : Bytes) : Bytes := trim isSpace s

/-- What the loop over the lines changes. -/
structure Loading where
  out : DynamicVariable
  lastKey : Bytes

/-- Enter a value: the first one is a string, the second makes it an array. -/
def addValue (key value : Bytes) (out : DynamicVariable) : DynamicVariable :=
  match out.find key with
  | none => out.assign key (.string value)
  | some (.string prev) =>
    out.assign key (((DynamicVariable.array []).push (.string prev)).push (.string value))
  | some (.array a) => out.assign key ((DynamicVariable.array a).push (.string value))
  | some _ => out.assign key (.string value)

/-- One turn of the loop. -/
def readLine (s : Loading) (line : Bytes) : Loading :=
  let line := trimInplace line
  if line = [] then s
  else if line.head? = some 35 ∨ line.head? = some 59 then s
  else
    let entry : Bytes × Bytes := match findPattern [61] line with
      | none => (s.lastKey, line)
      | some eq => (line.take eq, line.drop (eq + 1))
    let key := trimInplace entry.1
    let value := trimInplace entry.2
    { out := addValue key value s.out, lastKey := key }

/-- Whether there was anything to load, and the object. -/
def loadKvFile (content : Bytes) (out : DynamicVariable) : Bool × DynamicVariable :=
  if content = [] then (false, out.asObject)
  else
    (true, (foldPieces 10 readLine content.length content
      { out := out.asObject, lastKey := ascii "undefined" }).out)

/-! ## Contributions

What a file says, apart from how it is stored: every line of the form `key=value`, and every line
without `=` behind such a line, contributes one value to one key. How many values a key gets decides
whether its entry is missing, a string or an array. -/

/-- What a line says. -/
inductive LineKind where
  | nothing
  | entry (key value : Bytes)
  /-- a value for the key of the last line that had one -/
  | continuation (value : Bytes)

def lineKind (line : Bytes) : LineKind :=
  let line := trim isSpace line
  if line = [] ∨ line.head? = some 35 ∨ line.head? = some 59 then .nothing
  else if 61 ∈ line then
    .entry (trim isSpace (line.takeWhile (· ≠ 61))) (trim isSpace (line.dropWhile (· ≠ 61)).tail)
  else .continuation line

/-- The keys and values of the lines, in order. -/
def contributions : Bytes → List Bytes → List (Bytes × Bytes)
  | _, [] => []
  | lastKey, line :: lines =>
    match lineKind line with
    | .nothing => contributions lastKey lines
    | .entry key value => (key, value) :: contributions key lines
    | .continuation value => (lastKey, value) :: contributions lastKey lines

/-- What is contributed to a key. -/
def valuesOf (key : Bytes) (entries : List (Bytes × Bytes)) : List Bytes :=
  (entries.filter fun e ↦ e.1 = key).map Prod.snd

/-- No value, one value, or an array. -/
def entryOf : List Bytes → Option DynamicVariable
  | [] => none
  | [value] => some (.string value)
  | values => some (.array (values.map .string))

private theorem entryOf_cons_cons (v w : Bytes) (values : List Bytes) :
    entryOf (v :: w :: values) = some (.array ((v :: w :: values).map .string)) := rfl

/-! ## One line

A turn of the loop does three things at once: it trims, finds out what kind of line it is, and
enters a value. These lemmas take it apart, so that the induction over the lines needs the kind and
the contribution only. -/

private theorem find_addValue_self {key : Bytes} {out : DynamicVariable} {values : List Bytes}
    (h : out.find key = entryOf values) (value : Bytes) :
    (addValue key value out).find key = entryOf (values ++ [value]) := by
  rw [addValue, h]
  match values with
  | [] => exact DynamicVariable.find_assign_self _ _ _
  | [_] => exact DynamicVariable.find_assign_self _ _ _
  | v :: w :: values =>
    refine (DynamicVariable.find_assign_self _ _ _).trans ?_
    have hmap : ((v :: w :: values) ++ [value]).map DynamicVariable.string
        = (v :: w :: values).map .string ++ [.string value] := List.map_append
    rw [List.cons_append, List.cons_append, entryOf_cons_cons, ← List.cons_append,
      ← List.cons_append, hmap]
    rfl

private theorem find_addValue_of_ne {key k : Bytes} (h : k ≠ key) (value : Bytes)
    (out : DynamicVariable) :
    (addValue key value out).find k = out.find k := by
  rw [addValue]
  split
  all_goals exact DynamicVariable.find_assign_of_ne _ _ h

/-- The two sides of the first `=`. -/
theorem split_equals {line : Bytes} (h : 61 ∈ line) :
    ∃ eq, findPattern [61] line = some eq ∧ line.take eq = line.takeWhile (· ≠ 61) ∧
      line.drop (eq + 1) = (line.dropWhile (· ≠ 61)).tail := by
  obtain ⟨left, right, rfl, hnot⟩ := List.eq_append_cons_of_mem h
  have hleft : ∀ b ∈ left, decide (b ≠ 61) = true := fun b hb ↦
    decide_eq_true fun h ↦ hnot (h ▸ hb)
  refine ⟨left.length, findPattern_behind hnot ?_, ?_, ?_⟩
  · exact List.cons_prefix_cons.mpr ⟨rfl, List.nil_prefix⟩
  · rw [List.take_left, List.takeWhile_append_of_pos hleft, List.takeWhile_cons_of_neg (by decide),
      List.append_nil]
  · rw [← List.drop_drop, List.drop_left, List.drop_one, List.dropWhile_append_of_pos hleft,
      List.dropWhile_cons_of_neg (by decide)]

/-- The loop does with a line what its kind says. -/
theorem readLine_eq {s : Loading} (hkey : Trimmed isSpace s.lastKey) (line : Bytes) :
    readLine s line =
      match lineKind line with
      | .nothing => s
      | .entry key value => { out := addValue key value s.out, lastKey := key }
      | .continuation value => { s with out := addValue s.lastKey value s.out } := by
  rw [readLine, lineKind, trimInplace]
  dsimp only
  by_cases hnil : trim isSpace line = []
  · rw [if_pos hnil, if_pos (.inl hnil)]
  by_cases hcomment : (trim isSpace line).head? = some 35 ∨ (trim isSpace line).head? = some 59
  · rw [if_neg hnil, if_pos hcomment, if_pos (.inr hcomment)]
  rw [if_neg hnil, if_neg hcomment, if_neg (not_or.mpr ⟨hnil, hcomment⟩)]
  by_cases hmem : 61 ∈ trim isSpace line
  · obtain ⟨eq, hfind, hleft, hright⟩ := split_equals hmem
    rw [if_pos hmem, hfind]
    dsimp only
    rw [hleft, hright, trimInplace, trimInplace]
  · rw [if_neg hmem, findPattern_eq_none hmem]
    dsimp only
    rw [trimInplace, trimInplace, trim_eq_self hkey, trim_trim]

/-! ## The file

The key of the line before is trimmed already, which is what the invariant says besides: a line that
goes on with it contributes to the same key as the line that named it. -/

private theorem trimmed_lastKey {s : Loading} (hkey : Trimmed isSpace s.lastKey) (line : Bytes) :
    Trimmed isSpace (readLine s line).lastKey := by
  rw [readLine]
  dsimp only
  split
  · exact hkey
  · split
    · exact hkey
    · exact trimmed_trim _ _

private theorem valuesOf_concat (key : Bytes) (entries : List (Bytes × Bytes)) (e : Bytes × Bytes) :
    valuesOf key (entries ++ [e]) =
      if e.1 = key then valuesOf key entries ++ [e.2] else valuesOf key entries := by
  rw [valuesOf, valuesOf, List.filter_append, List.map_append]
  split
  · next h => simp [h]
  · next h => simp [h]

/-- Another contribution. -/
theorem find_addValue {out : DynamicVariable} {entries : List (Bytes × Bytes)}
    (h : ∀ key, out.find key = entryOf (valuesOf key entries)) (e : Bytes × Bytes) (key : Bytes) :
    (addValue e.1 e.2 out).find key = entryOf (valuesOf key (entries ++ [e])) := by
  rw [valuesOf_concat]
  split
  · next hkey =>
    subst hkey
    exact find_addValue_self (h e.1) e.2
  · next hkey =>
    rw [find_addValue_of_ne (Ne.symm hkey)]
    exact h key

/-- **The loop.** What has been read is in the object, and what the other lines contribute is
added. -/
theorem find_foldl_readLine {lines : List Bytes} {s : Loading} {entries : List (Bytes × Bytes)}
    (hkey : Trimmed isSpace s.lastKey)
    (h : ∀ key, s.out.find key = entryOf (valuesOf key entries)) (key : Bytes) :
    (lines.foldl readLine s).out.find key =
      entryOf (valuesOf key (entries ++ contributions s.lastKey lines)) := by
  induction lines generalizing s entries with
  | nil => rw [List.foldl_nil, contributions, List.append_nil, h]
  | cons line lines ih =>
    have hnext := trimmed_lastKey hkey line
    rw [List.foldl_cons, contributions]
    cases hkind : lineKind line with
    | nothing =>
      have hline : readLine s line = s := by rw [readLine_eq hkey, hkind]
      rw [hline]
      exact ih hkey h
    | entry k value =>
      have hline : readLine s line = { out := addValue k value s.out, lastKey := k } := by
        rw [readLine_eq hkey, hkind]
      rw [hline] at hnext ⊢
      rw [ih hnext (find_addValue h (k, value)), List.append_assoc, List.singleton_append]
    | continuation value =>
      have hline : readLine s line = { s with out := addValue s.lastKey value s.out } := by
        rw [readLine_eq hkey, hkind]
      rw [hline] at hnext ⊢
      rw [ih hnext (find_addValue h (s.lastKey, value)), List.append_assoc, List.singleton_append]

/-- **Loading loses nothing.** Each key gets the values the lines contribute to it: none, one as a
string, or all of them in an array in the order of the file. -/
theorem find_loadKvFile {content : Bytes} (h : content ≠ []) (key : Bytes) :
    (loadKvFile content (.object [])).1 = true ∧
    (loadKvFile content (.object [])).2.find key =
      entryOf (valuesOf key (contributions (ascii "undefined") (content.splitOn 10))) := by
  rw [loadKvFile, if_neg h]
  refine ⟨rfl, ?_⟩
  rw [foldPieces_eq (fun _ ↦ rfl) le_rfl]
  exact @find_foldl_readLine _ { out := .object [], lastKey := ascii "undefined" } [] (by decide)
    (fun _ ↦ rfl) key

/-- A key with two values, the second on a line of its own behind a comment. -/
theorem find_loadKvFile_hosts :
    (loadKvFile (ascii "host = a\n# next\n b\nport=1\n") (.object [])).2.find (ascii "host")
      = some (.array [.string (ascii "a"), .string (ascii "b")]) :=
  (find_loadKvFile (by decide) (ascii "host")).2

end Wasapi.KvFile
