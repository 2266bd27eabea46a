import Wasapi.Json.Completeness
import Wasapi.Json.Printer

/-!
# What is printed is a document

`to_json` writes documents of the grammar, as long as it writes numbers of the grammar. So reading
back what was printed is reading a document: building the syntax tree of the text is all that is
left to do.
-/

namespace Wasapi.Json

/-! ## Strings and white space

The printer escapes quotes, backslashes and control characters, which are just those that may not
stand for themselves. White space is written between values only, and only when the text is to be
pretty. -/

private theorem hexValue_hexDigit : ∀ d < 16, hexValue (hexDigit d) = some d := by decide

private theorem isHex_hexDigit : ∀ d < 16, (48 ≤ hexDigit d ∧ hexDigit d ≤ 57) ∨
    (97 ≤ hexDigit d ∧ hexDigit d ≤ 102) ∨ (65 ≤ hexDigit d ∧ hexDigit d ≤ 70) := by
  decide

def hexDigitOf (d : ℕ) (h : d < 16) : HexDigit := ⟨hexDigit d, isHex_hexDigit d h⟩

/-- What the printer writes for a byte is a character. -/
theorem exists_char_escapeByte (ch : UInt8) :
    ∃ c : JsonChar, c.text = escapeByte ch ∧ c.bytes = [ch] := by
  have hsimple : ∀ {esc : UInt8} (_ : esc ∈ ascii "\"\\/bfnrt"), simpleEscape esc = some ch →
      ∃ c : JsonChar, c.text = [92, esc] ∧ c.bytes = [ch] := by
    intro esc h hesc
    refine ⟨.escape esc h, rfl, ?_⟩
    rw [JsonChar.bytes, hesc]
    rfl
  rw [escapeByte]
  split
  · next h => exact hsimple (by decide) (by rw [h]; decide)
  next hquote =>
  split
  · next h => exact hsimple (by decide) (by rw [h]; decide)
  next hbackslash =>
  split
  · next h => exact hsimple (by decide) (by rw [h]; decide)
  split
  · next h => exact hsimple (by decide) (by rw [h]; decide)
  split
  · next h => exact hsimple (by decide) (by rw [h]; decide)
  split
  · next h => exact hsimple (by decide) (by rw [h]; decide)
  split
  · next h => exact hsimple (by decide) (by rw [h]; decide)
  split
  · next hlt =>
    have hn : ch.toNat < 32 := UInt8.lt_iff_toNat_lt.mp hlt
    refine ⟨.unicode (hexDigitOf (ch.toNat / 4096 % 16) (Nat.mod_lt _ (by decide)))
      (hexDigitOf (ch.toNat / 256 % 16) (Nat.mod_lt _ (by decide)))
      (hexDigitOf (ch.toNat / 16 % 16) (Nat.mod_lt _ (by decide)))
      (hexDigitOf (ch.toNat % 16) (Nat.mod_lt _ (by decide))), rfl, ?_⟩
    have hdigit : ∀ d < 16, (hexValue (hexDigit d)).getD 0 = d := by
      intro d hd
      rw [hexValue_hexDigit d hd, Option.getD_some]
    have hunit : codeUnit ch.toNat = [ch] := by
      rw [codeUnit, if_pos (by omega), UInt8.ofNat_toNat]
    simp only [JsonChar.bytes, hexDigitOf]
    rw [hdigit _ (Nat.mod_lt _ (by decide)), hdigit _ (Nat.mod_lt _ (by decide)),
      hdigit _ (Nat.mod_lt _ (by decide)), hdigit _ (Nat.mod_lt _ (by decide)), ← hunit]
    congr 1
    omega
  · next hge =>
    have hle : 0x20 ≤ ch := by
      rw [UInt8.le_iff_toNat_le]
      rw [UInt8.lt_iff_toNat_lt] at hge
      exact not_lt.mp hge
    exact ⟨.unescaped ch ⟨hle, hquote, hbackslash⟩, rfl, rfl⟩

/-- What the printer writes for a string is a string. -/
theorem exists_string_jsonEscape (s : Bytes) :
    ∃ k : JsonString, k.text = jsonEscape s ∧ k.bytes = s := by
  have hchars : ∃ chars : List JsonChar, chars.flatMap JsonChar.text = s.flatMap escapeByte ∧
      chars.flatMap JsonChar.bytes = s := by
    induction s with
    | nil => exact ⟨[], rfl, rfl⟩
    | cons ch s ih =>
      obtain ⟨chars, htext, hbytes⟩ := ih
      obtain ⟨c, hc, hch⟩ := exists_char_escapeByte ch
      refine ⟨c :: chars, ?_, ?_⟩
      · rw [List.flatMap_cons, List.flatMap_cons, hc, htext]
      · rw [List.flatMap_cons, hch, hbytes, List.singleton_append]
  obtain ⟨chars, htext, hbytes⟩ := hchars
  exact ⟨⟨chars⟩, by rw [JsonString.text, htext, jsonEscape], hbytes⟩

/-- Text the printer puts between values. -/
def IsWhitespace (text : Bytes) : Prop := ∃ ws : Whitespace, ws.text = text

private theorem isWhitespace_nil : IsWhitespace [] := ⟨noSpace, rfl⟩

theorem IsWhitespace.append {text text' : Bytes} (h : IsWhitespace text)
    (h' : IsWhitespace text') : IsWhitespace (text ++ text') := by
  obtain ⟨ws, rfl⟩ := h
  obtain ⟨ws', rfl⟩ := h'
  exact ⟨⟨ws.text ++ ws'.text, fun b hb ↦ (List.mem_append.mp hb).elim (ws.isWs b) (ws'.isWs b)⟩,
    rfl⟩

private theorem isWhitespace_newline (pretty : Bool) : IsWhitespace (newline pretty) := by
  cases pretty
  · exact isWhitespace_nil
  · exact ⟨⟨[10], fun b hb ↦ by rw [List.mem_singleton.mp hb]; decide⟩, rfl⟩

private theorem isWhitespace_space (pretty : Bool) :
    IsWhitespace (if pretty then [32] else []) := by
  cases pretty
  · exact isWhitespace_nil
  · exact ⟨⟨[32], fun b hb ↦ Or.inl (List.mem_singleton.mp hb)⟩, rfl⟩

private theorem isWhitespace_indentFn {pretty : Bool} {indent d : ℕ} {ind : Bytes}
    (h : indentFn pretty indent d = some ind) : IsWhitespace ind := by
  rw [indentFn] at h
  split at h
  · obtain ⟨n, -, rfl⟩ := Option.map_eq_some_iff.mp h
    exact ⟨⟨List.replicate n 32, fun b hb ↦ Or.inl (List.eq_of_mem_replicate hb)⟩, rfl⟩
  · obtain rfl := Option.some.inj h
    exact isWhitespace_nil

/-! ## The lines of a text

The text is written piece by piece, and a piece may fail since an indentation may not fit an `int`.
The pieces of a text that exists are collected here. -/

section

variable {pretty : Bool} {indent depth : ℕ} {t : Bytes}

private theorem text_of_array {a : List DynamicVariable}
    (h : toJsonInner pretty indent depth (.array a) = some t) (ha : a ≠ []) :
    ∃ depth' items ind, itemsText pretty indent depth' a = some items ∧
      indentFn pretty indent depth = some ind ∧
      t = 91 :: (newline pretty ++ items ++ ind ++ [93]) := by
  rw [toJsonInner, if_neg (by rwa [List.isEmpty_iff])] at h
  obtain ⟨depth', -, h⟩ := Option.bind_eq_some_iff.mp h
  obtain ⟨items, hitems, h⟩ := Option.bind_eq_some_iff.mp h
  obtain ⟨ind, hind, h⟩ := Option.bind_eq_some_iff.mp h
  exact ⟨depth', items, ind, hitems, hind, (Option.some.inj h).symm⟩

private theorem text_of_object {o : List (Bytes × DynamicVariable)}
    (h : toJsonInner pretty indent depth (.object o) = some t) (ho : o ≠ []) :
    ∃ depth' fields ind, fieldsText pretty indent depth' o = some fields ∧
      indentFn pretty indent depth = some ind ∧
      t = 123 :: (newline pretty ++ fields ++ ind ++ [125]) := by
  rw [toJsonInner, if_neg (by rwa [List.isEmpty_iff])] at h
  obtain ⟨depth', -, h⟩ := Option.bind_eq_some_iff.mp h
  obtain ⟨fields, hfields, h⟩ := Option.bind_eq_some_iff.mp h
  obtain ⟨ind, hind, h⟩ := Option.bind_eq_some_iff.mp h
  exact ⟨depth', fields, ind, hfields, hind, (Option.some.inj h).symm⟩

private theorem text_of_item {v : DynamicVariable} {a : List DynamicVariable}
    (h : itemsText pretty indent depth (v :: a) = some t) :
    ∃ ind text more, indentFn pretty indent depth = some ind ∧
      toJsonInner pretty indent depth v = some text ∧ itemsText pretty indent depth a = some more ∧
      t = ind ++ text ++ (if a.isEmpty then [] else [44]) ++ newline pretty ++ more := by
  rw [itemsText] at h
  obtain ⟨ind, hind, h⟩ := Option.bind_eq_some_iff.mp h
  obtain ⟨text, htext, h⟩ := Option.bind_eq_some_iff.mp h
  obtain ⟨more, hmore, h⟩ := Option.bind_eq_some_iff.mp h
  exact ⟨ind, text, more, hind, htext, hmore, (Option.some.inj h).symm⟩

private theorem text_of_field {key : Bytes} {v : DynamicVariable}
    {o : List (Bytes × DynamicVariable)}
    (h : fieldsText pretty indent depth ((key, v) :: o) = some t) :
    ∃ ind text more, indentFn pretty indent depth = some ind ∧
      toJsonInner pretty indent depth v = some text ∧
      fieldsText pretty indent depth o = some more ∧
      t = ind ++ jsonEscape key ++ 58 :: (if pretty then [32] else []) ++ text
        ++ (if o.isEmpty then [] else [44]) ++ newline pretty ++ more := by
  rw [fieldsText] at h
  obtain ⟨ind, hind, h⟩ := Option.bind_eq_some_iff.mp h
  obtain ⟨text, htext, h⟩ := Option.bind_eq_some_iff.mp h
  obtain ⟨more, hmore, h⟩ := Option.bind_eq_some_iff.mp h
  exact ⟨ind, text, more, hind, htext, hmore, (Option.some.inj h).symm⟩

end

/-! ## The numbers of a value

What is asked of a value is asked of the numbers in it, at any depth. Keys that come twice are
excluded since the source's map has none. -/

mutual

/-- `P` holds of all numbers, and no object has a key twice. -/
def Holds (P : ℚ → Prop) : DynamicVariable → Prop
  | .null => True
  | .bool _ => True
  | .number num => P num
  | .string _ => True
  | .array a => HoldsItems P a
  | .object o => (o.map Prod.fst).Nodup ∧ HoldsFields P o

def HoldsItems (P : ℚ → Prop) : List DynamicVariable → Prop
  | [] => True
  | v :: a => Holds P v ∧ HoldsItems P a

def HoldsFields (P : ℚ → Prop) : List (Bytes × DynamicVariable) → Prop
  | [] => True
  | (_, v) :: o => Holds P v ∧ HoldsFields P o

end

/-! ## Syntax trees

For every value that has been printed there is a tree with this text. Its meaning is the value
itself if its numbers are read back, so that the round trip is an instance of completeness. -/

private theorem emplace_of_notMem {key : Bytes} {o : List (Bytes × DynamicVariable)}
    (h : key ∉ o.map Prod.fst) (v : DynamicVariable) : emplace key v o = o ++ [(key, v)] := by
  have hnone : o.lookup key = none := by
    rw [List.lookup_eq_none_iff]
    intro p hp
    rw [bne_iff_ne]
    rintro rfl
    exact h (List.mem_map_of_mem hp)
  rw [emplace, hnone]
  rfl

section

variable {pretty : Bool} {indent : ℕ} {P R : ℚ → Prop}

/-- Numbers with `P` are printed as numbers of the grammar, and those with `R` among them are read
back. -/
def Written (P R : ℚ → Prop) : Prop :=
  ∀ num, P num → ∃ k : JsonNumber, k.text = formatNumber num ∧ (k.Readable ↔ R num)
    ∧ (R num → toDouble k.value = some num)

mutual

/-- **What is printed is a value of the grammar.** -/
theorem exists_value_text (hnum : Written P R) : ∀ (v : DynamicVariable) {depth : ℕ} {t : Bytes},
    Holds P v → toJsonInner pretty indent depth v = some t →
    ∃ tree : JsonValue, tree.text = t ∧ ((∀ k ∈ tree.numbers, k.Readable) ↔ Holds R v)
      ∧ (Holds R v → tree.dynamic = v)
  | .null, _, _, _, h =>
    ⟨.null, Option.some.inj h, iff_of_true (fun _ hk ↦ (nomatch hk)) trivial, fun _ ↦ rfl⟩
  | .bool b, _, _, _, h =>
    ⟨.bool b, Option.some.inj h, iff_of_true (fun _ hk ↦ (nomatch hk)) trivial, fun _ ↦ rfl⟩
  | .number num, _, _, hv, h => by
    obtain ⟨k, htext, hread, hvalue⟩ := hnum num hv
    refine ⟨.number k, htext.trans (Option.some.inj h), ?_, fun hR ↦ ?_⟩
    · rw [JsonValue.numbers, List.forall_mem_singleton, hread, Holds]
    · rw [JsonValue.dynamic, hvalue hR, Option.getD_some]
  | .string s, _, _, _, h => by
    obtain ⟨k, htext, hbytes⟩ := exists_string_jsonEscape s
    refine ⟨.string k, htext.trans (Option.some.inj h), ?_, fun _ ↦ ?_⟩
    · exact iff_of_true (fun _ hk ↦ (nomatch hk)) trivial
    · rw [JsonValue.dynamic, hbytes]
  | .array [], _, _, _, h => by
    refine ⟨.emptyArray noSpace, ?_, iff_of_true (fun _ hk ↦ (nomatch hk)) trivial, fun _ ↦ rfl⟩
    rw [toJsonInner] at h
    exact Option.some.inj h
  | .array (v :: a), _, _, hv, h => by
    obtain ⟨depth', items, ind, hitems, hind, rfl⟩ := text_of_array h (List.cons_ne_nil v a)
    obtain ⟨tree, htext, hread, hvalue⟩ := exists_items_text hnum (v :: a) (List.cons_ne_nil v a)
      hv hitems (isWhitespace_newline pretty) (isWhitespace_indentFn hind)
    refine ⟨.array tree, ?_, hread, fun hR ↦ ?_⟩
    · rw [JsonValue.text, htext]
    · rw [JsonValue.dynamic, hvalue hR]
  | .object [], _, _, _, h => by
    refine ⟨.emptyObject noSpace, ?_, ?_, fun _ ↦ rfl⟩
    · rw [toJsonInner] at h
      exact Option.some.inj h
    · exact iff_of_true (fun _ hk ↦ (nomatch hk)) ⟨List.nodup_nil, trivial⟩
  | .object (f :: o), _, _, hv, h => by
    obtain ⟨depth', fields, ind, hfields, hind, rfl⟩ := text_of_object h (List.cons_ne_nil f o)
    obtain ⟨tree, htext, hread, hvalue⟩ := exists_members_text hnum (f :: o)
      (List.cons_ne_nil f o) hv.2 hfields (isWhitespace_newline pretty)
      (isWhitespace_indentFn hind)
    refine ⟨.object tree, ?_, ?_, fun hR ↦ ?_⟩
    · rw [JsonValue.text, htext]
    · rw [JsonValue.numbers, hread, Holds, and_iff_right hv.1]
    · rw [JsonValue.dynamic, hvalue hR.2 [] hv.1, List.nil_append]

/-- The items, with the space in front of the first one and behind the last one. -/
theorem exists_items_text (hnum : Written P R) : ∀ (a : List DynamicVariable), a ≠ [] →
    ∀ {depth : ℕ} {t : Bytes}, HoldsItems P a → itemsText pretty indent depth a = some t →
    ∀ {ws ws' : Bytes}, IsWhitespace ws → IsWhitespace ws' →
    ∃ tree : JsonItems, tree.text = ws ++ t ++ ws'
      ∧ ((∀ k ∈ tree.numbers, k.Readable) ↔ HoldsItems R a)
      ∧ (HoldsItems R a → tree.dynamic = a)
  | [], hne, _, _, _, _, _, _, _, _ => absurd rfl hne
  | v :: a, _, _, _, hv, h, ws, ws', hws, hws' => by
    obtain ⟨ind, text, more, hind, htext, hmore, rfl⟩ := text_of_item h
    obtain ⟨tree, rfl, hread, hvalue⟩ := exists_value_text hnum v hv.1 htext
    obtain ⟨before, hbefore⟩ := hws.append (isWhitespace_indentFn hind)
    cases a with
    | nil =>
      obtain ⟨after, hafter⟩ := (isWhitespace_newline pretty).append hws'
      rw [itemsText, Option.some.injEq] at hmore
      refine ⟨.last before tree after, ?_, ?_, fun hR ↦ ?_⟩
      · rw [JsonItems.text, hbefore, hafter, ← hmore]
        simp
      · rw [JsonItems.numbers, hread, HoldsItems, HoldsItems, and_true]
      · rw [JsonItems.dynamic, hvalue hR.1]
    | cons v' a =>
      obtain ⟨rest, hrest, hread', hvalue'⟩ := exists_items_text hnum (v' :: a)
        (List.cons_ne_nil v' a) hv.2 hmore (isWhitespace_newline pretty) hws'
      refine ⟨.cons before tree noSpace rest, ?_, ?_, fun hR ↦ ?_⟩
      · rw [JsonItems.text, hbefore, hrest]
        simp [noSpace]
      · rw [JsonItems.numbers, List.forall_mem_append, hread, hread']
        exact Iff.rfl
      · rw [JsonItems.dynamic, hvalue hR.1, hvalue' hR.2]

/-- The fields, with the space in front of the first one and behind the last one. -/
theorem exists_members_text (hnum : Written P R) : ∀ (o : List (Bytes × DynamicVariable)), o ≠ [] →
    ∀ {depth : ℕ} {t : Bytes}, HoldsFields P o → fieldsText pretty indent depth o = some t →
    ∀ {ws ws' : Bytes}, IsWhitespace ws → IsWhitespace ws' →
    ∃ tree : JsonMembers, tree.text = ws ++ t ++ ws'
      ∧ ((∀ k ∈ tree.numbers, k.Readable) ↔ HoldsFields R o)
      ∧ (HoldsFields R o → ∀ acc, ((acc ++ o).map Prod.fst).Nodup → tree.dynamic acc = acc ++ o)
  | [], hne, _, _, _, _, _, _, _, _ => absurd rfl hne
  | (key, v) :: o, _, _, _, hv, h, ws, ws', hws, hws' => by
    obtain ⟨ind, text, more, hind, htext, hmore, rfl⟩ := text_of_field h
    obtain ⟨tree, rfl, hread, hvalue⟩ := exists_value_text hnum v hv.1 htext
    obtain ⟨before, hbefore⟩ := hws.append (isWhitespace_indentFn hind)
    obtain ⟨space, hspace⟩ := isWhitespace_space pretty
    obtain ⟨name, hname, hkey⟩ := exists_string_jsonEscape key
    -- a key that is not there yet is put behind the others
    have hfresh : ∀ {acc : List (Bytes × DynamicVariable)},
        ((acc ++ (key, v) :: o).map Prod.fst).Nodup → key ∉ acc.map Prod.fst := by
      intro acc hnodup hmem
      rw [List.map_append, List.map_cons] at hnodup
      exact List.disjoint_of_nodup_append hnodup hmem List.mem_cons_self
    cases o with
    | nil =>
      obtain ⟨after, hafter⟩ := (isWhitespace_newline pretty).append hws'
      rw [fieldsText, Option.some.injEq] at hmore
      refine ⟨.last before name noSpace space tree after, ?_, ?_, fun hR acc hnodup ↦ ?_⟩
      · rw [JsonMembers.text, hbefore, hafter, hspace, hname, ← hmore]
        simp [noSpace]
      · rw [JsonMembers.numbers, hread, HoldsFields, HoldsFields, and_true]
      · rw [JsonMembers.dynamic, hvalue hR.1, hkey, emplace_of_notMem (hfresh hnodup)]
    | cons f o =>
      obtain ⟨rest, hrest, hread', hvalue'⟩ := exists_members_text hnum (f :: o)
        (List.cons_ne_nil f o) hv.2 hmore (isWhitespace_newline pretty) hws'
      refine ⟨.cons before name noSpace space tree noSpace rest, ?_, ?_, fun hR acc hnodup ↦ ?_⟩
      · rw [JsonMembers.text, hbefore, hspace, hname, hrest]
        simp [noSpace]
      · rw [JsonMembers.numbers, List.forall_mem_append, hread, hread']
        exact Iff.rfl
      · have hrest' : ((acc ++ [(key, v)] ++ f :: o).map Prod.fst).Nodup := by
          rwa [List.append_assoc, List.singleton_append]
        rw [JsonMembers.dynamic, hvalue hR.1, hkey, emplace_of_notMem (hfresh hnodup),
          hvalue' hR.2 _ hrest', List.append_assoc, List.singleton_append]

end

private theorem exists_document_toJson (hnum : Written P R) {v : DynamicVariable} (hv : Holds P v)
    {t : Bytes} (h : toJson v pretty indent = some t) :
    ∃ d : Document, d.text = t ∧ ((∀ k ∈ d.value.numbers, k.Readable) ↔ Holds R v)
      ∧ (Holds R v → d.value.dynamic = v) := by
  obtain ⟨tree, htext, hread, hvalue⟩ := exists_value_text hnum v hv h
  refine ⟨⟨noSpace, tree, noSpace⟩, ?_, hread, hvalue⟩
  rw [Document.text, htext, noSpace, List.nil_append, List.append_nil]

/-- **A printed text is parsed to the value** if all its numbers are read back. -/
theorem parseJson_toJson_of_holds (hnum : Written P R) {v : DynamicVariable} (hv : Holds P v)
    (hR : Holds R v) {t : Bytes} (h : toJson v pretty indent = some t) : parseJson t = .ok v := by
  obtain ⟨d, rfl, hread, hvalue⟩ := exists_document_toJson hnum hv h
  rw [parseJson_of_readable (hread.mpr hR), hvalue hR]

/-- A printed text is not parsed at all if a number is not read back. -/
theorem holds_of_parseJson_toJson (hnum : Written P R) {v out : DynamicVariable} (hv : Holds P v)
    {t : Bytes} (h : toJson v pretty indent = some t) (hout : parseJson t = .ok out) :
    Holds R v := by
  obtain ⟨d, rfl, hread, -⟩ := exists_document_toJson hnum hv h
  exact hread.mp (readable_of_parseJson hout)

end

end Wasapi.Json
