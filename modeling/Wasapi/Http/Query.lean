import Wasapi.DynamicVariable
import Wasapi.Library.Search

/-!
# Query strings

`url_decode`, `url_encode`, `build_query` and `parse_query_string`. A query is built from a map in
the order the map is iterated in, so `build_query` takes the list of entries in that order. The map
that `parse_query_string` writes is an association list.

An encoded byte is neither a separator nor a plus sign. That is why the scanner cuts the joined
pairs where they were joined.
-/

namespace Wasapi.Query

abbrev Params := AList fun _ : Bytes ↦ Bytes

/-- A key and its value. -/
abbrev Param := Sigma fun _ : Bytes ↦ Bytes

/-! ## Percent encoding

Letters, digits and four marks stand for themselves, and every other byte is written with two
hexadecimal digits. Decoding takes plus for a space, which encoding never writes. -/

def hexval (c : UInt8) : Option ℕ :=
  if 48 ≤ c && c ≤ 57 then some (c.toNat - 48)
  else if 97 ≤ c && c ≤ 102 then some (10 + (c.toNat - 97))
  else if 65 ≤ c && c ≤ 70 then some (10 + (c.toNat - 65))
  else none

/-- `%` and two hexadecimal digits become a byte. Any other `%` stays. -/
def urlDecode : Bytes → Bytes
  | [] => []
  | c :: s =>
    if c = 43 then 32 :: urlDecode s
    else if c = 37 then
      match s with
      | a :: b :: rest =>
        match hexval a, hexval b with
        | some h1, some h2 => UInt8.ofNat (16 * h1 + h2) :: urlDecode rest
        | _, _ => c :: urlDecode (a :: b :: rest)
      | s => c :: urlDecode s
    else c :: urlDecode s

def unreserved (c : UInt8) : Bool :=
  (65 ≤ c && c ≤ 90) || (97 ≤ c && c ≤ 122) || (48 ≤ c && c ≤ 57) || c = 45 || c = 95 || c = 46 ||
    c = 126

def hexDigit (v : ℕ) : UInt8 := if v < 10 then UInt8.ofNat (48 + v) else UInt8.ofNat (65 + (v - 10))

def encodeByte (c : UInt8) : Bytes :=
  if unreserved c then [c] else [37, hexDigit (c.toNat / 16), hexDigit (c.toNat % 16)]

def urlEncode (s : Bytes) : Bytes := s.flatMap encodeByte

/-- `url_encode(key) + "=" + url_encode(value)` -/
def encodeParam (kv : Param) : Bytes := urlEncode kv.1 ++ 61 :: urlEncode kv.2

/-- The loop over the entries: `first` is set until one has been written. -/
def buildQueryLoop : Bool → Bytes → List Param → Bytes
  | _, out, [] => out
  | first, out, kv :: params =>
    buildQueryLoop false ((if first then out else out ++ [38]) ++ encodeParam kv) params

def buildQuery (params : List Param) : Bytes := buildQueryLoop true [] params

/-! ## The scanner

The loop cuts at `&`, and each piece at its first `=`. A pair without a key is dropped, and a key
that comes again is overwritten. -/

/-- `out[key] = val`, if the key is not empty. -/
def setParam (key val : Bytes) (out : Params) : Params :=
  if key = [] then out else out.insert key val

/-- The loop: `rest` is what follows `start`. -/
def parseQueryLoop : ℕ → Bytes → Params → Params
  | 0, _, out => out
  | fuel + 1, rest, out =>
    let amp := (findPattern [38] rest).getD rest.length
    let out := match findPattern [61] rest with
      | none => if 0 < amp then setParam (urlDecode (rest.take amp)) [] out else out
      | some eq =>
        if amp < eq then
          if 0 < amp then setParam (urlDecode (rest.take amp)) [] out else out
        else setParam (urlDecode (rest.take eq)) (urlDecode ((rest.take amp).drop (eq + 1))) out
    if amp = rest.length then out else parseQueryLoop fuel (rest.drop (amp + 1)) out

def parseQueryString (input : Bytes) (out : Params) : Params :=
  parseQueryLoop (input.length + 1) input out

/-! ## Decoding what was encoded

Byte by byte: a byte that stands for itself is no percent sign and no plus, and two digits are read
as the byte they were written for. -/

private theorem hexval_hexDigit : ∀ v < 16, hexval (hexDigit v) = some v := by decide

private theorem urlDecode_encodeByte (c : UInt8) (s : Bytes) :
    urlDecode (encodeByte c ++ s) = c :: urlDecode s := by
  rw [encodeByte]
  split
  · next h =>
    have hplus : c ≠ 43 := by
      rintro rfl
      cases h
    have hpercent : c ≠ 37 := by
      rintro rfl
      cases h
    rw [List.singleton_append, urlDecode.eq_def]
    simp only [if_neg hplus, if_neg hpercent]
  · have hlt := c.toNat_lt
    have hhigh := hexval_hexDigit (c.toNat / 16) (by omega)
    have hlow := hexval_hexDigit (c.toNat % 16) (by omega)
    rw [List.cons_append, List.cons_append, List.singleton_append, urlDecode, if_neg (by decide),
      if_pos rfl]
    simp only [hhigh, hlow, Nat.div_add_mod, UInt8.ofNat_toNat]

private theorem urlDecode_urlEncode (s : Bytes) : urlDecode (urlEncode s) = s := by
  induction s with
  | nil => rfl
  | cons c s ih => rw [urlEncode, List.flatMap_cons, urlDecode_encodeByte, ← urlEncode, ih]

/-! ## Encoded bytes are no separators

What is written for a byte is a letter, a digit, one of the four marks, or a percent sign. So the
separators of a query are those that were written as such. -/

/-- What an encoded byte may be. -/
def isEncoded (b : UInt8) : Bool := unreserved b || b = 37

private theorem isEncoded_hexDigit : ∀ v < 16, isEncoded (hexDigit v) = true := by decide

private theorem isEncoded_of_mem {b : UInt8} {s : Bytes} (h : b ∈ urlEncode s) :
    isEncoded b = true := by
  obtain ⟨c, -, hb⟩ := List.mem_flatMap.mp h
  have hlt := c.toNat_lt
  rw [encodeByte] at hb
  split at hb
  · next hc =>
    rw [List.mem_singleton.mp hb, isEncoded, hc, Bool.true_or]
  · simp only [List.mem_cons, List.not_mem_nil, or_false] at hb
    rcases hb with rfl | rfl | rfl
    · rfl
    · exact isEncoded_hexDigit _ (by omega)
    · exact isEncoded_hexDigit _ (by omega)

private theorem not_mem_urlEncode {b : UInt8} (hb : isEncoded b = false) (s : Bytes) :
    b ∉ urlEncode s :=
  fun h ↦ Bool.false_ne_true (hb.symm.trans (isEncoded_of_mem h))

private theorem amp_not_mem_encodeParam (kv : Param) : (38 : UInt8) ∉ encodeParam kv := by
  rw [encodeParam, List.mem_append, List.mem_cons, not_or, not_or]
  exact ⟨not_mem_urlEncode rfl _, by decide, not_mem_urlEncode rfl _⟩

/-! ## The round trip

The pairs are found again one by one, and the map they make has the last value of each key. A map
has each key once, so the order in which it was written makes no difference. -/

/-- The first `=` of an encoded pair is the one written between its key and its value. -/
theorem findPattern_encodeParam (kv : Param) (t : Bytes) :
    findPattern [61] (encodeParam kv ++ t) = some (urlEncode kv.1).length := by
  rw [encodeParam, List.append_assoc]
  exact findPattern_behind (not_mem_urlEncode rfl _)
    (List.cons_prefix_cons.mpr ⟨rfl, List.nil_prefix⟩)

/-- One turn of the loop, on a pair up to the next `&` or the end. -/
theorem parseQueryLoop_param (fuel : ℕ) (kv : Param) {t : Bytes} (out : Params)
    (hamp : (findPattern [38] (encodeParam kv ++ t)).getD (encodeParam kv ++ t).length
      = (encodeParam kv).length) :
    parseQueryLoop (fuel + 1) (encodeParam kv ++ t) out =
      if t = [] then setParam kv.1 kv.2 out
      else parseQueryLoop fuel (t.drop 1) (setParam kv.1 kv.2 out) := by
  have hlen : (encodeParam kv).length = (urlEncode kv.1).length + 1 + (urlEncode kv.2).length := by
    rw [encodeParam, List.length_append, List.length_cons]
    omega
  have hkey : (encodeParam kv ++ t).take (urlEncode kv.1).length = urlEncode kv.1 := by
    rw [encodeParam, List.append_assoc, List.take_left]
  have hval : ((encodeParam kv ++ t).take (encodeParam kv).length).drop
      ((urlEncode kv.1).length + 1) = urlEncode kv.2 := by
    rw [List.take_left, encodeParam, ← List.drop_drop, List.drop_left, List.drop_one,
      List.tail_cons]
  have hdrop : (encodeParam kv ++ t).drop ((encodeParam kv).length + 1) = t.drop 1 := by
    rw [← List.drop_drop, List.drop_left]
  have hend : (encodeParam kv).length = (encodeParam kv ++ t).length ↔ t = [] := by
    rw [List.length_append, ← List.length_eq_zero_iff]
    omega
  have heq : ¬(encodeParam kv).length < (urlEncode kv.1).length := by omega
  rw [parseQueryLoop, hamp, findPattern_encodeParam]
  simp only [if_neg heq, hkey, hval, hdrop, hend, urlDecode_urlEncode]

/-- The scanner reads every pair of the joined text. -/
theorem parseQueryLoop_join {pairs : List Param} (h : ∀ kv ∈ pairs, kv.1 ≠ []) {fuel : ℕ}
    (hfuel : ([38].intercalate (pairs.map encodeParam)).length < fuel) (out : Params) :
    parseQueryLoop fuel ([38].intercalate (pairs.map encodeParam)) out
      = pairs.foldl (fun out kv ↦ out.insert kv.1 kv.2) out := by
  induction pairs generalizing fuel out with
  | nil =>
    obtain ⟨fuel, rfl⟩ := Nat.exists_eq_add_one.mpr (Nat.zero_lt_of_lt hfuel)
    rfl
  | cons kv pairs ih =>
    obtain ⟨fuel, rfl⟩ := Nat.exists_eq_add_one.mpr (Nat.zero_lt_of_lt hfuel)
    have hkey : kv.1 ≠ [] := h kv List.mem_cons_self
    have hset : setParam kv.1 kv.2 out = out.insert kv.1 kv.2 := if_neg hkey
    cases pairs with
    | nil =>
      have hamp : findPattern [38] (encodeParam kv ++ []) = none := by
        rw [List.append_nil]
        exact findPattern_eq_none (amp_not_mem_encodeParam kv)
      have hturn := parseQueryLoop_param fuel kv out (t := [])
        (by rw [hamp, Option.getD_none, List.append_nil])
      rw [List.append_nil, if_pos rfl, hset] at hturn
      rw [List.map_singleton, List.intercalate_singleton]
      exact hturn
    | cons kv' pairs =>
      have hjoin : [38].intercalate ((kv :: kv' :: pairs).map encodeParam)
          = encodeParam kv ++ 38 :: [38].intercalate ((kv' :: pairs).map encodeParam) := by
        rw [List.map_cons, List.map_cons, List.intercalate_cons_cons, List.append_assoc,
          List.singleton_append]
      have hamp : findPattern [38]
          (encodeParam kv ++ 38 :: [38].intercalate ((kv' :: pairs).map encodeParam))
            = some (encodeParam kv).length :=
        findPattern_behind (amp_not_mem_encodeParam kv)
          (List.cons_prefix_cons.mpr ⟨rfl, List.nil_prefix⟩)
      rw [hjoin, List.length_append, List.length_cons] at hfuel
      rw [hjoin, parseQueryLoop_param fuel kv out (by rw [hamp, Option.getD_some]),
        if_neg (List.cons_ne_nil _ _), List.drop_one, List.tail_cons, hset]
      exact ih (fun kv hmem ↦ h kv (List.mem_cons_of_mem _ hmem)) (by omega) _

private theorem buildQueryLoop_false (out : Bytes) (params : List Param) :
    buildQueryLoop false out params = out ++ params.flatMap fun kv ↦ 38 :: encodeParam kv := by
  induction params generalizing out with
  | nil => rw [buildQueryLoop, List.flatMap_nil, List.append_nil]
  | cons kv params ih =>
    rw [buildQueryLoop, if_neg Bool.false_ne_true, ih, List.flatMap_cons, List.append_assoc,
      List.append_assoc, List.singleton_append, List.cons_append]

private theorem intercalate_eq_flatMap (kv : Param) (params : List Param) :
    [38].intercalate ((kv :: params).map encodeParam)
      = encodeParam kv ++ params.flatMap fun kv ↦ 38 :: encodeParam kv := by
  induction params generalizing kv with
  | nil => rw [List.map_singleton, List.intercalate_singleton, List.flatMap_nil, List.append_nil]
  | cons kv' params ih =>
    rw [List.map_cons, List.map_cons, List.intercalate_cons_cons, ← List.map_cons, ih,
      List.flatMap_cons, List.append_assoc, List.singleton_append, List.cons_append]

/-- `build_query` joins the encoded entries. -/
theorem buildQuery_eq (params : List Param) :
    buildQuery params = [38].intercalate (params.map encodeParam) := by
  cases params with
  | nil => rfl
  | cons kv params =>
    rw [intercalate_eq_flatMap, buildQuery, buildQueryLoop, if_pos rfl, List.nil_append,
      buildQueryLoop_false]

/-- The last pair of a key counts. -/
theorem lookup_foldl_insert (key : Bytes) (pairs : List Param) (out : Params) :
    (pairs.foldl (fun out kv ↦ out.insert kv.1 kv.2) out).lookup key
      = (pairs.reverse.dlookup key).or (out.lookup key) := by
  induction pairs using List.reverseRecOn with
  | nil => rfl
  | append_singleton pairs kv ih =>
    rw [List.foldl_append, List.foldl_cons, List.foldl_nil, List.reverse_append,
      List.reverse_singleton, List.singleton_append]
    by_cases hkey : key = kv.1
    · subst hkey
      rw [AList.lookup_insert, List.dlookup_cons_eq, Option.some_or]
    · rw [AList.lookup_insert_ne hkey, List.dlookup_cons_ne _ _ hkey, ih]

/-- **Query strings round trip.** Joined pairs are read back from left to right, and the query built
from a map, in whatever order its entries come, is read back as that map. -/
theorem parseQueryString_join :
    (∀ (pairs : List Param) (out : Params), (∀ kv ∈ pairs, kv.1 ≠ []) →
      parseQueryString ([38].intercalate (pairs.map encodeParam)) out
        = pairs.foldl (fun out kv ↦ out.insert kv.1 kv.2) out) ∧
    ∀ (m : Params) (order : List Param), order.Perm m.entries → (∀ kv ∈ m.entries, kv.1 ≠ []) →
      ∀ key, (parseQueryString (buildQuery order) ∅).lookup key = m.lookup key := by
  refine ⟨fun pairs out h ↦ parseQueryLoop_join h (Nat.lt_succ_self _) out,
    fun m order hperm hm key ↦ ?_⟩
  have hkeys : ∀ kv ∈ order, kv.1 ≠ [] := fun kv hkv ↦ hm kv (hperm.mem_iff.mp hkv)
  have hreverse : order.reverse.Perm m.entries := order.reverse_perm.trans hperm
  have hnodup : order.reverse.NodupKeys := (List.perm_nodupKeys hreverse).mpr m.nodupKeys
  rw [buildQuery_eq, parseQueryString, parseQueryLoop_join hkeys (Nat.lt_succ_self _),
    lookup_foldl_insert, AList.lookup_empty, Option.or_none, AList.lookup]
  exact List.perm_dlookup key hnodup hreverse

/-- A key that is repeated, bytes that are separators, and a map built from its last entry on. -/
theorem parseQueryString_join_repeated :
    parseQueryString (ascii "a=1&b%26=%3D%20&a=%C3%A9") ∅
      = ((AList.insert (ascii "a") (ascii "1") (∅ : Params)).insert
        (ascii "b&") (ascii "= ")).insert (ascii "a") [0xC3, 0xA9] ∧
    (parseQueryString (buildQuery [⟨ascii "b", []⟩, ⟨ascii "a", [38]⟩]) ∅).lookup (ascii "a")
      = some [38] := by
  have hjoin : ascii "a=1&b%26=%3D%20&a=%C3%A9" = [38].intercalate ([⟨ascii "a", ascii "1"⟩,
      ⟨ascii "b&", ascii "= "⟩, ⟨ascii "a", [0xC3, 0xA9]⟩].map encodeParam) := by decide +kernel
  constructor
  · rw [hjoin]
    exact parseQueryString_join.1 _ ∅ (by decide)
  · exact parseQueryString_join.2 (AList.insert (ascii "a") [38]
      (AList.insert (ascii "b") [] ∅)) _ (List.Perm.swap _ _ []) (by decide) (ascii "a")

end Wasapi.Query
