import Wasapi.Http.Forms
import Wasapi.Websockets.Server

/-!
# The case of header names

Three places read the header fields of a plain HTTP request. The `HTTP_` variables take the name in
upper case and the scan for the content length takes it in lower case, so neither depends on how it
is spelled. `CONTENT_TYPE` and `CONTENT_LENGTH` are set only from fields spelled `Content-Type` and
`Content-Length`, and without a content type no form data are parsed.
-/

namespace Wasapi.Websockets

open Http

/-! ## Texts that differ in the case of their header names

The request lines are the same, and so are the values. A name may be spelled in any way, letter by
letter, and its line stays a line of the same length. -/

/-- The header fields and what follows them. A line without a colon is no field, and the fields end
at an empty line or where there is no further line break. -/
inductive RecasedFields : Bytes → Bytes → Prop where
  | ending {s : Bytes} (h : crlf <+: s ∨ ¬crlf <:+: s) : RecasedFields s s
  | other {line s s' : Bytes} (hne : line ≠ []) (hbreak : ¬crlf <:+: line)
    (hcolon : (58 : UInt8) ∉ line) (h : RecasedFields s s') :
    RecasedFields (line ++ crlf ++ s) (line ++ crlf ++ s')
  | field {name name' value s s' : Bytes} (hcase : name.map toLower = name'.map toLower)
    (hcolon : (58 : UInt8) ∉ name) (hbreak : ¬crlf <:+: name ++ 58 :: value)
    (h : RecasedFields s s') :
    RecasedFields (name ++ 58 :: value ++ crlf ++ s) (name' ++ 58 :: value ++ crlf ++ s')

/-- A request text and the same text with its header names in another case. -/
inductive Recased : Bytes → Bytes → Prop where
  | lines {firstLine s s' : Bytes} (hbreak : ¬crlf <:+: firstLine) (h : RecasedFields s s') :
    Recased (firstLine ++ crlf ++ s) (firstLine ++ crlf ++ s')
  | single {s : Bytes} (hbreak : ¬crlf <:+: s) : Recased s s

/-- A line ends at the first line break. -/
theorem findPattern_crlf {line : Bytes} (h : ¬crlf <:+: line) (s : Bytes) :
    findPattern crlf (line ++ crlf ++ s) = some line.length := by
  rw [List.append_assoc]
  exact findPattern_of_not_infix (by decide) h s

/-- The text up to the first line break. -/
theorem exists_line {s : Bytes} (h : crlf <:+: s) :
    ∃ line t, s = line ++ crlf ++ t ∧ ¬crlf <:+: line := by
  obtain ⟨i, hi⟩ := exists_findPattern h
  obtain ⟨t, ht⟩ := prefix_drop_of_findPattern hi
  refine ⟨s.take i, t, ?_, fun hoccurs ↦ ?_⟩
  · rw [List.append_assoc, ht, List.take_append_drop]
  · -- it would have been found earlier
    obtain ⟨j, hj⟩ := exists_findPattern hoccurs
    have hle := length_le_of_findPattern hj (by decide)
    have hfound := findPattern_append hj (s.drop i)
    rw [List.take_append_drop, hi, Option.some.injEq] at hfound
    rw [List.length_take] at hle
    have hcrlf : crlf.length = 2 := rfl
    omega

/-- **Every text is covered.** -/
theorem RecasedFields.refl (s : Bytes) : RecasedFields s s := by
  induction hn : s.length using Nat.strong_induction_on generalizing s with
  | _ n ih =>
    by_cases hend : crlf <+: s ∨ ¬crlf <:+: s
    · exact .ending hend
    rw [not_or, not_not] at hend
    obtain ⟨line, t, rfl, hbreak⟩ := exists_line hend.2
    have hne : line ≠ [] := by
      rintro rfl
      exact hend.1 (List.prefix_append _ _)
    have ht : RecasedFields t t := by
      refine ih t.length ?_ t rfl
      rw [← hn, List.length_append, List.length_append]
      have hpos := List.length_pos_of_ne_nil hne
      omega
    by_cases hcolon : (58 : UInt8) ∈ line
    · obtain ⟨name, value, rfl, hname⟩ := List.eq_append_cons_of_mem hcolon
      exact .field rfl hname hbreak ht
    · exact .other hne hbreak hcolon ht

theorem Recased.refl (s : Bytes) : Recased s s := by
  by_cases h : crlf <:+: s
  · obtain ⟨line, t, rfl, hline⟩ := exists_line h
    exact .lines hline (.refl t)
  · exact .single h

/-! ## What does not depend on the case -/

/-- Separators have no other case. -/
theorem toLower_eq_iff {b : UInt8} (hb : b = 13 ∨ b = 10 ∨ b = 58) (a : UInt8) :
    toLower a = b ↔ a = b := by
  rw [toLower]
  split
  · next hupper =>
    rw [Bool.and_eq_true, decide_eq_true_iff, decide_eq_true_iff, UInt8.le_iff_toNat_le,
      UInt8.le_iff_toNat_le] at hupper
    rw [← UInt8.toNat_inj, ← UInt8.toNat_inj, UInt8.toNat_add]
    rcases hb with rfl | rfl | rfl
    all_goals
      simp only [UInt8.reduceToNat] at *
      omega
  · rfl

/-- What has the same lower case holds the same separators. -/
theorem mem_of_map_toLower {b : UInt8} (hb : b = 13 ∨ b = 10 ∨ b = 58) {s s' : Bytes}
    (h : s.map toLower = s'.map toLower) : b ∈ s ↔ b ∈ s' := by
  have hmem (s : Bytes) : b ∈ s ↔ b ∈ s.map toLower := by
    rw [List.mem_map]
    constructor
    · exact fun hs ↦ ⟨b, hs, (toLower_eq_iff hb b).mpr rfl⟩
    · rintro ⟨a, ha, heq⟩
      exact (toLower_eq_iff hb a).mp heq ▸ ha
  rw [hmem, h, ← hmem]

/-- A pattern of symbols that have no other case. -/
def Caseless (pat : Bytes) : Prop := ∀ b ∈ pat, ∀ a, toLower a = b ↔ a = b

private theorem prefix_map_toLower {pat : Bytes} (hpat : Caseless pat) (s : Bytes) :
    pat <+: s ↔ pat <+: s.map toLower := by
  induction s generalizing pat with
  | nil => rfl
  | cons a s ih =>
    cases pat with
    | nil => simp
    | cons b pat =>
      have htail : Caseless pat := fun c hc ↦ hpat c (List.mem_cons_of_mem b hc)
      rw [List.map_cons, List.cons_prefix_cons, List.cons_prefix_cons, ih htail, eq_comm,
        ← hpat b List.mem_cons_self, eq_comm]

private theorem findPattern_map_toLower {pat : Bytes} (hpat : Caseless pat) (s : Bytes) :
    findPattern pat (s.map toLower) = findPattern pat s := by
  induction s with
  | nil => rfl
  | cons a s ih =>
    by_cases h : pat <+: a :: s
    · rw [findPattern_eq_zero h, findPattern_eq_zero ((prefix_map_toLower hpat _).mp h)]
    · have hmap : ¬pat <+: toLower a :: s.map toLower := (prefix_map_toLower hpat _).not.mp h
      rw [findPattern_cons_of_not h, List.map_cons, findPattern_cons_of_not hmap, ih]

private theorem caseless_crlf : Caseless crlf := by
  intro b hb
  simp only [crlf, List.mem_cons, List.not_mem_nil, or_false] at hb
  exact toLower_eq_iff (hb.imp_right .inl)

private theorem caseless_crlfcrlf : Caseless crlfcrlf := by
  intro b hb
  simp only [crlfcrlf, List.mem_cons, List.not_mem_nil, or_false] at hb
  exact toLower_eq_iff (by tauto)

private theorem not_infix_of_map_toLower {s s' : Bytes} (h : s.map toLower = s'.map toLower)
    (hs : ¬crlf <:+: s) : ¬crlf <:+: s' := by
  intro hs'
  obtain ⟨i, hi⟩ := exists_findPattern hs'
  rw [← findPattern_map_toLower caseless_crlf, ← h, findPattern_map_toLower caseless_crlf] at hi
  exact hs ((prefix_drop_of_findPattern hi).isInfix.trans (List.drop_suffix i s).isInfix)

private theorem RecasedFields.map_toLower {s s' : Bytes} (h : RecasedFields s s') :
    s.map toLower = s'.map toLower := by
  induction h with
  | ending _ => rfl
  | other _ _ _ _ ih => simp only [List.map_append, ih]
  | field hcase _ _ _ ih =>
    simp only [List.map_append, List.map_cons, hcase, ih]

private theorem Recased.map_toLower {s s' : Bytes} (h : Recased s s') :
    s.map toLower = s'.map toLower := by
  cases h with
  | lines _ h => simp only [List.map_append, h.map_toLower]
  | single _ => rfl

/-! ## The fields -/

/-- The same field with its name in another case. -/
def SameField (f f' : Bytes × Bytes) : Prop :=
  f.1.map toLower = f'.1.map toLower ∧ f.2 = f'.2

theorem drop_line (line s : Bytes) : (line ++ crlf ++ s).drop (line.length + 2) = s := by
  refine List.drop_left' ?_
  rw [List.length_append]
  rfl

/-- A line is cut off at its end, which is not at once. -/
theorem exists_lineEnd {line : Bytes} (hne : line ≠ []) (hbreak : ¬crlf <:+: line) (s : Bytes) :
    ∃ n, findPattern crlf (line ++ crlf ++ s) = some (n + 1) ∧
      (line ++ crlf ++ s).take (n + 1) = line ∧ (line ++ crlf ++ s).drop (n + 1 + 2) = s := by
  obtain ⟨n, hn⟩ := Nat.exists_eq_add_one.mpr (List.length_pos_of_ne_nil hne)
  refine ⟨n, ?_, ?_, ?_⟩
  · rw [findPattern_crlf hbreak, hn]
  · rw [← hn, List.append_assoc, List.take_left]
  · rw [← hn, drop_line]

/-- The loop over the lines that makes variables, on one line. -/
theorem headerFields_line {line : Bytes} (hne : line ≠ []) (hbreak : ¬crlf <:+: line) (fuel : ℕ)
    (s : Bytes) :
    headerFields (fuel + 1) (line ++ crlf ++ s) =
      match findPattern [58] line with
      | none => headerFields fuel s
      | some colon =>
        (line.take colon, trimSpaces (line.drop (colon + 1))) :: headerFields fuel s := by
  obtain ⟨n, hfind, htake, hdrop⟩ := exists_lineEnd hne hbreak s
  cases hcolon : findPattern [58] line with
  | none => simp only [headerFields, hfind, htake, hdrop, hcolon]
  | some colon => simp only [headerFields, hfind, htake, hdrop, hcolon]

/-- The scan for the content length, on one line. -/
theorem contentLengthLoop_line {line : Bytes} (hne : line ≠ []) (hbreak : ¬crlf <:+: line)
    (fuel : ℕ) (s : Bytes) :
    contentLengthLoop (fuel + 1) (line ++ crlf ++ s) =
      match findPattern [58] line with
      | some colon =>
        if (line.take colon).map toLower = ascii "content-length" then
          some (strtoull (trimSpaces (line.drop (colon + 1))))
        else contentLengthLoop fuel s
      | none => contentLengthLoop fuel s := by
  obtain ⟨n, hfind, htake, hdrop⟩ := exists_lineEnd hne hbreak s
  cases hcolon : findPattern [58] line with
  | none => simp only [contentLengthLoop, hfind, htake, hdrop, hcolon]
  | some colon => simp only [contentLengthLoop, hfind, htake, hdrop, hcolon]

theorem findPattern_colon {name : Bytes} (h : (58 : UInt8) ∉ name) (value : Bytes) :
    findPattern [58] (name ++ 58 :: value) = some name.length :=
  findPattern_behind h (List.cons_prefix_cons.mpr ⟨rfl, List.nil_prefix⟩)

theorem drop_colon (name value : Bytes) : (name ++ 58 :: value).drop (name.length + 1) = value := by
  rw [← List.drop_drop, List.drop_left, List.drop_one, List.tail_cons]

theorem ne_nil_of_colon (name value : Bytes) : name ++ 58 :: value ≠ [] := by simp

/-- In another case a name is still one. -/
theorem isName_of_map_toLower {name name' value : Bytes}
    (hcase : name.map toLower = name'.map toLower) (hcolon : (58 : UInt8) ∉ name)
    (hbreak : ¬crlf <:+: name ++ 58 :: value) :
    (58 : UInt8) ∉ name' ∧ ¬crlf <:+: name' ++ 58 :: value := by
  refine ⟨(mem_of_map_toLower (.inr (.inr rfl)) hcase).not.mp hcolon, ?_⟩
  refine not_infix_of_map_toLower ?_ hbreak
  rw [List.map_append, List.map_append, hcase]

/-- **The two texts have the same fields.** -/
theorem RecasedFields.headerFields {s s' : Bytes} (h : RecasedFields s s') (fuel : ℕ) :
    List.Forall₂ SameField (headerFields fuel s) (headerFields fuel s') := by
  induction h generalizing fuel with
  | ending _ => exact List.forall₂_same.mpr fun _ _ ↦ ⟨rfl, rfl⟩
  | other hne hbreak hcolon _ ih =>
    cases fuel with
    | zero => exact .nil
    | succ fuel =>
      rw [headerFields_line hne hbreak, headerFields_line hne hbreak, findPattern_eq_none hcolon]
      exact ih fuel
  | field hcase hcolon hbreak _ ih =>
    cases fuel with
    | zero => exact .nil
    | succ fuel =>
      obtain ⟨hcolon', hbreak'⟩ := isName_of_map_toLower hcase hcolon hbreak
      rw [headerFields_line (ne_nil_of_colon _ _) hbreak,
        headerFields_line (ne_nil_of_colon _ _) hbreak', findPattern_colon hcolon,
        findPattern_colon hcolon']
      simp only [List.take_left, drop_colon]
      exact .cons ⟨hcase, rfl⟩ (ih fuel)

/-- **The content length does not depend on the case.** -/
theorem RecasedFields.contentLengthLoop {s s' : Bytes} (h : RecasedFields s s') (fuel : ℕ) :
    contentLengthLoop fuel s = contentLengthLoop fuel s' := by
  induction h generalizing fuel with
  | ending _ => rfl
  | other hne hbreak hcolon _ ih =>
    cases fuel with
    | zero => rfl
    | succ fuel =>
      rw [contentLengthLoop_line hne hbreak, contentLengthLoop_line hne hbreak,
        findPattern_eq_none hcolon]
      exact ih fuel
  | field hcase hcolon hbreak _ ih =>
    cases fuel with
    | zero => rfl
    | succ fuel =>
      obtain ⟨hcolon', hbreak'⟩ := isName_of_map_toLower hcase hcolon hbreak
      rw [contentLengthLoop_line (ne_nil_of_colon _ _) hbreak,
        contentLengthLoop_line (ne_nil_of_colon _ _) hbreak', findPattern_colon hcolon,
        findPattern_colon hcolon']
      simp only [List.take_left, drop_colon, hcase, ih]

/-! ## The body that is waited for -/

/-- How many octets `serve` waits for behind the header block of a new request, if it is there. -/
def awaitedBytes (text : Bytes) : Option ℕ :=
  (findPattern crlfcrlf text).map fun hdrEnd ↦ (contentLength (text.take (hdrEnd + 4))).getD 0

/-- The first empty line does not begin in the first line. -/
theorem length_le_emptyLine {line t : Bytes} (hbreak : ¬crlf <:+: line) {n : ℕ}
    (hn : findPattern crlfcrlf (line ++ crlf ++ t) = some n) : line.length ≤ n := by
  have hcrlf : crlf <+: (line ++ crlf ++ t).drop n :=
    List.IsPrefix.trans (by decide) (prefix_drop_of_findPattern hn)
  by_contra hlt
  exact not_prefix_of_lt_findPattern (findPattern_crlf hbreak t) (Nat.lt_of_not_le hlt) hcrlf

/-- If no empty line follows the first line, then the first empty line comes later. -/
theorem findPattern_emptyLine {line t : Bytes} (hbreak : ¬crlf <:+: line) {n : ℕ}
    (hn : findPattern crlfcrlf (line ++ crlf ++ t) = some n) (ht : ¬crlf <+: t) :
    line.length + 2 ≤ n ∧ findPattern crlfcrlf t = some (n - (line.length + 2)) := by
  have hle := length_le_emptyLine hbreak hn
  have hoccurs := prefix_drop_of_findPattern hn
  have hlater : line.length + 2 ≤ n := by
    by_contra hlt
    obtain rfl | rfl : n = line.length ∨ n = line.length + 1 := by omega
    · rw [List.append_assoc, List.drop_left] at hoccurs
      exact ht ((List.prefix_append_right_inj crlf).mp hoccurs)
    · rw [List.append_assoc, ← List.drop_drop, List.drop_left] at hoccurs
      exact absurd (List.cons_prefix_cons.mp hoccurs).1 (by decide)
  have hfound := findPattern_drop hn hlater
  rw [drop_line] at hfound
  exact ⟨hlater, hfound⟩

private theorem contentLengthLoop_take_crlf (fuel : ℕ) {s : Bytes} {m : ℕ} (hs : crlf <+: s)
    (hm : 2 ≤ m) :
    contentLengthLoop (fuel + 1) (s.take m) = contentLengthLoop (fuel + 1) s := by
  have htake : crlf <+: s.take m := List.prefix_take_iff.mpr ⟨hs, hm⟩
  rw [contentLengthLoop, contentLengthLoop, findPattern_eq_zero hs, findPattern_eq_zero htake]
  rfl

/-- The scan does not look behind the first empty line. -/
theorem contentLengthLoop_take (fuel : ℕ) {s : Bytes} {m : ℕ}
    (h : (crlf <+: s ∧ 2 ≤ m) ∨ ∃ n, findPattern crlfcrlf s = some n ∧ m = n + 4) :
    contentLengthLoop fuel (s.take m) = contentLengthLoop fuel s := by
  induction fuel generalizing s m with
  | zero => rfl
  | succ fuel ih =>
    rcases h with ⟨hs, hm⟩ | ⟨n, hn, rfl⟩
    · exact contentLengthLoop_take_crlf fuel hs hm
    have hcrlf : crlf <+: s.drop n :=
      List.IsPrefix.trans (by decide) (prefix_drop_of_findPattern hn)
    obtain ⟨line, t, rfl, hbreak⟩ :=
      exists_line (hcrlf.isInfix.trans (List.drop_suffix n s).isInfix)
    by_cases hne : line = []
    · subst hne
      exact contentLengthLoop_take_crlf fuel (List.prefix_append _ _) (by omega)
    have hle := length_le_emptyLine hbreak hn
    have hlength : (line ++ crlf).length = line.length + 2 := List.length_append
    have htake : (line ++ crlf ++ t).take (n + 4)
        = line ++ crlf ++ t.take (n + 4 - (line.length + 2)) := by
      rw [List.take_append, List.take_of_length_le (by omega), hlength]
    have hrest : contentLengthLoop fuel (t.take (n + 4 - (line.length + 2)))
        = contentLengthLoop fuel t := by
      refine ih ?_
      by_cases ht : crlf <+: t
      · exact .inl ⟨ht, by omega⟩
      · obtain ⟨hlater, hfound⟩ := findPattern_emptyLine hbreak hn ht
        exact .inr ⟨_, hfound, by omega⟩
    rw [htake, contentLengthLoop_line hne hbreak, contentLengthLoop_line hne hbreak, hrest]

private theorem awaitedBytes_eq (text : Bytes) :
    awaitedBytes text = (findPattern crlfcrlf text).map fun hdrEnd ↦
      (contentLengthLoop (hdrEnd + 4) text).getD 0 := by
  rw [awaitedBytes]
  cases hfind : findPattern crlfcrlf text with
  | none => rfl
  | some n =>
    have hlen : (text.take (n + 4)).length = n + 4 :=
      List.length_take_of_le (length_le_of_findPattern hfind (by decide))
    rw [Option.map_some, Option.map_some, contentLength, hlen,
      contentLengthLoop_take (n + 4) (.inr ⟨n, hfind, rfl⟩)]

/-- **The same body is waited for.** -/
theorem Recased.awaitedBytes {s s' : Bytes} (h : Recased s s') :
    awaitedBytes s = awaitedBytes s' := by
  have hfind : findPattern crlfcrlf s = findPattern crlfcrlf s' := by
    rw [← findPattern_map_toLower caseless_crlfcrlf, h.map_toLower,
      findPattern_map_toLower caseless_crlfcrlf]
  have hloop (fuel : ℕ) : contentLengthLoop fuel s = contentLengthLoop fuel s' := by
    cases h with
    | single _ => rfl
    | @lines firstLine _ _ hbreak h =>
      cases fuel with
      | zero => rfl
      | succ fuel =>
        by_cases hne : firstLine = []
        · -- an empty first line ends the scan
          subst hne
          rw [Websockets.contentLengthLoop, Websockets.contentLengthLoop,
            findPattern_crlf hbreak, findPattern_crlf hbreak]
          rfl
        · rw [contentLengthLoop_line hne hbreak, contentLengthLoop_line hne hbreak,
            h.contentLengthLoop]
  rw [awaitedBytes_eq, awaitedBytes_eq, hfind]
  simp only [hloop]

/-! ## The variables

Each field sets a variable whose name is in upper case, so the spelling does not matter there.
`CONTENT_TYPE` and `CONTENT_LENGTH` are taken from fields that are looked up by one spelling. -/

/-- The header fields of a request text. -/
def fieldsOf (text : Bytes) : List (Bytes × Bytes) :=
  let rest := match findPattern crlf text with
    | none => []
    | some lineEnd => text.drop (lineEnd + 2)
  headerFields rest.length rest

def firstLineOf (text : Bytes) : Bytes :=
  match findPattern crlf text with
  | none => text
  | some lineEnd => text.take lineEnd

/-- No field name is repeated, in whatever case. -/
def NoRepeats (text : Bytes) : Prop := ((fieldsOf text).map fun f ↦ f.1.map toLower).Nodup

/-- The names that are looked up as they are spelled. -/
def exactNames : List Bytes := [ascii "Content-Type", ascii "Content-Length"]

/-- These names are spelled exactly so in both texts or in neither. -/
def SpelledAlike (text text' : Bytes) : Prop :=
  ∀ name ∈ exactNames, name ∈ (fieldsOf text).map Prod.fst ↔ name ∈ (fieldsOf text').map Prod.fst

instance (text : Bytes) : Decidable (NoRepeats text) :=
  inferInstanceAs (Decidable ((fieldsOf text).map fun f ↦ f.1.map toLower).Nodup)

instance (text text' : Bytes) : Decidable (SpelledAlike text text') :=
  inferInstanceAs (Decidable (∀ name ∈ exactNames,
    name ∈ (fieldsOf text).map Prod.fst ↔ name ∈ (fieldsOf text').map Prod.fst))

/-- The variables of the header fields. -/
def headerEnv (fields : List (Bytes × Bytes)) (env : DynamicVariable) : DynamicVariable :=
  assignHeader fields (ascii "Content-Length") (ascii "CONTENT_LENGTH")
    (assignHeader fields (ascii "Content-Type") (ascii "CONTENT_TYPE")
      (fields.foldl (fun env f ↦ env.assign (headerVariable f.1) (.string f.2)) env))

/-- The request before anything is parsed from it. -/
def unparsed (wsPathPrefix text body : Bytes) (r : Request) : Request :=
  { r with
    env := headerEnv (fieldsOf text) ((requestLineEnv wsPathPrefix (firstLineOf text) r.env).assign
      (ascii "SERVER_PROTOCOL") (.string (ascii "HTTP/1.1")))
    body := body
    bodyBytes := body.length
    flags := { r.flags with initialized := true, paramsComplete := true, inputComplete := true } }

section

variable (wsPathPrefix : Bytes) (parse : Request → Request) (fd : ℤ) (text body : Bytes)
  (r : Request)

private theorem env_httpRequest :
    (httpRequest wsPathPrefix parse fd text body r).env =
      (((unparsed wsPathPrefix text body r).env.assign (ascii "WS")
        (.string (ascii "0"))).assign (ascii "CLIENT_FD") (.string (decimal fd))) := rfl

private theorem params_httpRequest :
    (httpRequest wsPathPrefix parse fd text body r).params
      = (parse (unparsed wsPathPrefix text body r)).params := rfl

private theorem cookies_httpRequest :
    (httpRequest wsPathPrefix parse fd text body r).cookies
      = (parse (unparsed wsPathPrefix text body r)).cookies := rfl

private theorem files_httpRequest :
    (httpRequest wsPathPrefix parse fd text body r).files
      = (parse (unparsed wsPathPrefix text body r)).files := rfl

end

theorem Recased.firstLineOf {s s' : Bytes} (h : Recased s s') :
    firstLineOf s = firstLineOf s' := by
  cases h with
  | single _ => rfl
  | @lines firstLine _ _ hbreak _ =>
    rw [Websockets.firstLineOf, Websockets.firstLineOf, findPattern_crlf hbreak,
      findPattern_crlf hbreak]
    simp only [List.append_assoc, List.take_left]

theorem Recased.fieldsOf {s s' : Bytes} (h : Recased s s') :
    List.Forall₂ SameField (fieldsOf s) (fieldsOf s') := by
  cases h with
  | single _ => exact List.forall₂_same.mpr fun _ _ ↦ ⟨rfl, rfl⟩
  | @lines firstLine s s' hbreak h =>
    have hlen : s.length = s'.length := by
      have hmap := congrArg List.length h.map_toLower
      rwa [List.length_map, List.length_map] at hmap
    rw [Websockets.fieldsOf, Websockets.fieldsOf, findPattern_crlf hbreak,
      findPattern_crlf hbreak]
    simp only [drop_line, hlen]
    exact h.headerFields s'.length

/-! ### Fields with the same names but for their case -/

private theorem toUpper_toLower (b : UInt8) : toUpper (toLower b) = toUpper b := by
  have hall : ∀ b : Fin 256, toUpper (toLower (UInt8.ofFin b)) = toUpper (UInt8.ofFin b) := by
    decide +kernel
  exact hall b.toFin

theorem SameField.headerVariable {f f' : Bytes × Bytes} (h : SameField f f') :
    headerVariable f.1 = headerVariable f'.1 := by
  have hupper (name : Bytes) : name.map toUpper = (name.map toLower).map toUpper := by
    rw [List.map_map]
    exact List.map_congr_left fun b _ ↦ (toUpper_toLower b).symm
  rw [Websockets.headerVariable, Websockets.headerVariable, hupper, h.1, ← hupper]

private theorem foldl_headers_eq {fields fields' : List (Bytes × Bytes)}
    (h : List.Forall₂ SameField fields fields') (env : DynamicVariable) :
    fields.foldl (fun env f ↦ env.assign (headerVariable f.1) (.string f.2)) env
      = fields'.foldl (fun env f ↦ env.assign (headerVariable f.1) (.string f.2)) env := by
  induction h generalizing env with
  | nil => rfl
  | cons hf _ ih => rw [List.foldl_cons, List.foldl_cons, hf.headerVariable, hf.2, ih]

private theorem headerValue_cons (f : Bytes × Bytes) (fields : List (Bytes × Bytes))
    (name : Bytes) : headerValue (f :: fields) name =
      (headerValue fields name).or (if name = f.1 then some f.2 else none) := by
  rw [headerValue, headerValue, List.reverse_cons, List.lookup_append, List.lookup_cons,
    List.lookup_nil]
  by_cases h : name = f.1
  · rw [if_pos h, beq_iff_eq.mpr h]
  · rw [if_neg h, beq_false_of_ne h]

private theorem headerValue_eq_none_iff {fields : List (Bytes × Bytes)} {name : Bytes} :
    headerValue fields name = none ↔ name ∉ fields.map Prod.fst := by
  rw [headerValue, List.lookup_eq_none_iff]
  constructor
  · intro hall hmem
    obtain ⟨f, hf, rfl⟩ := List.mem_map.mp hmem
    have hne := hall f (List.mem_reverse.mpr hf)
    rw [bne_self_eq_false] at hne
    cases hne
  · intro hnot f hf
    rw [bne_iff_ne]
    rintro rfl
    exact hnot (List.mem_map_of_mem (List.mem_reverse.mp hf))

private theorem map_toLower_names {fields fields' : List (Bytes × Bytes)}
    (h : List.Forall₂ SameField fields fields') :
    (fields.map fun f ↦ f.1.map toLower) = fields'.map fun f ↦ f.1.map toLower := by
  induction h with
  | nil => rfl
  | cons hf _ ih => rw [List.map_cons, List.map_cons, hf.1, ih]

/-- A name that is spelled so in both texts has the same value in them. -/
theorem headerValue_eq {fields fields' : List (Bytes × Bytes)}
    (h : List.Forall₂ SameField fields fields')
    (hnodup : (fields.map fun f ↦ f.1.map toLower).Nodup) {name : Bytes}
    (hname : name ∈ fields.map Prod.fst ↔ name ∈ fields'.map Prod.fst) :
    headerValue fields name = headerValue fields' name := by
  induction h with
  | nil => rfl
  | @cons f f' fields fields' hf h ih =>
    rw [List.map_cons, List.nodup_cons] at hnodup
    rw [List.map_cons, List.map_cons, List.mem_cons, List.mem_cons] at hname
    -- no other field has the name of the first one in any case
    have hnot : ∀ fs ∈ [fields, fields'], name.map toLower = f.1.map toLower →
        name ∉ fs.map Prod.fst := by
      intro fs hfs hlower hmem
      obtain ⟨g, hg, rfl⟩ := List.mem_map.mp hmem
      have hother : g.1.map toLower ∈ fields.map fun f ↦ f.1.map toLower := by
        rcases List.mem_pair.mp hfs with rfl | rfl
        · exact List.mem_map_of_mem hg
        · rw [map_toLower_names h]
          exact List.mem_map_of_mem hg
      exact hnodup.1 (hlower ▸ hother)
    rw [headerValue_cons, headerValue_cons]
    by_cases hfirst : name.map toLower = f.1.map toLower
    · have hnone := hnot fields (by simp) hfirst
      have hnone' := hnot fields' (by simp) hfirst
      rw [headerValue_eq_none_iff.mpr hnone, headerValue_eq_none_iff.mpr hnone', hf.2]
      rw [or_iff_left hnone, or_iff_left hnone'] at hname
      simp only [hname]
    · have hne : name ≠ f.1 := fun heq ↦ hfirst (heq ▸ rfl)
      have hne' : name ≠ f'.1 := fun heq ↦ hfirst (heq ▸ hf.1.symm)
      rw [or_iff_right hne, or_iff_right hne'] at hname
      rw [ih hnodup.2 hname, if_neg hne, if_neg hne']

/-- **The variables of the header fields.** -/
theorem headerEnv_eq {fields fields' : List (Bytes × Bytes)}
    (h : List.Forall₂ SameField fields fields')
    (hnodup : (fields.map fun f ↦ f.1.map toLower).Nodup)
    (hnames : ∀ name ∈ exactNames, name ∈ fields.map Prod.fst ↔ name ∈ fields'.map Prod.fst)
    (env : DynamicVariable) : headerEnv fields env = headerEnv fields' env := by
  have htype := headerValue_eq h hnodup (hnames (ascii "Content-Type") (by decide))
  have hlength := headerValue_eq h hnodup (hnames (ascii "Content-Length") (by decide))
  rw [headerEnv, headerEnv, foldl_headers_eq h, assignHeader, assignHeader, assignHeader,
    assignHeader, htype, hlength]

/-- A variable that is set from a field spelled in one way only. -/
theorem find_headerEnv {name key : Bytes}
    (hkey : (name, key) ∈ [(ascii "Content-Type", ascii "CONTENT_TYPE"),
      (ascii "Content-Length", ascii "CONTENT_LENGTH")])
    (fields : List (Bytes × Bytes)) {env : DynamicVariable} (henv : env.find key = none) :
    (headerEnv fields env).find key = (headerValue fields name).map .string := by
  have hassign (env : DynamicVariable) (henv : env.find key = none) :
      (assignHeader fields name key env).find key = (headerValue fields name).map .string := by
    rw [assignHeader]
    split
    · next hnone => rw [henv, hnone]; rfl
    · next value hvalue => rw [DynamicVariable.find_assign_self, hvalue]; rfl
  rw [List.mem_pair, Prod.mk.injEq, Prod.mk.injEq] at hkey
  rcases hkey with ⟨rfl, rfl⟩ | ⟨rfl, rfl⟩
  · rw [headerEnv, find_assignHeader _ (by decide)]
    refine hassign _ ?_
    rw [find_foldl_headers _ (by decide), henv]
  · rw [headerEnv]
    refine hassign _ ?_
    rw [find_assignHeader _ (by decide), find_foldl_headers _ (by decide), henv]

/-! ## The requests

Everything else in the request is parsed from its variables and its body. So two requests are the
same if the variables are, and the two looked up by one spelling decide. -/

/-- The variables of the request line are four. -/
theorem find_requestLineEnv_of_ne {key : Bytes}
    (hkey : key ∉ [ascii "REQUEST_METHOD", ascii "REQUEST_URI", ascii "PATH_INFO",
      ascii "QUERY_STRING"]) (wsPathPrefix firstLine : Bytes) (env : DynamicVariable) :
    (requestLineEnv wsPathPrefix firstLine env).find key = env.find key := by
  simp only [List.mem_cons, List.not_mem_nil, or_false, not_or] at hkey
  obtain ⟨hmethod, huri, hpath, hquery⟩ := hkey
  rw [requestLineEnv]
  split
  · rfl
  · rw [DynamicVariable.find_assign_of_ne _ _ hquery, DynamicVariable.find_assign_of_ne _ _ hpath,
      DynamicVariable.find_assign_of_ne _ _ huri, DynamicVariable.find_assign_of_ne _ _ hmethod]

/-- The request `schedule_http` builds for a text, in the arena `i`. -/
def builtRequest (wsPathPrefix uploadDir : Bytes) (temp : TempFiles) (fd : ℤ) (i : ℕ) (now : ℚ)
    (text body : Bytes) : Request :=
  httpRequest wsPathPrefix (httpParsers temp uploadDir) fd text body (Request.ofArena i now)

/-- The same request, but for the paths of its temporary files. -/
structure SameRequest (r r' : Request) : Prop extends SameParsed r r' where
  env : r.env = r'.env

/-- `CONTENT_TYPE` and `CONTENT_LENGTH` are the values of the fields spelled one way. -/
theorem find_builtRequest {name key : Bytes}
    (hkey : (name, key) ∈ [(ascii "Content-Type", ascii "CONTENT_TYPE"),
      (ascii "Content-Length", ascii "CONTENT_LENGTH")])
    (wsPathPrefix uploadDir : Bytes) (temp : TempFiles) (fd : ℤ) (i : ℕ) (now : ℚ)
    (text body : Bytes) :
    (builtRequest wsPathPrefix uploadDir temp fd i now text body).env.find key
      = (headerValue (fieldsOf text) name).map .string := by
  have hne : key ∉ [ascii "REQUEST_METHOD", ascii "REQUEST_URI", ascii "PATH_INFO",
      ascii "QUERY_STRING"] ∧ key ≠ ascii "SERVER_PROTOCOL" ∧ key ≠ ascii "WS" ∧
      key ≠ ascii "CLIENT_FD" ∧ key ≠ ascii "DBG_ARENA" := by
    rw [List.mem_pair, Prod.mk.injEq, Prod.mk.injEq] at hkey
    rcases hkey with ⟨-, rfl⟩ | ⟨-, rfl⟩
    · decide
    · decide
  obtain ⟨hline, hprotocol, hws, hfd, harena⟩ := hne
  have hempty : ((requestLineEnv wsPathPrefix (firstLineOf text) (Request.ofArena i now).env).assign
      (ascii "SERVER_PROTOCOL") (.string (ascii "HTTP/1.1"))).find key = none := by
    rw [DynamicVariable.find_assign_of_ne _ _ hprotocol, find_requestLineEnv_of_ne hline,
      Request.ofArena, DynamicVariable.find_assign_of_ne _ _ harena]
    rfl
  rw [builtRequest, env_httpRequest, unparsed]
  rw [DynamicVariable.find_assign_of_ne _ _ hfd, DynamicVariable.find_assign_of_ne _ _ hws,
    find_headerEnv hkey _ hempty]

/-- Texts with the same variables spell the two names alike. -/
theorem spelledAlike_of_env {wsPathPrefix uploadDir : Bytes} {temp temp' : TempFiles} {fd : ℤ}
    {i : ℕ} {now : ℚ} {text text' body : Bytes}
    (h : (builtRequest wsPathPrefix uploadDir temp fd i now text body).env
      = (builtRequest wsPathPrefix uploadDir temp' fd i now text' body).env) :
    SpelledAlike text text' := by
  intro name hname
  have hkey : ∃ key, (name, key) ∈ [(ascii "Content-Type", ascii "CONTENT_TYPE"),
      (ascii "Content-Length", ascii "CONTENT_LENGTH")] := by
    rcases List.mem_pair.mp hname with rfl | rfl
    · exact ⟨_, List.mem_cons_self⟩
    · exact ⟨_, List.mem_cons_of_mem _ List.mem_cons_self⟩
  obtain ⟨key, hkey⟩ := hkey
  have hfind := congrArg (fun env ↦ (DynamicVariable.find env key).isNone) h
  rw [find_builtRequest hkey, find_builtRequest hkey, Option.isNone_map, Option.isNone_map,
    Bool.eq_iff_iff, Option.isNone_iff_eq_none, Option.isNone_iff_eq_none,
    headerValue_eq_none_iff, headerValue_eq_none_iff, not_iff_not] at hfind
  exact hfind

/-- **When the case of header names does not matter.** Two texts that differ in it give the same
request exactly if they spell the content type and the content length alike. The same number of body
octets is waited for in any case. -/
theorem sameRequest_iff (wsPathPrefix uploadDir : Bytes) {temp temp' : TempFiles}
    (htemp : SameButPaths temp temp') (fd : ℤ) (i : ℕ) (now : ℚ) {text text' : Bytes}
    (body : Bytes) (h : Recased text text') (hnames : NoRepeats text) :
    (SameRequest (builtRequest wsPathPrefix uploadDir temp fd i now text body)
        (builtRequest wsPathPrefix uploadDir temp' fd i now text' body) ∧
      awaitedBytes text = awaitedBytes text') ↔ SpelledAlike text text' := by
  refine ⟨fun hsame ↦ spelledAlike_of_env hsame.1.env, fun halike ↦ ⟨?_, h.awaitedBytes⟩⟩
  have hunparsed : unparsed wsPathPrefix text body (Request.ofArena i now)
      = unparsed wsPathPrefix text' body (Request.ofArena i now) := by
    rw [unparsed, unparsed, h.firstLineOf, headerEnv_eq h.fieldsOf hnames halike]
  have hparsed := httpParsers_same htemp uploadDir
    (unparsed wsPathPrefix text' body (Request.ofArena i now))
  refine ⟨⟨?_, ?_, ?_⟩, ?_⟩
  · rw [builtRequest, builtRequest, params_httpRequest, params_httpRequest, hunparsed,
      hparsed.params]
  · rw [builtRequest, builtRequest, cookies_httpRequest, cookies_httpRequest, hunparsed,
      hparsed.cookies]
  · rw [builtRequest, builtRequest, files_httpRequest, files_httpRequest, hunparsed,
      hparsed.files]
  · rw [builtRequest, builtRequest, env_httpRequest, env_httpRequest, hunparsed]

/-- A posted form with a content type and a cookie, under these names. -/
def formText (contentType cookie : Bytes) : Bytes :=
  ascii "POST / HTTP/1.1" ++ crlf ++
    (contentType ++ 58 :: ascii " application/x-www-form-urlencoded" ++ crlf ++
      (cookie ++ 58 :: ascii " a=1" ++ crlf ++ crlf))

private theorem recased_formText (contentType cookie : Bytes)
    (h : contentType.map toLower = (ascii "Content-Type").map toLower ∧
      cookie.map toLower = (ascii "Cookie").map toLower) :
    Recased (formText (ascii "Content-Type") (ascii "Cookie")) (formText contentType cookie) := by
  refine .lines (by decide +kernel) (.field h.1.symm (by decide) (by decide +kernel) ?_)
  exact .field h.2.symm (by decide) (by decide +kernel) (.ending (.inl (List.prefix_refl _)))

/-- The temporary files of a run that has its own directory. -/
def tempFilesIn (directory : Bytes) : TempFiles where
  mkstemp _ pattern := some (directory ++ pattern)
  write _ _ left := left

private theorem sameButPaths_tempFilesIn (directory directory' : Bytes) :
    SameButPaths (tempFilesIn directory) (tempFilesIn directory') := ⟨fun _ _ ↦ rfl, rfl⟩

/-- The name of the cookie header in lower case. -/
theorem sameRequest_iff_cookie :
    SameRequest
      (builtRequest [] [] (tempFilesIn (ascii "/tmp/")) 5 0 0
        (formText (ascii "Content-Type") (ascii "Cookie")) (ascii "b=2"))
      (builtRequest [] [] (tempFilesIn (ascii "/var/")) 5 0 0
        (formText (ascii "Content-Type") (ascii "cookie")) (ascii "b=2")) :=
  ((sameRequest_iff [] [] (sameButPaths_tempFilesIn _ _) 5 0 0 (ascii "b=2")
    (recased_formText (ascii "Content-Type") (ascii "cookie") (by decide +kernel))
    (by decide +kernel)).mpr (by decide +kernel)).1

/-- The name of the content type in lower case: the form is not parsed. -/
theorem not_sameRequest_contentType :
    Recased (formText (ascii "Content-Type") (ascii "Cookie"))
      (formText (ascii "content-type") (ascii "Cookie")) ∧
    NoRepeats (formText (ascii "Content-Type") (ascii "Cookie")) ∧
    ¬SameRequest
      (builtRequest [] [] (tempFilesIn (ascii "/tmp/")) 5 0 0
        (formText (ascii "Content-Type") (ascii "Cookie")) (ascii "b=2"))
      (builtRequest [] [] (tempFilesIn (ascii "/tmp/")) 5 0 0
        (formText (ascii "content-type") (ascii "Cookie")) (ascii "b=2")) := by
  refine ⟨recased_formText _ _ (by decide +kernel), by decide +kernel, fun h ↦ ?_⟩
  have halike := spelledAlike_of_env h.env (ascii "Content-Type") (by decide)
  exact absurd halike (by decide +kernel)

end Wasapi.Websockets
