import Wasapi.Http.FormData

/-!
# The loop over the parts

A body is made of the headers and the content of every part. If each of them ends where its end is
first found, the loop finds all of them, and what it makes of a body is what it makes of its parts,
one after the other: of every field name the last content is kept, and every part with a filename is
a file, if a temporary file can be made.
-/

namespace Wasapi.Http

open Websockets Json

/-! ## Encoding

The parts are given by their headers and contents, in whatever way these are written. What is asked
is that each ends where its end is first found. -/

/-- A part behind its delimiter. -/
def encodePart (delim headers content : Bytes) : Bytes :=
  delim ++ crlf ++ headers ++ (crlf ++ crlf) ++ content ++ crlf

def encodeBody (delim : Bytes) (parts : List (Bytes × Bytes)) (epilogue : Bytes) : Bytes :=
  parts.flatMap (fun p ↦ encodePart delim p.1 p.2) ++ (delim ++ ascii "--" ++ epilogue)

/-- The empty line that ends the headers is the first one. -/
def HeadersEnd (headers : Bytes) : Prop :=
  findPattern (crlf ++ crlf) (headers ++ (crlf ++ crlf)) = some headers.length

/-- The line break and the delimiter that end the content are the first ones behind its start. -/
def Delimited (delim content : Bytes) : Prop :=
  findPattern (crlf ++ delim) (content ++ (crlf ++ delim)) = some content.length

/-- With a delimiter free of carriage returns this says what it should: they do not occur in the
content. -/
theorem delimited_iff {delim : Bytes} (h : 13 ∉ delim) (content : Bytes) :
    Delimited delim content ↔ ¬crlf ++ delim <:+: content := by
  constructor
  · -- an occurrence in the content would have been found first
    intro hdelimited hoccurs
    obtain ⟨i, hi⟩ := exists_findPattern hoccurs
    have hle := length_le_of_findPattern hi (List.cons_ne_nil 13 (10 :: delim))
    have hfound := findPattern_append hi (crlf ++ delim)
    rw [hdelimited, Option.some.injEq] at hfound
    rw [List.length_append] at hle
    have hcrlf : crlf.length = 2 := rfl
    omega
  · intro hoccurs
    have hmem : (13 : UInt8) ∉ 10 :: delim := by
      rw [List.mem_cons, not_or]
      exact ⟨by decide, h⟩
    have hfound := findPattern_of_not_infix hmem hoccurs []
    rwa [List.append_nil] at hfound

private theorem encodeBody_nil (delim epilogue : Bytes) :
    encodeBody delim [] epilogue = delim ++ (ascii "--" ++ epilogue) := by
  rw [encodeBody, List.flatMap_nil, List.nil_append, List.append_assoc]

private theorem encodeBody_cons (delim : Bytes) (p : Bytes × Bytes) (parts : List (Bytes × Bytes))
    (epilogue : Bytes) : encodeBody delim (p :: parts) epilogue =
      encodePart delim p.1 p.2 ++ encodeBody delim parts epilogue := by
  rw [encodeBody, List.flatMap_cons, List.append_assoc, encodeBody]

private theorem prefix_encodeBody (delim : Bytes) (parts : List (Bytes × Bytes))
    (epilogue : Bytes) : delim <+: encodeBody delim parts epilogue := by
  cases parts with
  | nil =>
    rw [encodeBody_nil]
    exact List.prefix_append _ _
  | cons p parts =>
    rw [encodeBody_cons, encodePart]
    simp only [List.append_assoc]
    exact List.prefix_append _ _

theorem length_lt_length_encodeBody (delim : Bytes) (parts : List (Bytes × Bytes))
    (epilogue : Bytes) : parts.length < (encodeBody delim parts epilogue).length := by
  induction parts with
  | nil =>
    have hdashes : (ascii "--").length = 2 := rfl
    rw [encodeBody_nil, List.length_append, List.length_append, List.length_nil]
    omega
  | cons p parts ih =>
    have hpos : 0 < (encodePart delim p.1 p.2).length := by
      rw [encodePart, List.length_append]
      exact Nat.lt_add_left _ (by decide)
    rw [encodeBody_cons, List.length_append, List.length_cons]
    omega

/-! ## Storing

What becomes of a list of parts is a fold over them. Fields and files do not get in each other's
way, so each kind can be looked at by itself. -/

section

variable (temp : TempFiles) (uploadDir : Bytes)

/-- What becomes of parts that have been read. -/
def storeAll (parts : List (PartHead × Bytes)) (s : FormData) : FormData :=
  parts.foldl (fun s p ↦ storePart temp uploadDir p.1 p.2 s) s

/-- The last content that is stored under a name. -/
def lastField (parts : List (PartHead × Bytes)) (name : Bytes) : Option Bytes :=
  ((parts.filter fun p ↦ p.1.filename = [] ∧ p.1.fieldName = name).getLast?).map Prod.snd

/-- The parts that are files. -/
def fileParts (parts : List (PartHead × Bytes)) : List (PartHead × Bytes) :=
  parts.filter fun p ↦ p.1.filename ≠ []

/-- What is listed for parts that are files, if `mkstemp` has been called so often. -/
def listedFiles : ℕ → List (PartHead × Bytes) → List DynamicVariable
  | _, [] => []
  | calls, (head, content) :: parts =>
    match temp.mkstemp calls (uploadPattern uploadDir) with
    | none => listedFiles (calls + 1) parts
    | some tempPath =>
      fileVariable head content tempPath
        (writeLoop (temp.write calls) content.length content.length 0) ::
          listedFiles (calls + 1) parts

variable {temp uploadDir}

/-- **One part.** -/
theorem partLoop_encodePart {delim headers content : Bytes} (hheaders : HeadersEnd headers)
    (hcontent : Delimited delim content) {next : Bytes} (hnext : delim <+: next) (fuel : ℕ)
    (s : FormData) :
    partLoop temp uploadDir delim (fuel + 1) (encodePart delim headers content ++ next) s =
      partLoop temp uploadDir delim fuel next
        (storePart temp uploadDir (readHeaders headers.length headers {}) (trimContent content)
          s) := by
  have hsplit : encodePart delim headers content ++ next =
      delim ++ (crlf ++ (headers ++ (crlf ++ crlf ++ (content ++ (crlf ++ next))))) := by
    simp only [encodePart, List.append_assoc]
  have hstart : findPattern delim (encodePart delim headers content ++ next) = some 0 := by
    rw [hsplit]
    exact findPattern_eq_zero (List.prefix_append delim _)
  have hheadersEnd (rest : Bytes) :
      findPattern (crlf ++ crlf) (headers ++ (crlf ++ crlf ++ rest)) = some headers.length := by
    rw [← List.append_assoc]
    exact findPattern_append hheaders rest
  -- what follows the next delimiter does not matter for the end of the content
  have hcontentEnd : findPattern (crlf ++ delim) (content ++ (crlf ++ next)) =
      some content.length := by
    obtain ⟨more, rfl⟩ := hnext
    rw [← List.append_assoc crlf, ← List.append_assoc]
    exact findPattern_append hcontent more
  have hbehind (rest : Bytes) :
      (headers ++ (crlf ++ crlf ++ rest)).drop (headers.length + 4) = rest := by
    rw [List.drop_length_add_append]
    rfl
  have hnextPart : (content ++ (crlf ++ next)).drop (content.length + 2) = next := by
    rw [List.drop_length_add_append]
    rfl
  have hdashes (rest : Bytes) : (ascii "--").isPrefixOf (crlf ++ rest) = false := rfl
  have hcrlf (rest : Bytes) : crlf.isPrefixOf (crlf ++ rest) = true := rfl
  have hdrop (rest : Bytes) : (crlf ++ rest).drop 2 = rest := rfl
  rw [partLoop, hstart]
  simp only
  rw [hsplit, Nat.zero_add, List.drop_left, hdashes, hcrlf, hdrop, hheadersEnd]
  simp only [Bool.false_eq_true, if_false, Bool.not_true]
  rw [hbehind, hcontentEnd]
  simp only
  rw [hnextPart, List.take_left, List.take_left]

/-- **The whole body.** -/
theorem partLoop_encodeBody {delim : Bytes} {parts : List (Bytes × Bytes)}
    (h : ∀ p ∈ parts, HeadersEnd p.1 ∧ Delimited delim p.2) (epilogue : Bytes) {fuel : ℕ}
    (hfuel : parts.length < fuel) (s : FormData) :
    partLoop temp uploadDir delim fuel (encodeBody delim parts epilogue) s =
      (true, storeAll temp uploadDir
        (parts.map fun p ↦ (readHeaders p.1.length p.1 {}, trimContent p.2)) s) := by
  induction parts generalizing fuel s with
  | nil =>
    obtain ⟨fuel, rfl⟩ := Nat.exists_eq_add_one_of_ne_zero hfuel.ne'
    have hdashes : (ascii "--").isPrefixOf (ascii "--" ++ epilogue) = true := rfl
    rw [encodeBody_nil, partLoop, findPattern_eq_zero (List.prefix_append delim _)]
    simp only
    rw [Nat.zero_add, List.drop_left, hdashes, if_pos rfl]
    rfl
  | cons p parts ih =>
    obtain ⟨fuel, rfl⟩ := Nat.exists_eq_add_one_of_ne_zero (Nat.ne_of_gt (Nat.zero_lt_of_lt hfuel))
    obtain ⟨hheaders, hcontent⟩ := h p List.mem_cons_self
    rw [encodeBody_cons, partLoop_encodePart hheaders hcontent (prefix_encodeBody _ _ _),
      ih (fun q hq ↦ h q (List.mem_cons_of_mem p hq)) (Nat.lt_of_succ_lt_succ hfuel)]
    rfl

private theorem storeAll_append (parts : List (PartHead × Bytes)) (p : PartHead × Bytes)
    (s : FormData) :
    storeAll temp uploadDir (parts ++ [p]) s =
      storePart temp uploadDir p.1 p.2 (storeAll temp uploadDir parts s) := by
  rw [storeAll, List.foldl_append, List.foldl_cons, List.foldl_nil, storeAll]

/-- A part without a filename sets its field, and a file sets none. -/
theorem formFields_storePart (head : PartHead) (content : Bytes) (s : FormData) :
    (storePart temp uploadDir head content s).formFields =
      if head.filename = [] then s.formFields.insert head.fieldName content
      else s.formFields := by
  rw [storePart]
  split
  · rfl
  · split <;> rfl

private theorem lastField_append (parts : List (PartHead × Bytes)) (p : PartHead × Bytes)
    (name : Bytes) : lastField (parts ++ [p]) name =
      if p.1.filename = [] ∧ p.1.fieldName = name then some p.2 else lastField parts name := by
  rw [lastField, List.filter_append, List.filter_singleton]
  by_cases h : p.1.filename = [] ∧ p.1.fieldName = name
  · rw [if_pos h, decide_eq_true h, cond_true, List.getLast?_concat, Option.map_some]
  · rw [if_neg h, decide_eq_false h, cond_false, List.append_nil, lastField]

/-- **Every field holds its last content.** -/
theorem lookup_storeAll (parts : List (PartHead × Bytes)) (s : FormData) (name : Bytes) :
    (storeAll temp uploadDir parts s).formFields.lookup name =
      (lastField parts name).or (s.formFields.lookup name) := by
  induction parts using List.reverseRecOn with
  | nil => rfl
  | append_singleton parts p ih =>
    rw [storeAll_append, formFields_storePart, lastField_append]
    by_cases hf : p.1.filename = []
    · by_cases hname : p.1.fieldName = name
      · rw [if_pos hf, if_pos ⟨hf, hname⟩, hname, AList.lookup_insert, Option.some_or]
      · rw [if_pos hf, if_neg fun h ↦ hname h.2, AList.lookup_insert_ne (Ne.symm hname)]
        exact ih
    · rw [if_neg hf, if_neg fun h ↦ hf h.1]
      exact ih

/-- **Every file is listed for which a temporary file could be made.** -/
theorem files_storeAll (parts : List (PartHead × Bytes)) {s : FormData}
    {files : List DynamicVariable} (hs : s.files = .array files) :
    (storeAll temp uploadDir parts s).files =
      .array (files ++ listedFiles temp uploadDir s.calls (fileParts parts)) := by
  induction parts generalizing s files with
  | nil =>
    rw [fileParts, List.filter_nil, listedFiles, List.append_nil]
    exact hs
  | cons p parts ih =>
    rw [storeAll, List.foldl_cons, ← storeAll, storePart, fileParts, List.filter_cons]
    by_cases hf : p.1.filename = []
    · rw [if_pos hf, if_neg (by rw [hf]; decide)]
      exact ih hs
    · rw [if_neg hf, if_pos (decide_eq_true hf), listedFiles, ← fileParts]
      cases temp.mkstemp s.calls (uploadPattern uploadDir) with
      | none => exact ih hs
      | some tempPath =>
        simp only
        rw [List.append_cons]
        exact ih (congrArg (DynamicVariable.push · _) hs)

variable (temp uploadDir) in
theorem length_listedFiles_le (calls : ℕ) (parts : List (PartHead × Bytes)) :
    (listedFiles temp uploadDir calls parts).length ≤ parts.length := by
  induction parts generalizing calls with
  | nil => exact le_rfl
  | cons p parts ih =>
    have hle := ih (calls + 1)
    rw [listedFiles]
    split
    · exact hle.trans (Nat.le_succ _)
    · exact Nat.succ_le_succ hle

section

variable {ι : Type*} {stored : ι → PartHead × Bytes} {R : ι → DynamicVariable → Prop} {calls : ℕ}
  {parts : List ι}

/-- The list is complete if all temporary files can be made. -/
theorem forall₂_listedFiles
    (hR : ∀ p ∈ parts, ∀ tempPath written,
      R p (fileVariable (stored p).1 (stored p).2 tempPath written))
    (h : ∀ k < parts.length, (temp.mkstemp (calls + k) (uploadPattern uploadDir)).isSome) :
    List.Forall₂ R parts (listedFiles temp uploadDir calls (parts.map stored)) := by
  induction parts generalizing calls with
  | nil => exact .nil
  | cons p parts ih =>
    rw [List.length_cons, Nat.forall_lt_succ_left, Nat.add_zero] at h
    rw [List.forall_mem_cons] at hR
    obtain ⟨tempPath, hmkstemp⟩ := Option.isSome_iff_exists.mp h.1
    rw [List.map_cons, listedFiles, hmkstemp]
    refine .cons (hR.1 tempPath _) (ih hR.2 fun k hk ↦ ?_)
    rw [Nat.add_assoc, Nat.add_comm 1 k]
    exact h.2 k hk

/-- If a file is listed for every part, then it has been made for this part. -/
theorem of_forall₂_listedFiles
    (h : List.Forall₂ R parts (listedFiles temp uploadDir calls (parts.map stored))) :
    (∀ k < parts.length, (temp.mkstemp (calls + k) (uploadPattern uploadDir)).isSome) ∧
      ∀ p ∈ parts, ∃ tempPath written,
        R p (fileVariable (stored p).1 (stored p).2 tempPath written) := by
  induction parts generalizing calls with
  | nil => exact ⟨fun k hk ↦ absurd hk (Nat.not_lt_zero k), fun p hp ↦ (nomatch hp)⟩
  | cons p parts ih =>
    rw [List.map_cons, listedFiles] at h
    cases hmkstemp : temp.mkstemp calls (uploadPattern uploadDir) with
    | none =>
      rw [hmkstemp] at h
      have hlength : parts.length + 1 =
          (listedFiles temp uploadDir (calls + 1) (parts.map stored)).length := h.length_eq
      have hle := length_listedFiles_le temp uploadDir (calls + 1) (parts.map stored)
      rw [List.length_map] at hle
      omega
    | some tempPath =>
      rw [hmkstemp, List.forall₂_cons] at h
      obtain ⟨hmade, hmem⟩ := ih h.2
      rw [List.length_cons, Nat.forall_lt_succ_left, Nat.add_zero, List.forall_mem_cons]
      refine ⟨⟨Option.isSome_iff_exists.mpr ⟨tempPath, hmkstemp⟩, fun k hk ↦ ?_⟩,
        ⟨tempPath, _, h.1⟩, hmem⟩
      rw [← Nat.add_comm 1 k, ← Nat.add_assoc]
      exact hmade k hk

end

end

end Wasapi.Http
