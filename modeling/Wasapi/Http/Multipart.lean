import Wasapi.Http.Dispositions

/-!
# Multipart bodies, byte by byte

A list of parts, encoded the standard way, and what `extract_files_from_formdata` makes of it. The
end of a content is found where it is: the search is for the line break in front of the delimiter,
which does not belong to the content. Then a line break is cut off all the same, so a content that
ends in one loses it. The hash of a file starts from another number than FNV-1a does, and since a
step of the hash can be undone, no file gets the hash it should.
-/

namespace Wasapi.Http

open Websockets Json

/-! ## FNV-1a

The program starts from another number than FNV-1a does. Every turn of the hash is injective in the
number it starts from, so no content has the hash it should have. -/

/-- The 64-bit FNV-1a hash. -/
def fnv1a64 (content : Bytes) : UInt64 := content.foldl fnvStep 14695981039346656037

private theorem fnvStep_injective (b : UInt8) : Function.Injective fun hv ↦ fnvStep hv b := by
  -- the prime is odd, so it has an inverse
  have hprime : (1099511628211 : UInt64) * 14886173955864302971 = 1 := by decide
  intro hv hv' h
  have hxor : hv ^^^ b.toUInt64 = hv' ^^^ b.toUInt64 := by
    have hmul := congrArg (· * 14886173955864302971) h
    simp only [fnvStep, UInt64.mul_assoc, hprime, UInt64.mul_one] at hmul
    exact hmul
  exact (UInt64.xor_left_inj _).mp hxor

/-- Hashes of one content that start from different numbers differ. -/
theorem foldl_fnvStep_injective (content : Bytes) :
    Function.Injective fun hv ↦ content.foldl fnvStep hv := by
  induction content with
  | nil => exact fun _ _ h ↦ h
  | cons b content ih => exact ih.comp (fnvStep_injective b)

private theorem hexDigit_injOn : ∀ m < 16, ∀ n < 16, hexDigit m = hexDigit n → m = n := by decide

/-- The digits determine the number. -/
theorem hexText_inj {digits m n : ℕ} (hm : m < 16 ^ digits) (hn : n < 16 ^ digits)
    (h : hexText digits m = hexText digits n) : m = n := by
  induction digits generalizing m n with
  | zero =>
    rw [pow_zero] at hm hn
    omega
  | succ digits ih =>
    rw [pow_succ] at hm hn
    rw [hexText, hexText, List.append_singleton_inj] at h
    have hdiv : m / 16 = n / 16 := ih (by omega) (by omega) h.1
    have hmod := hexDigit_injOn _ (Nat.mod_lt m (by decide)) _ (Nat.mod_lt n (by decide)) h.2
    omega

/-- **No content gets its hash.** -/
theorem contentHash_ne (content : Bytes) :
    contentHash content ≠ hexText 16 (fnv1a64 content).toNat := by
  intro h
  have hhash := UInt64.toNat_inj.mp
    (hexText_inj (UInt64.toNat_lt _) (UInt64.toNat_lt _) h)
  exact absurd (foldl_fnvStep_injective content hhash) (by decide)

/-! ## Encoding

The standard way to write a part: the content disposition with a name and perhaps a filename, an
empty line, and the content up to the line break in front of the next delimiter. -/

/-- What may stand in a name. -/
def isPlain (b : UInt8) : Bool := b ≠ 34 && b ≠ 59 && b ≠ 13 && b ≠ 10

structure FormPart where
  name : Bytes
  filename : Option Bytes := none
  content : Bytes
  name_plain : name.all isPlain = true
  filename_ne : filename ≠ some []
  filename_plain : (filename.getD []).all isPlain = true

/-- The value of the header. -/
def FormPart.disposition (p : FormPart) : Bytes :=
  ascii "form-data; name=\"" ++ p.name ++ [34] ++
    match p.filename with
    | none => []
    | some filename => ascii "; filename=\"" ++ filename ++ [34]

def FormPart.header (p : FormPart) : Bytes := ascii "Content-Disposition: " ++ p.disposition

/-- A part behind its delimiter. -/
def FormPart.encode (delim : Bytes) (p : FormPart) : Bytes :=
  delim ++ crlf ++ p.header ++ (crlf ++ crlf) ++ p.content ++ crlf

def encodeParts (delim : Bytes) (parts : List FormPart) (epilogue : Bytes) : Bytes :=
  parts.flatMap (FormPart.encode delim) ++ (delim ++ ascii "--" ++ epilogue)

/-! ## Reading a header

A header that was written this way is read back. The names are plain, so each attribute is one
piece. -/

private theorem not_mem_of_isPlain {s : Bytes} (h : s.all isPlain = true) {b : UInt8}
    (hb : isPlain b = false) : b ∉ s := fun hmem ↦
  absurd ((List.all_eq_true.mp h b hmem).symm.trans hb) (by decide)

/-- What the header says. -/
def FormPart.head (p : FormPart) : PartHead :=
  { fieldName := p.name, filename := p.filename.getD [] }

private theorem FormPart.filename_head_eq_nil_iff (p : FormPart) :
    p.head.filename = [] ↔ p.filename = none := by
  rw [FormPart.head]
  cases hf : p.filename with
  | none => exact iff_of_true rfl rfl
  | some filename =>
    refine iff_of_false (fun hnil ↦ ?_) (Option.some_ne_none filename)
    exact p.filename_ne (hf.trans (congrArg some hnil))

private theorem FormPart.disposition_eq (p : FormPart) :
    p.disposition = ascii "form-data" ++ 59 :: (quoted (ascii " name") p.name ++
      match p.filename with
      | none => []
      | some filename => 59 :: quoted (ascii " filename") filename) := by
  have hname : ascii "form-data; name=\"" =
      ascii "form-data" ++ 59 :: (ascii " name" ++ [61, 34]) := rfl
  have hfilename : ascii "; filename=\"" = 59 :: (ascii " filename" ++ [61, 34]) := rfl
  rw [FormPart.disposition, hname]
  cases p.filename with
  | none =>
    simp only [quoted, List.append_assoc, List.cons_append, List.nil_append, List.append_nil]
  | some filename =>
    simp only [hfilename, quoted, List.append_assoc, List.cons_append, List.nil_append]

private theorem not_mem_quoted {attr value : Bytes} {b : UInt8} (hattr : b ∉ attr)
    (hvalue : value.all isPlain = true) (hb : isPlain b = false) (hb' : b ≠ 61) (hb'' : b ≠ 34) :
    b ∉ quoted attr value := by
  have hmem := not_mem_of_isPlain hvalue hb
  simp only [quoted, List.mem_append, List.mem_cons, List.not_mem_nil, hattr, hmem, hb', hb'',
    not_or, not_false_eq_true, and_self]

/-- The loop over the content disposition finds the names. -/
theorem FormPart.readDisposition_disposition (p : FormPart) :
    readDisposition p.disposition.length p.disposition {} = p.head := by
  have hname : 34 ∉ p.name ∧ 59 ∉ p.name :=
    ⟨not_mem_of_isPlain p.name_plain (by decide), not_mem_of_isPlain p.name_plain (by decide)⟩
  have hsetName (head : PartHead) : head.setAttribute (trimSpaces (ascii " name")) p.name =
      { head with fieldName := p.name } := if_pos (by decide)
  have hplain := p.filename_plain
  rw [readDisposition_eq le_rfl, p.disposition_eq, List.splitOn_append_cons_self,
    List.foldl_append, foldl_readPiece_formData, FormPart.head]
  cases hf : p.filename with
  | none =>
    simp only
    rw [List.append_nil, foldl_readPiece_quoted (by decide) (by decide) (by decide) hname.1,
      if_neg hname.2, hsetName]
    rfl
  | some filename =>
    rw [hf] at hplain
    have hfilename : 34 ∉ filename ∧ 59 ∉ filename :=
      ⟨not_mem_of_isPlain hplain (by decide), not_mem_of_isPlain hplain (by decide)⟩
    simp only
    rw [List.splitOn_append_cons_self, List.foldl_append,
      foldl_readPiece_quoted (by decide) (by decide) (by decide) hname.1, if_neg hname.2, hsetName,
      foldl_readPiece_quoted (by decide) (by decide) (by decide) hfilename.1, if_neg hfilename.2]
    rfl

private theorem FormPart.not_mem_disposition (p : FormPart) : 13 ∉ p.disposition := by
  have hname : 13 ∉ quoted (ascii " name") p.name :=
    not_mem_quoted (by decide) p.name_plain (by decide) (by decide) (by decide)
  have hfirst : (13 : UInt8) ∉ ascii "form-data" := by decide
  have hsemicolon : (13 : UInt8) ≠ 59 := by decide
  have hplain := p.filename_plain
  rw [p.disposition_eq, List.mem_append, List.mem_cons, List.mem_append, not_or, not_or, not_or]
  refine ⟨hfirst, hsemicolon, hname, ?_⟩
  cases hf : p.filename with
  | none => exact List.not_mem_nil
  | some filename =>
    rw [hf] at hplain
    rw [List.mem_cons, not_or]
    exact ⟨hsemicolon,
      not_mem_quoted (by decide) hplain (by decide) (by decide) (by decide)⟩

private theorem FormPart.not_mem_header (p : FormPart) : 13 ∉ p.header := by
  rw [FormPart.header, List.mem_append, not_or]
  exact ⟨by decide, p.not_mem_disposition⟩

/-- There are no spaces to trim around the value of the header but the one in front. -/
theorem FormPart.trimSpaces_disposition (p : FormPart) :
    trimSpaces (32 :: p.disposition) = p.disposition := by
  obtain ⟨s, hs⟩ : ∃ s, p.disposition = s ++ [34] := by
    rw [FormPart.disposition]
    cases p.filename with
    | none => exact ⟨_, List.append_nil _⟩
    | some filename => exact ⟨_, (List.append_assoc _ _ _).symm⟩
  have hstart : p.disposition.dropWhile isBlank = p.disposition := by
    rw [p.disposition_eq]
    exact List.dropWhile_cons_of_neg (by decide)
  rw [trimSpaces, List.dropWhile_cons_of_pos (by decide), hstart, hs,
    List.rdropWhile_concat_neg _ _ _ (by decide)]

private theorem FormPart.areLines_header (p : FormPart) : AreLines [p.header] := by
  have hstart : ascii "Content-Disposition: " ≠ [] := by decide
  have hne : p.header ≠ [] := List.append_ne_nil_of_left_ne_nil hstart _
  intro line hline
  rw [List.mem_singleton.mp hline]
  exact ⟨hne, p.not_mem_header⟩

/-- **The header is read back.** -/
theorem FormPart.readHeaders_header (p : FormPart) :
    readHeaders p.header.length p.header {} = p.head := by
  have hname : ascii "Content-Disposition: " = ascii "Content-Disposition" ++ [58, 32] := by decide
  have hsplit : p.header = ascii "Content-Disposition" ++ 58 :: 32 :: p.disposition := by
    rw [FormPart.header, hname, List.append_assoc, List.cons_append, List.singleton_append]
  have hread : readHeader p.header {} = p.head := by
    have hfound : findPattern [58] p.header = some (ascii "Content-Disposition").length := by
      rw [hsplit]
      exact findPattern_behind (by decide) (List.prefix_append [58] _)
    have hdrop : p.header.drop ((ascii "Content-Disposition").length + 1) =
        32 :: p.disposition := by
      rw [hsplit, List.drop_length_add_append, List.drop_succ_cons, List.drop_zero]
    rw [readHeader, hfound]
    simp only
    rw [hdrop, p.trimSpaces_disposition, p.readDisposition_disposition, hsplit, List.take_left]
    exact if_pos (by decide)
  have hlines := readHeaders_intercalate p.areLines_header le_rfl {}
  rwa [List.intercalate_singleton, List.foldl_cons, List.foldl_nil, hread] at hlines

/-! ## The loop over the parts

A content is as long as it should be if the delimiter does not occur earlier, which is asked of the
parts. The loop then goes from part to part. -/

section

variable (temp : TempFiles) (uploadDir : Bytes)

/-- What becomes of a list of parts. -/
def storeParts (parts : List FormPart) (s : FormData) : FormData :=
  parts.foldl (fun s p ↦ storePart temp uploadDir p.head (trimContent p.content) s) s

private theorem FormPart.headersEnd (p : FormPart) : HeadersEnd p.header := by
  have hend := headersEnd_intercalate p.areLines_header
  rwa [List.intercalate_singleton] at hend

/-- What the loop is to read. -/
theorem encodeParts_eq (delim : Bytes) (parts : List FormPart) (epilogue : Bytes) :
    encodeParts delim parts epilogue =
      encodeBody delim (parts.map fun p ↦ (p.header, p.content)) epilogue := by
  rw [encodeParts, encodeBody, List.flatMap_map]
  rfl

/-- What it has read. -/
def FormPart.stored (p : FormPart) : PartHead × Bytes := (p.head, trimContent p.content)

private theorem storeParts_eq (parts : List FormPart) (s : FormData) :
    storeParts temp uploadDir parts s =
      storeAll temp uploadDir (parts.map FormPart.stored) s := by
  rw [storeParts, storeAll, List.foldl_map]
  rfl

theorem length_lt_length_encodeParts (delim : Bytes) (parts : List FormPart) (epilogue : Bytes) :
    parts.length < (encodeParts delim parts epilogue).length := by
  have hlt := length_lt_length_encodeBody delim (parts.map fun p ↦ (p.header, p.content)) epilogue
  rwa [List.length_map, ← encodeParts_eq] at hlt

variable {temp uploadDir} in
/-- **The whole body.** -/
theorem partLoop_encodeParts {delim : Bytes} {parts : List FormPart}
    (h : ∀ p ∈ parts, Delimited delim p.content) (epilogue : Bytes) {fuel : ℕ}
    (hfuel : parts.length < fuel) (s : FormData) :
    partLoop temp uploadDir delim fuel (encodeParts delim parts epilogue) s =
      (true, storeParts temp uploadDir parts s) := by
  have hends : ∀ q ∈ parts.map fun p ↦ (p.header, p.content),
      HeadersEnd q.1 ∧ Delimited delim q.2 := by
    intro q hq
    obtain ⟨p, hp, rfl⟩ := List.mem_map.mp hq
    exact ⟨p.headersEnd, h p hp⟩
  have hread (p : FormPart) :
      (readHeaders p.header.length p.header {}, trimContent p.content) = p.stored :=
    congrArg (·, trimContent p.content) p.readHeaders_header
  rw [encodeParts_eq, partLoop_encodeBody hends epilogue (by rwa [List.length_map]),
    List.map_map, storeParts_eq]
  exact congrArg (fun stored ↦ (true, storeAll temp uploadDir stored s))
    (List.map_congr_left fun p _ ↦ hread p)

/-! ## Text parts

A text field keeps its content but for a line break at its end. Two fields of one name leave the
last. -/

/-- The content of the last text part of a name. -/
def lastText (parts : List FormPart) (name : Bytes) : Option Bytes :=
  ((parts.filter fun p ↦ p.filename.isNone && p.name = name).getLast?).map FormPart.content

theorem trimContent_eq_self_iff (content : Bytes) :
    trimContent content = content ↔ ¬crlf <:+ content := by
  rw [trimContent]
  by_cases h : crlf <:+ content
  · have hlength : (2 : ℕ) ≤ content.length := h.length_le
    rw [if_pos (List.isSuffixOf_iff_suffix.mpr h)]
    refine iff_of_false (fun heq ↦ ?_) (not_not_intro h)
    have hle := congrArg List.length heq
    rw [List.length_take] at hle
    omega
  · rw [if_neg fun hsuffix ↦ h (List.isSuffixOf_iff_suffix.mp hsuffix)]
    exact iff_of_true rfl h

theorem lastField_map_stored (parts : List FormPart) (name : Bytes) :
    lastField (parts.map FormPart.stored) name = (lastText parts name).map trimContent := by
  have htext (p : FormPart) : decide (p.head.filename = [] ∧ p.head.fieldName = name) =
      (p.filename.isNone && decide (p.name = name)) := by
    rw [Bool.eq_iff_iff, decide_eq_true_iff, Bool.and_eq_true, decide_eq_true_iff,
      Option.isNone_iff_eq_none, p.filename_head_eq_nil_iff]
    rfl
  have hfilter : (fun q : PartHead × Bytes ↦ decide (q.1.filename = [] ∧ q.1.fieldName = name)) ∘
      FormPart.stored = fun p ↦ p.filename.isNone && decide (p.name = name) := funext htext
  rw [lastField, List.filter_map, hfilter, List.getLast?_map, lastText, Option.map_map,
    Option.map_map]
  rfl

/-- **Every field holds what is left of its last text part.** -/
theorem lookup_storeParts (parts : List FormPart) (s : FormData) (name : Bytes) :
    (storeParts temp uploadDir parts s).formFields.lookup name =
      match lastText parts name with
      | none => s.formFields.lookup name
      | some content => some (trimContent content) := by
  rw [storeParts_eq, lookup_storeAll, lastField_map_stored]
  cases lastText parts name with
  | none => rfl
  | some content => rfl

/-! ## File parts

A file is listed with its names, its size and its hash. The size is that of what has been written,
so a line break that was taken off shows. -/

/-- The file is listed with its names, its size and its hash. -/
structure FormPart.IsListedAs (p : FormPart) (file : DynamicVariable) : Prop where
  fieldName : file.find (ascii "field_name") = some (.string p.name)
  filename : file.find (ascii "filename") = p.filename.map .string
  size : file.find (ascii "size") = some (.number p.content.length)
  expectedSize : file.find (ascii "expected_size") = some (.number p.content.length)
  hash : file.find (ascii "hash_fnv1a64") =
    some (.string (hexText 16 (fnv1a64 p.content).toNat))

private theorem find_fileVariable (head : PartHead) (content tempPath : Bytes) (written : ℕ) :
    (fileVariable head content tempPath written).find (ascii "expected_size") =
        some (.number content.length) ∧
      (fileVariable head content tempPath written).find (ascii "hash_fnv1a64") =
        some (.string (contentHash content)) := by
  have hlisted (file : DynamicVariable) :
      ((file.assign (ascii "expected_size") (.number content.length)).assign
        (ascii "hash_fnv1a64") (.string (contentHash content))).find (ascii "expected_size") =
          some (.number content.length) := by
    rw [DynamicVariable.find_assign_of_ne _ _ (by decide), DynamicVariable.find_assign_self]
  rw [fileVariable]
  split
  · exact ⟨hlisted _, DynamicVariable.find_assign_self _ _ _⟩
  · constructor
    · rw [DynamicVariable.find_assign_of_ne _ _ (by decide)]
      exact hlisted _
    · rw [DynamicVariable.find_assign_of_ne _ _ (by decide)]
      exact DynamicVariable.find_assign_self _ _ _

/-- **No file is listed as it should be**: its size shows if something has been cut off, and if not
its hash is wrong. -/
theorem FormPart.not_isListedAs (p : FormPart) (tempPath : Bytes) (written : ℕ) :
    ¬p.IsListedAs (fileVariable p.head (trimContent p.content) tempPath written) := by
  intro h
  obtain ⟨hsize, hhash⟩ := find_fileVariable p.head (trimContent p.content) tempPath written
  have hlength : (trimContent p.content).length = p.content.length := by
    have heq := Option.some.inj (hsize.symm.trans h.expectedSize)
    exact Nat.cast_injective (DynamicVariable.number.inj heq)
  -- a content of the right size has not been cut, so its hash is all that is left to be wrong
  have htrim : trimContent p.content = p.content := by
    rw [trimContent] at hlength ⊢
    split at hlength
    · next hsuffix =>
      have hle : 2 ≤ p.content.length := (List.isSuffixOf_iff_suffix.mp hsuffix).length_le
      rw [List.length_take] at hlength
      omega
    · next hsuffix => rw [if_neg hsuffix]
  have heq := Option.some.inj (hhash.symm.trans h.hash)
  rw [htrim] at heq
  exact contentHash_ne p.content (DynamicVariable.string.inj heq)

def FormPart.isFile (p : FormPart) : Bool := p.filename.isSome

theorem fileParts_map_stored (parts : List FormPart) :
    fileParts (parts.map FormPart.stored) = (parts.filter FormPart.isFile).map FormPart.stored := by
  have hfile (p : FormPart) : decide (p.head.filename ≠ []) = p.isFile := by
    rw [FormPart.isFile, Bool.eq_iff_iff, decide_eq_true_iff, Option.isSome_iff_ne_none]
    exact not_congr p.filename_head_eq_nil_iff
  rw [fileParts, List.filter_map]
  exact congrArg (List.map _ <| List.filter · parts) (funext hfile)

/-- The list of files is not what it should be once there is a file. -/
theorem files_storeParts (parts : List FormPart) {s : FormData} (hs : s.files = .array []) :
    ∃ files, (storeParts temp uploadDir parts s).files = .array files ∧
      files.length ≤ (parts.filter FormPart.isFile).length ∧
      (List.Forall₂ FormPart.IsListedAs (parts.filter FormPart.isFile) files →
        ∀ p ∈ parts, p.filename = none) := by
  rw [storeParts_eq, files_storeAll _ hs, List.nil_append, fileParts_map_stored]
  set fileList := parts.filter FormPart.isFile
  have hle := length_listedFiles_le temp uploadDir s.calls (fileList.map FormPart.stored)
  rw [List.length_map] at hle
  refine ⟨_, rfl, hle, fun hlisted p hp ↦ ?_⟩
  by_contra hfile
  -- the list has the file that was made for this part
  have hmem : p ∈ fileList := List.mem_filter.mpr ⟨hp, Option.isSome_iff_ne_none.mpr hfile⟩
  obtain ⟨tempPath, written, hpfile⟩ := (of_forall₂_listedFiles hlisted).2 p hmem
  exact p.not_isListedAs tempPath written hpfile

/-! ## The contents that arrive

Both slips are put together, and the condition is exact: either of them is there whenever a body has
a part that exposes it. -/

/-- **Every part arrives byte by byte**: a field holds the content of its last text part, and the
files are listed in order. -/
structure ByteExact (parts : List FormPart) (r : Bool × FormData) : Prop where
  returns : r.1 = true
  fields : ∀ name content, lastText parts name = some content →
    r.2.formFields.lookup name = some content
  files : ∃ files, r.2.files = .array files ∧
    List.Forall₂ FormPart.IsListedAs (parts.filter FormPart.isFile) files

/-- **Exactly when a body arrives.** There is no file in it, and no field ends in a line break. -/
theorem byteExact_extractFiles_iff {boundary : Bytes} (hboundary : boundary ≠ [])
    {parts : List FormPart} (h : ∀ p ∈ parts, Delimited (delimiter boundary) p.content)
    (epilogue : Bytes) (formFields : AList fun _ : Bytes ↦ Bytes) (files : DynamicVariable) :
    ByteExact parts (extractFilesFromFormdata temp uploadDir
        (encodeParts (delimiter boundary) parts epilogue) boundary formFields files) ↔
      (∀ p ∈ parts, p.filename = none) ∧
        ∀ name content, lastText parts name = some content → ¬crlf <:+ content := by
  rw [extractFilesFromFormdata, if_neg hboundary,
    partLoop_encodeParts h epilogue (length_lt_length_encodeParts _ parts epilogue)]
  set s : FormData := { formFields := formFields, files := .array [] } with hs
  obtain ⟨listed, hfiles, hle, hnone⟩ := files_storeParts temp uploadDir parts (s := s) rfl
  constructor
  · intro hexact
    obtain ⟨listed', heq, hlisted⟩ := hexact.files
    obtain rfl := DynamicVariable.array.inj (hfiles.symm.trans heq)
    refine ⟨hnone hlisted, fun name content hlast ↦ ?_⟩
    have hlookup := hexact.fields name content hlast
    rw [lookup_storeParts, hlast] at hlookup
    exact (trimContent_eq_self_iff content).mp (Option.some.inj hlookup)
  · rintro ⟨htext, hends⟩
    have hfilter : parts.filter FormPart.isFile = [] := by
      rw [List.filter_eq_nil_iff]
      intro p hp
      rw [FormPart.isFile, htext p hp]
      exact Bool.false_ne_true
    rw [hfilter, List.length_nil, Nat.le_zero, List.length_eq_zero_iff] at hle
    refine ⟨rfl, fun name content hlast ↦ ?_, listed, hfiles, ?_⟩
    · rw [lookup_storeParts, hlast]
      exact congrArg some ((trimContent_eq_self_iff content).mpr (hends name content hlast))
    · rw [hfilter, hle]
      exact .nil

end

/-- Every file can be made and written. -/
def writable : TempFiles where
  mkstemp _ _ := some (ascii "/tmp/fcgi_upload_a1b2c3")
  write _ _ left := left

/-- A text that ends in a carriage return. -/
def halfBreak : FormPart where
  name := ascii "note"
  content := ascii "line\r"
  name_plain := by decide
  filename_ne := by decide
  filename_plain := by decide

/-- A text that ends in a line break. -/
def wholeBreak : FormPart := { halfBreak with content := ascii "line\r\n" }

def smallFile : FormPart where
  name := ascii "upload"
  filename := some (ascii "a.txt")
  content := ascii "a"
  name_plain := by decide
  filename_ne := by decide
  filename_plain := by decide

/-- What is made of a body with this part only. -/
def extractPart (p : FormPart) : Bool × FormData :=
  extractFilesFromFormdata writable (ascii "/tmp")
    (encodeParts (delimiter (ascii "X")) [p] (ascii "\r\n")) (ascii "X") ∅ .null

theorem byteExact_extractFiles_iff_halfBreak : ByteExact [halfBreak] (extractPart halfBreak) := by
  have hboundary : ascii "X" ≠ [] := List.cons_ne_nil _ _
  rw [extractPart, byteExact_extractFiles_iff writable (ascii "/tmp") hboundary]
  constructor
  · intro p hp
    rw [List.mem_singleton.mp hp]
    rfl
  · intro name content hlast
    obtain ⟨p, hp, rfl⟩ := Option.map_eq_some_iff.mp hlast
    rw [List.mem_singleton.mp (List.mem_of_mem_filter (List.mem_of_getLast? hp))]
    decide
  · intro p hp
    rw [List.mem_singleton.mp hp]
    rfl

/-- A line break at the end of a text is lost, and the hash of a file is not its hash. -/
theorem not_byteExact_extractPart :
    ¬ByteExact [wholeBreak] (extractPart wholeBreak) ∧
      ¬ByteExact [smallFile] (extractPart smallFile) := by
  constructor
  · intro h
    have hlookup := h.fields (ascii "note") (ascii "line\r\n") (by decide)
    exact absurd hlookup (by decide +kernel)
  · rintro ⟨-, -, files, hfiles, hlisted⟩
    have hstored : (extractPart smallFile).2.files = .array [fileVariable smallFile.head (ascii "a")
        (ascii "/tmp/fcgi_upload_a1b2c3") 1] := rfl
    obtain rfl := DynamicVariable.array.inj (hstored.symm.trans hfiles)
    have hhash := (List.forall₂_cons.mp hlisted).1.hash
    exact absurd (DynamicVariable.string.inj (Option.some.inj hhash)) (by decide +kernel)

end Wasapi.Http
