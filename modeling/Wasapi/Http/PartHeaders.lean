import Wasapi.Http.Cookies
import Wasapi.Http.Multipart

/-!
# The headers of a part

A name in quotes may contain a semicolon, but the content disposition is cut at every semicolon
before the quotes are looked at. The pieces of such a name have one quote each at most, and a value
that does not both begin and end with a quote sets nothing. So the name is lost, and if it is the
name of a file, the file is stored as a field.
-/

namespace Wasapi.Http

open Websockets Json

/-! ## Parts with names in quotes

Everything the standard allows between quotes is allowed here, semicolons included. Other header
lines and blanks may stand around the content disposition. -/

/-- What may stand between quotes. -/
structure QuotedText where
  text : Bytes
  no_quote : (34 : UInt8) ∉ text
  no_cr : (13 : UInt8) ∉ text
  no_lf : (10 : UInt8) ∉ text

structure QuotedFilename where
  /-- the spaces and tabs behind the semicolon -/
  before : Blanks
  filename : QuotedText
  filename_ne : filename.text ≠ []

/-- A line with another name than the content disposition has. -/
structure OtherLine where
  text : Bytes
  text_ne : text ≠ []
  no_cr : (13 : UInt8) ∉ text
  other : ∀ name value, text = name ++ 58 :: value → (58 : UInt8) ∉ name →
    name.map toLower ≠ ascii "content-disposition"

structure DispositionPart where
  linesBefore : List OtherLine := []
  headerName : Bytes := ascii "Content-Disposition"
  headerName_lower : headerName.map toLower = ascii "content-disposition"
  afterColon : Blanks
  beforeName : Blanks
  name : QuotedText
  file : Option QuotedFilename := none
  linesAfter : List OtherLine := []
  content : Bytes

namespace DispositionPart

variable (p : DispositionPart)

def disposition : Bytes :=
  ascii "form-data" ++ 59 :: (quoted (p.beforeName.text ++ ascii "name") p.name.text ++
    match p.file with
    | none => []
    | some file => 59 :: quoted (file.before.text ++ ascii "filename") file.filename.text)

def line : Bytes := p.headerName ++ 58 :: (p.afterColon.text ++ p.disposition)

def headers : Bytes :=
  crlf.intercalate (p.linesBefore.map OtherLine.text ++ p.line :: p.linesAfter.map OtherLine.text)

/-- What the headers are read as. -/
def head : PartHead := readHeaders p.headers.length p.headers {}

def filename : Bytes := (p.file.elim [] fun file ↦ file.filename.text)

end DispositionPart

/-- What is left of a name in quotes. -/
def kept (name : Bytes) : Bytes := if 59 ∈ name then [] else name

private theorem kept_eq_self {name : Bytes} (h : 59 ∉ name) : kept name = name := if_neg h

private theorem not_mem_kept (name : Bytes) : 59 ∉ kept name := by
  rw [kept]
  split
  · exact List.not_mem_nil
  · next h => exact h

private theorem trimSpaces_blanks_append (blanks : Blanks) {s : Bytes} (h : Trimmed isBlank s) :
    trimSpaces (blanks.text ++ s) = s := by
  have hblank : ∀ b ∈ blanks.text, isBlank b = true := by
    intro b hb
    rcases blanks.blank b hb with rfl | rfl
    · rfl
    · rfl
  have htrim := trim_append hblank (r := []) (fun b hb ↦ (nomatch hb)) h
  rwa [List.append_nil] at htrim

private theorem OtherLine.readHeader_names (other : OtherLine) (head : PartHead) :
    (readHeader other.text head).fieldName = head.fieldName ∧
      (readHeader other.text head).filename = head.filename := by
  by_cases hmem : 58 ∈ other.text
  · obtain ⟨name, value, htext, hname⟩ := List.eq_append_cons_of_mem hmem
    have hfound : findPattern [58] other.text = some name.length := by
      rw [htext]
      exact findPattern_behind hname (List.prefix_append [58] value)
    rw [readHeader, hfound]
    simp only
    rw [htext, List.take_left, if_neg (other.other name value htext hname)]
    split
    · exact ⟨rfl, rfl⟩
    · exact ⟨rfl, rfl⟩
  · rw [readHeader, findPattern_eq_none hmem]
    exact ⟨rfl, rfl⟩

private theorem foldl_readHeader_names (others : List OtherLine) (head : PartHead) :
    ((others.map OtherLine.text).foldl (fun head line ↦ readHeader line head) head).fieldName =
        head.fieldName ∧
      ((others.map OtherLine.text).foldl (fun head line ↦ readHeader line head) head).filename =
        head.filename := by
  induction others generalizing head with
  | nil => exact ⟨rfl, rfl⟩
  | cons other others ih =>
    obtain ⟨hfieldName, hfilename⟩ := ih (readHeader other.text head)
    obtain ⟨hfieldName', hfilename'⟩ := other.readHeader_names head
    exact ⟨hfieldName.trans hfieldName', hfilename.trans hfilename'⟩

/-- An attribute in front of which there may be blanks. -/
theorem foldl_readPiece_blanks (blanks : Blanks) {attr : Bytes}
    (hattr : 61 ∉ attr ∧ 59 ∉ attr ∧ 34 ∉ attr) (htrimmed : Trimmed isBlank attr)
    (value : QuotedText) (head : PartHead) :
    ((quoted (blanks.text ++ attr) value.text).splitOn 59).foldl readPiece head =
      if 59 ∈ value.text then head else head.setAttribute attr value.text := by
  have hmem {b : UInt8} (hb : b ≠ 32 ∧ b ≠ 9) (hb' : b ∉ attr) : b ∉ blanks.text ++ attr := by
    rw [List.mem_append, not_or]
    exact ⟨blanks.not_mem hb, hb'⟩
  rw [foldl_readPiece_quoted (hmem (by decide) hattr.1) (hmem (by decide) hattr.2.1)
    (hmem (by decide) hattr.2.2) value.no_quote, trimSpaces_blanks_append blanks htrimmed]

namespace DispositionPart

variable (p : DispositionPart)

theorem readDisposition_disposition {head : PartHead} (hfieldName : head.fieldName = [])
    (hfilename : head.filename = []) :
    (readDisposition p.disposition.length p.disposition head).fieldName = kept p.name.text ∧
      (readDisposition p.disposition.length p.disposition head).filename = kept p.filename := by
  have hname : 61 ∉ ascii "name" ∧ 59 ∉ ascii "name" ∧ 34 ∉ ascii "name" := by decide
  have hfile : 61 ∉ ascii "filename" ∧ 59 ∉ ascii "filename" ∧ 34 ∉ ascii "filename" := by decide
  rw [readDisposition_eq le_rfl, disposition, List.splitOn_append_cons_self, List.foldl_append,
    foldl_readPiece_formData, filename]
  cases p.file with
  | none =>
    simp only [Option.elim_none]
    rw [List.append_nil, foldl_readPiece_blanks _ hname (by decide), kept]
    split
    · exact ⟨hfieldName, hfilename⟩
    · exact ⟨rfl, hfilename⟩
  | some file =>
    simp only [Option.elim_some]
    rw [List.splitOn_append_cons_self, List.foldl_append,
      foldl_readPiece_blanks _ hname (by decide), foldl_readPiece_blanks _ hfile (by decide), kept,
      kept]
    by_cases hsemicolon : 59 ∈ p.name.text
    · rw [if_pos hsemicolon, if_pos hsemicolon]
      split
      · exact ⟨hfieldName, hfilename⟩
      · exact ⟨hfieldName, rfl⟩
    · rw [if_neg hsemicolon, if_neg hsemicolon]
      split
      · exact ⟨rfl, hfilename⟩
      · exact ⟨rfl, rfl⟩

private theorem trimmed_disposition : Trimmed isBlank p.disposition := by
  constructor
  · intro b hb
    obtain rfl : b = 102 := (Option.some.inj hb).symm
    rfl
  · intro b hb
    have hsuffix : [34] <:+ p.disposition := by
      have hquoted (attr value : Bytes) : [34] <:+ quoted attr value :=
        ⟨attr ++ 61 :: 34 :: value, by rw [quoted, List.append_assoc]; rfl⟩
      rw [disposition]
      refine List.IsSuffix.trans ?_ ((List.suffix_cons 59 _).trans (List.suffix_append _ _))
      cases p.file with
      | none =>
        rw [List.append_nil]
        exact hquoted _ _
      | some file =>
        exact (hquoted _ _).trans ((List.suffix_cons 59 _).trans (List.suffix_append _ _))
    obtain ⟨s, hs⟩ := hsuffix
    rw [← hs, List.getLast?_concat] at hb
    obtain rfl : b = 34 := (Option.some.inj hb).symm
    rfl

private theorem not_mem_headerName {b : UInt8} (hb : toLower b ∉ ascii "content-disposition") :
    b ∉ p.headerName := by
  rw [← p.headerName_lower] at hb
  exact fun hmem ↦ hb (List.mem_map_of_mem hmem)

/-- The names in the line are read, as far as they have no semicolon. -/
theorem readHeader_line {head : PartHead} (hfieldName : head.fieldName = [])
    (hfilename : head.filename = []) :
    (readHeader p.line head).fieldName = kept p.name.text ∧
      (readHeader p.line head).filename = kept p.filename := by
  have hcolon : 58 ∉ p.headerName := p.not_mem_headerName (by decide)
  have hfound : findPattern [58] p.line = some p.headerName.length :=
    findPattern_behind hcolon (List.prefix_append [58] _)
  have hvalue : p.line.drop (p.headerName.length + 1) = p.afterColon.text ++ p.disposition := by
    rw [line, List.drop_length_add_append, List.drop_one, List.tail_cons]
  have hname : p.line.take p.headerName.length = p.headerName := by rw [line, List.take_left]
  rw [readHeader, hfound]
  simp only
  rw [hname, if_pos p.headerName_lower, hvalue,
    trimSpaces_blanks_append p.afterColon p.trimmed_disposition]
  exact p.readDisposition_disposition hfieldName hfilename

private theorem not_mem_line : (13 : UInt8) ∉ p.line := by
  have hheaderName : 13 ∉ p.headerName := p.not_mem_headerName (by decide)
  have hquoted (blanks : Blanks) {attr : Bytes} (hattr : 13 ∉ attr) (value : QuotedText) :
      13 ∉ quoted (blanks.text ++ attr) value.text := by
    simp only [quoted, List.mem_append, List.mem_cons, List.not_mem_nil, hattr, value.no_cr,
      blanks.not_mem (by decide : (13 : UInt8) ≠ 32 ∧ (13 : UInt8) ≠ 9), not_or, or_false,
      not_false_eq_true, true_and]
    decide
  have hblanks : 13 ∉ p.afterColon.text := p.afterColon.not_mem (by decide)
  have hfirst : (13 : UInt8) ∉ ascii "form-data" := by decide
  have hcolon : (13 : UInt8) ≠ 58 := by decide
  have hsemicolon : (13 : UInt8) ≠ 59 := by decide
  simp only [line, disposition, List.mem_append, List.mem_cons, not_or]
  refine ⟨hheaderName, hcolon, hblanks, hfirst, hsemicolon, hquoted _ (by decide) _, ?_⟩
  cases p.file with
  | none => exact List.not_mem_nil
  | some file =>
    rw [List.mem_cons, not_or]
    exact ⟨hsemicolon, hquoted _ (by decide) _⟩

private theorem areLines_headers :
    AreLines (p.linesBefore.map OtherLine.text ++ p.line :: p.linesAfter.map OtherLine.text) := by
  have hothers (others : List OtherLine) : AreLines (others.map OtherLine.text) := by
    intro text htext
    obtain ⟨other, -, rfl⟩ := List.mem_map.mp htext
    exact ⟨other.text_ne, other.no_cr⟩
  intro text htext
  rcases List.mem_append.mp htext with htext | htext
  · exact hothers _ text htext
  rcases List.mem_cons.mp htext with rfl | htext
  · exact ⟨List.append_ne_nil_of_right_ne_nil _ (List.cons_ne_nil 58 _), p.not_mem_line⟩
  · exact hothers _ text htext

/-- **The other lines do not matter.** -/
theorem head_names : p.head.fieldName = kept p.name.text ∧ p.head.filename = kept p.filename := by
  obtain ⟨hfieldName, hfilename⟩ := foldl_readHeader_names p.linesBefore {}
  obtain ⟨hfieldName', hfilename'⟩ := p.readHeader_line hfieldName hfilename
  rw [head, headers, readHeaders_intercalate p.areLines_headers le_rfl, List.foldl_append,
    List.foldl_cons]
  obtain ⟨hafter, hafter'⟩ := foldl_readHeader_names p.linesAfter (readHeader p.line
    ((p.linesBefore.map OtherLine.text).foldl (fun head line ↦ readHeader line head) {}))
  exact ⟨hafter.trans hfieldName', hafter'.trans hfilename'⟩

/-- What the loop over the parts stores. -/
def stored : PartHead × Bytes := (p.head, trimContent p.content)

def isFile : Bool := p.file.isSome

private theorem filename_eq_nil_iff : p.filename = [] ↔ p.file = none := by
  rw [filename]
  cases p.file with
  | none => exact iff_of_true rfl rfl
  | some file => exact iff_of_false file.filename_ne (Option.some_ne_none file)

def NoSemicolon : Prop := 59 ∉ p.name.text ∧ 59 ∉ p.filename

/-- The file has the names of the part. -/
def IsNamedBy (file : DynamicVariable) : Prop :=
  file.find (ascii "field_name") = some (.string p.name.text) ∧
    file.find (ascii "filename") = some (.string p.filename)

end DispositionPart

/-! ## The parts that are recorded

A name that is lost makes a field disappear and turns a file into a field. Either can be told from
what the function leaves, so the condition is exact. -/

def encodeDispositions (delim : Bytes) (parts : List DispositionPart) (epilogue : Bytes) : Bytes :=
  encodeBody delim (parts.map fun p ↦ (p.headers, p.content)) epilogue

/-- The content of the last part that has this name and no filename. -/
def lastContent (parts : List DispositionPart) (name : Bytes) : Option Bytes :=
  ((parts.filter fun p ↦ p.file = none ∧ p.name.text = name).getLast?).map DispositionPart.content

/-- **Every part is recorded**: as a file under its names, or as a field under its name. -/
structure AllRecorded (parts : List DispositionPart) (r : Bool × FormData) : Prop where
  returns : r.1 = true
  fields : ∀ name, r.2.formFields.lookup name = (lastContent parts name).map trimContent
  files : ∃ files, r.2.files = .array files ∧
    List.Forall₂ DispositionPart.IsNamedBy (parts.filter DispositionPart.isFile) files

private theorem find_names_fileVariable (head : PartHead) (content tempPath : Bytes) (written : ℕ) :
    (fileVariable head content tempPath written).find (ascii "field_name") =
        some (.string head.fieldName) ∧
      (fileVariable head content tempPath written).find (ascii "filename") =
        some (.string head.filename) := by
  have hnames (k : Bytes) (htype : k ≠ ascii "content_type") (hpath : k ≠ ascii "temp_path")
      (hsize : k ≠ ascii "size") (hexpected : k ≠ ascii "expected_size")
      (hhash : k ≠ ascii "hash_fnv1a64") (hshort : k ≠ ascii "partial") :
      (fileVariable head content tempPath written).find k =
        (((DynamicVariable.object []).assign (ascii "field_name") (.string head.fieldName)).assign
          (ascii "filename") (.string head.filename)).find k := by
    rw [fileVariable]
    by_cases hwritten : written = content.length <;> by_cases hctype : head.ctype = [] <;>
    simp only [hwritten, hctype, if_true, if_false,
      DynamicVariable.find_assign_of_ne _ _ htype, DynamicVariable.find_assign_of_ne _ _ hpath,
      DynamicVariable.find_assign_of_ne _ _ hsize,
      DynamicVariable.find_assign_of_ne _ _ hexpected,
      DynamicVariable.find_assign_of_ne _ _ hhash,
      DynamicVariable.find_assign_of_ne _ _ hshort]
  constructor
  · rw [hnames _ (by decide) (by decide) (by decide) (by decide) (by decide) (by decide),
      DynamicVariable.find_assign_of_ne _ _ (by decide), DynamicVariable.find_assign_self]
  · rw [hnames _ (by decide) (by decide) (by decide) (by decide) (by decide) (by decide),
      DynamicVariable.find_assign_self]

theorem DispositionPart.fileParts_map_stored (parts : List DispositionPart) :
    fileParts (parts.map stored) = (parts.filter fun p ↦ kept p.filename ≠ []).map stored := by
  rw [fileParts, List.filter_map]
  refine congrArg (List.map _) (List.filter_congr fun p _ ↦ ?_)
  rw [← p.head_names.2]
  rfl

/-- No field has a name with a semicolon. -/
theorem DispositionPart.lastField_eq_none {name : Bytes} (hname : 59 ∈ name)
    (parts : List DispositionPart) : lastField (parts.map stored) name = none := by
  rw [lastField, Option.map_eq_none_iff, List.getLast?_eq_none_iff, List.filter_eq_nil_iff]
  intro q hq hfield
  obtain ⟨p, -, rfl⟩ := List.mem_map.mp hq
  have heq : p.head.fieldName = name := (decide_eq_true_iff.mp hfield).2
  rw [← heq, p.head_names.1] at hname
  exact not_mem_kept _ hname

/-- Without semicolons the fields are those of the parts. -/
theorem DispositionPart.lastField_map_stored {parts : List DispositionPart}
    (h : ∀ p ∈ parts, p.NoSemicolon) (name : Bytes) :
    lastField (parts.map stored) name = (lastContent parts name).map trimContent := by
  have hfilter : (parts.filter ((fun q : PartHead × Bytes ↦
      decide (q.1.filename = [] ∧ q.1.fieldName = name)) ∘ stored)) =
        parts.filter fun p ↦ p.file = none ∧ p.name.text = name := by
    refine List.filter_congr fun p hp ↦ decide_eq_decide.mpr ?_
    rw [stored, p.head_names.1, p.head_names.2, kept_eq_self (h p hp).1, kept_eq_self (h p hp).2,
      p.filename_eq_nil_iff]
  rw [lastField, List.filter_map, hfilter, List.getLast?_map, lastContent, Option.map_map,
    Option.map_map]
  rfl

section

variable {temp : TempFiles} {uploadDir : Bytes}

/-- A list of files with all names shows that no name had a semicolon. -/
theorem DispositionPart.of_forall₂_isNamedBy {parts : List DispositionPart}
    (h : List.Forall₂ IsNamedBy (parts.filter isFile)
      (listedFiles temp uploadDir 0 (fileParts (parts.map stored)))) :
    (∀ p ∈ parts, p.isFile = true → p.NoSemicolon) ∧
      ∀ k < (parts.filter isFile).length, (temp.mkstemp k (uploadPattern uploadDir)).isSome := by
  have hle := length_listedFiles_le temp uploadDir 0 (fileParts (parts.map stored))
  rw [← h.length_eq, fileParts_map_stored, List.length_map] at hle
  -- what is stored as a file is a file
  have hsub : (parts.filter fun p ↦ kept p.filename ≠ []).Sublist (parts.filter isFile) := by
    refine List.monotone_filter_right parts fun p hp ↦ ?_
    rw [isFile, Option.isSome_iff_ne_none, Ne, ← p.filename_eq_nil_iff]
    intro hnil
    rw [hnil] at hp
    exact absurd hp (by decide)
  have hall := hsub.eq_of_length_le hle
  rw [fileParts_map_stored, hall] at h
  obtain ⟨hmade, hnamed⟩ := of_forall₂_listedFiles h
  refine ⟨fun p hp hfile ↦ ?_, fun k hk ↦ Nat.zero_add k ▸ hmade k hk⟩
  have hmem : p ∈ parts.filter isFile := List.mem_filter.mpr ⟨hp, hfile⟩
  obtain ⟨tempPath, written, hname, -⟩ := hnamed p hmem
  constructor
  · have hkept : kept p.name.text = p.name.text := by
      rw [(find_names_fileVariable _ _ tempPath written).1, Option.some.injEq,
        DynamicVariable.string.injEq] at hname
      exact p.head_names.1.symm.trans hname
    exact hkept ▸ not_mem_kept _
  · intro hsemicolon
    rw [← hall, List.mem_filter] at hmem
    exact of_decide_eq_true hmem.2 (if_pos hsemicolon)

/-- A field whose name has a semicolon is missing. -/
theorem DispositionPart.not_mem_of_fields {parts : List DispositionPart}
    (h : ∀ name, (lastField (parts.map stored) name) = (lastContent parts name).map trimContent)
    {p : DispositionPart} (hp : p ∈ parts) (hfile : p.file = none) : 59 ∉ p.name.text := by
  intro hsemicolon
  have hnone := h p.name.text
  rw [lastField_eq_none hsemicolon, eq_comm, Option.map_eq_none_iff, lastContent,
    Option.map_eq_none_iff, List.getLast?_eq_none_iff, List.filter_eq_nil_iff] at hnone
  exact hnone p hp (decide_eq_true ⟨hfile, rfl⟩)

/-- Without semicolons every file has its names. -/
theorem DispositionPart.forall₂_isNamedBy {parts : List DispositionPart}
    (h : ∀ p ∈ parts, p.NoSemicolon)
    (hmade : ∀ k < (parts.filter isFile).length,
      (temp.mkstemp k (uploadPattern uploadDir)).isSome) :
    List.Forall₂ IsNamedBy (parts.filter isFile)
      (listedFiles temp uploadDir 0 (fileParts (parts.map stored))) := by
  have hfilter : (parts.filter fun p ↦ kept p.filename ≠ []) = parts.filter isFile := by
    refine List.filter_congr fun p hp ↦ ?_
    rw [kept_eq_self (h p hp).2, isFile, Bool.eq_iff_iff, decide_eq_true_iff,
      Option.isSome_iff_ne_none, Ne, p.filename_eq_nil_iff]
  rw [fileParts_map_stored, hfilter]
  refine forall₂_listedFiles (fun p hp tempPath written ↦ ?_) fun k hk ↦
    (Nat.zero_add k).symm ▸ hmade k hk
  obtain ⟨hname, hfilename⟩ := h p (List.mem_of_mem_filter hp)
  obtain ⟨hfieldName, hfile⟩ := find_names_fileVariable p.head (trimContent p.content) tempPath
    written
  rw [p.head_names.1, kept_eq_self hname] at hfieldName
  rw [p.head_names.2, kept_eq_self hfilename] at hfile
  exact ⟨hfieldName, hfile⟩

private theorem extractFiles_encodeDispositions {boundary : Bytes} (hboundary : boundary ≠ [])
    {parts : List DispositionPart} (h : ∀ p ∈ parts, Delimited (delimiter boundary) p.content)
    (epilogue : Bytes) (formFields : AList fun _ : Bytes ↦ Bytes) (files : DynamicVariable) :
    extractFilesFromFormdata temp uploadDir
        (encodeDispositions (delimiter boundary) parts epilogue) boundary formFields files =
      (true, storeAll temp uploadDir (parts.map DispositionPart.stored)
        { formFields := formFields, files := .array [] }) := by
  have hends : ∀ q ∈ parts.map fun p ↦ (p.headers, p.content),
      HeadersEnd q.1 ∧ Delimited (delimiter boundary) q.2 := by
    intro q hq
    obtain ⟨p, hp, rfl⟩ := List.mem_map.mp hq
    exact ⟨headersEnd_intercalate p.areLines_headers, h p hp⟩
  rw [extractFilesFromFormdata, if_neg hboundary, encodeDispositions,
    partLoop_encodeBody hends epilogue (length_lt_length_encodeBody _ _ epilogue), List.map_map]
  rfl

/-- **Exactly when every part is recorded.** No name has a semicolon, and there is a temporary file
for every file. -/
theorem allRecorded_extractFiles_iff {boundary : Bytes} (hboundary : boundary ≠ [])
    {parts : List DispositionPart} (h : ∀ p ∈ parts, Delimited (delimiter boundary) p.content)
    (epilogue : Bytes) (files : DynamicVariable) :
    AllRecorded parts (extractFilesFromFormdata temp uploadDir
        (encodeDispositions (delimiter boundary) parts epilogue) boundary ∅ files) ↔
      (∀ p ∈ parts, p.NoSemicolon) ∧
        ∀ k < (parts.filter DispositionPart.isFile).length,
          (temp.mkstemp k (uploadPattern uploadDir)).isSome := by
  rw [extractFiles_encodeDispositions hboundary h]
  set s : FormData := { formFields := ∅, files := .array [] }
  have hlookup (name : Bytes) :
      (storeAll temp uploadDir (parts.map DispositionPart.stored) s).formFields.lookup name =
        lastField (parts.map DispositionPart.stored) name := by
    rw [lookup_storeAll, AList.lookup_empty, Option.or_none]
  have hfiles : (storeAll temp uploadDir (parts.map DispositionPart.stored) s).files =
      .array (listedFiles temp uploadDir 0 (fileParts (parts.map DispositionPart.stored))) := by
    rw [files_storeAll _ (rfl : s.files = .array []), List.nil_append]
  constructor
  · intro hrecorded
    obtain ⟨listed, heq, hnamed⟩ := hrecorded.files
    obtain rfl := DynamicVariable.array.inj (hfiles.symm.trans heq)
    obtain ⟨hfile, hmade⟩ := DispositionPart.of_forall₂_isNamedBy hnamed
    refine ⟨fun p hp ↦ ?_, hmade⟩
    cases hp' : p.file with
    | none =>
      refine ⟨DispositionPart.not_mem_of_fields (fun name ↦ ?_) hp hp', ?_⟩
      · exact (hlookup name).symm.trans (hrecorded.fields name)
      · rw [p.filename_eq_nil_iff.mpr hp']
        exact List.not_mem_nil
    | some file => exact hfile p hp (Option.isSome_iff_exists.mpr ⟨file, hp'⟩)
  · rintro ⟨hsemicolon, hmade⟩
    refine ⟨rfl, fun name ↦ ?_, _, hfiles, DispositionPart.forall₂_isNamedBy hsemicolon hmade⟩
    exact (hlookup name).trans (DispositionPart.lastField_map_stored hsemicolon name)

end

def oneSpace : Blanks where
  text := [32]
  blank _ hb := .inl (List.mem_singleton.mp hb)

def contentType : OtherLine where
  text := ascii "Content-Type: image/png"
  text_ne := by decide
  no_cr := by decide
  other name value htext hname hlower := by
    -- the name ends at the first colon, so it has another length
    have hfound := findPattern_behind hname (List.prefix_append [58] value)
    have hcolon : findPattern [58] (ascii "Content-Type: image/png") = some 12 := by decide
    have hlength : name.length = 19 := by
      rw [← List.length_map toLower, hlower]
      rfl
    rw [List.singleton_append, ← htext, hcolon, hlength] at hfound
    exact absurd hfound (by decide)

/-- A file, with a tab in front of its filename and another line in front of it all. -/
def photo : DispositionPart where
  linesBefore := [contentType]
  headerName := ascii "content-DISPOSITION"
  headerName_lower := by decide
  afterColon := oneSpace
  beforeName := oneSpace
  name := { text := ascii "photo", no_quote := by decide, no_cr := by decide, no_lf := by decide }
  file := some {
    before := { text := [9], blank := fun _ hb ↦ .inr (List.mem_singleton.mp hb) }
    filename := {
      text := ascii "a = b.png"
      no_quote := by decide
      no_cr := by decide
      no_lf := by decide }
    filename_ne := by decide }
  content := ascii "data"

/-- A field with a semicolon in its name. -/
def pairField : DispositionPart where
  headerName_lower := by decide
  afterColon := oneSpace
  beforeName := oneSpace
  name := { text := ascii "a;b", no_quote := by decide, no_cr := by decide, no_lf := by decide }
  content := ascii "x"

/-- A file with a semicolon in its filename. -/
def pairFile : DispositionPart where
  headerName_lower := by decide
  afterColon := oneSpace
  beforeName := oneSpace
  name := { text := ascii "photo", no_quote := by decide, no_cr := by decide, no_lf := by decide }
  file := some {
    before := oneSpace
    filename := {
      text := ascii "a;b.png"
      no_quote := by decide
      no_cr := by decide
      no_lf := by decide }
    filename_ne := by decide }
  content := ascii "data"

/-- What is made of a body with this part only. -/
def extractDisposition (p : DispositionPart) : Bool × FormData :=
  extractFilesFromFormdata writable (ascii "/tmp")
    (encodeDispositions (delimiter (ascii "X")) [p] (ascii "\r\n")) (ascii "X") ∅ .null

theorem allRecorded_extractFiles_iff_photo : AllRecorded [photo] (extractDisposition photo) := by
  have hboundary : ascii "X" ≠ [] := List.cons_ne_nil _ _
  rw [extractDisposition, allRecorded_extractFiles_iff hboundary]
  · constructor
    · intro p hp
      rw [List.mem_singleton.mp hp]
      exact ⟨by decide, by decide⟩
    · intro k _
      rfl
  · intro p hp
    rw [List.mem_singleton.mp hp]
    rfl

/-- The field has no name then, and the file is a field. -/
theorem not_allRecorded_extractDisposition :
    ¬AllRecorded [pairField] (extractDisposition pairField) ∧
      ¬AllRecorded [pairFile] (extractDisposition pairFile) := by
  constructor
  · intro h
    exact absurd (h.fields (ascii "a;b")) (by decide +kernel)
  · intro h
    exact absurd (h.fields (ascii "photo")) (by decide +kernel)

end Wasapi.Http
