import Wasapi.Http.PartLoop
import Wasapi.Library.Pieces

/-!
# Content dispositions

The loops over the lines of the headers and over the content disposition. The latter is cut at every
semicolon before the quotes are looked at, so the loop works on the pieces one after the other, and
a value in quotes that has a semicolon falls into pieces with one quote each at most.
-/

namespace Wasapi.Http

open Websockets Json

/-! ## The pieces of a content disposition

A piece sets an attribute if it has an opening and a closing quote behind its `=`. A value with a
semicolon in it is cut into pieces with one quote each at most, so it sets nothing. -/

/-- What a piece sets. -/
def readPiece (head : PartHead) (piece : Bytes) : PartHead :=
  readAttribute piece piece.length head

/-- What follows the semicolon does not matter. -/
theorem readAttribute_append (piece rest : Bytes) (head : PartHead) :
    readAttribute (piece ++ rest) piece.length head = readPiece head piece := by
  rw [readPiece, readAttribute, readAttribute]
  by_cases hmem : 61 ∈ piece
  · obtain ⟨attr, value, rfl, hattr⟩ := List.eq_append_cons_of_mem hmem
    have hi : findPattern [61] (attr ++ 61 :: value) = some attr.length :=
      findPattern_behind hattr (List.prefix_append [61] value)
    have htake : (attr ++ 61 :: value ++ rest).take attr.length =
        (attr ++ 61 :: value).take attr.length := by
      rw [List.append_assoc, List.take_left, List.take_left]
    rw [findPattern_append hi rest, hi]
    simp only
    rw [htake, List.take_left, List.take_length]
  · -- an equals sign behind the semicolon is none of this piece
    rw [findPattern_append_of_not_mem hmem, findPattern_eq_none hmem]
    cases findPattern [61] rest with
    | none => rfl
    | some eqp => exact if_neg (Nat.not_lt.mpr (Nat.le_add_left _ _))

theorem readDisposition_eq {fuel : ℕ} {rest : Bytes} (hfuel : rest.length ≤ fuel)
    (head : PartHead) :
    readDisposition fuel rest head = (rest.splitOn 59).foldl readPiece head := by
  induction fuel generalizing rest head with
  | zero =>
    obtain rfl := List.length_eq_zero_iff.mp (Nat.le_zero.mp hfuel)
    rfl
  | succ fuel ih =>
    rw [readDisposition]
    rcases piece_cases 59 rest with ⟨hfind, hsplit⟩ | ⟨piece, tail, rfl, hfind, hsplit⟩
    · rw [hfind, hsplit]
      rfl
    · have hdrop : (piece ++ 59 :: tail).drop (piece.length + 1) = tail := by
        rw [List.drop_length_add_append, List.drop_one, List.tail_cons]
      rw [List.length_append, List.length_cons] at hfuel
      rw [hfind, hsplit, List.foldl_cons]
      simp only
      rw [hdrop, readAttribute_append, ih (by omega)]

/-- A piece with one quote at most sets nothing. -/
theorem readPiece_of_count_le {piece : Bytes} (h : piece.count 34 ≤ 1) (head : PartHead) :
    readPiece head piece = head := by
  rw [readPiece, readAttribute]
  split
  · rfl
  · next eqp _ =>
    split
    · have hsub : ((((piece.take piece.length).drop (eqp + 1)).dropWhile isBlank).Sublist piece) :=
        (List.dropWhile_suffix _).sublist.trans
          ((List.drop_sublist _ _).trans (List.take_sublist _ _))
      simp only
      refine if_neg ?_
      rintro ⟨hfirst, hlength, hlast⟩
      -- both quotes are in the piece
      generalize ((piece.take piece.length).drop (eqp + 1)).dropWhile isBlank = value at *
      obtain ⟨value, rfl⟩ := List.head?_eq_some_iff.mp hfirst
      have hne : value ≠ [] := List.ne_nil_of_length_pos (Nat.lt_of_succ_lt_succ hlength)
      have hmem : 34 ∈ value := by
        rw [List.getLast?_cons_of_ne_nil hne] at hlast
        exact List.mem_of_getLast? hlast
      have hcount := hsub.count_le 34
      rw [List.count_cons_self] at hcount
      have hpos := List.count_pos_iff.mpr hmem
      omega
    · rfl

/-- What a quoted value is read as. -/
def PartHead.setAttribute (attr value : Bytes) (head : PartHead) : PartHead :=
  if attr = ascii "name" then { head with fieldName := value }
  else if attr = ascii "filename" then { head with filename := value }
  else head

/-- An attribute with its value in quotes. -/
def quoted (attr value : Bytes) : Bytes := attr ++ 61 :: 34 :: (value ++ [34])

private theorem readPiece_quoted {attr : Bytes} (hattr : 61 ∉ attr) (value : Bytes)
    (head : PartHead) :
    readPiece head (quoted attr value) = head.setAttribute (trimSpaces attr) value := by
  have hfound : findPattern [61] (quoted attr value) = some attr.length :=
    findPattern_behind hattr (List.prefix_append [61] _)
  have hlt : attr.length < (quoted attr value).length := by
    rw [quoted, List.length_append, List.length_cons]
    omega
  have hname : (quoted attr value).take attr.length = attr := by rw [quoted, List.take_left]
  have hvalue : (quoted attr value).drop (attr.length + 1) = 34 :: (value ++ [34]) := by
    rw [quoted, List.drop_length_add_append]
    rfl
  rw [readPiece, readAttribute, hfound]
  simp only
  rw [if_pos hlt, hname, List.take_length, hvalue, List.dropWhile_cons_of_neg (by decide),
    List.tail_cons, List.dropLast_concat, if_pos, PartHead.setAttribute]
  refine ⟨rfl, ?_, ?_⟩
  · rw [List.length_cons, List.length_append, List.length_singleton]
    omega
  · rw [← List.cons_append, List.getLast?_concat]

/-- The first piece is no assignment. -/
theorem foldl_readPiece_formData (head : PartHead) :
    ((ascii "form-data").splitOn 59).foldl readPiece head = head := by
  have hmem : 59 ∉ ascii "form-data" := by decide
  have hcount : (ascii "form-data").count 34 ≤ 1 := by decide
  rw [List.splitOn_eq_singleton hmem]
  exact readPiece_of_count_le hcount head

/-- **An attribute is set if there is no semicolon in its value.** Otherwise nothing happens. -/
theorem foldl_readPiece_quoted {attr : Bytes} (heq : 61 ∉ attr) (hsemicolon : 59 ∉ attr)
    (hquote : 34 ∉ attr) {value : Bytes} (hvalue : 34 ∉ value) (head : PartHead) :
    ((quoted attr value).splitOn 59).foldl readPiece head =
      if 59 ∈ value then head else head.setAttribute (trimSpaces attr) value := by
  by_cases hmem : 59 ∈ value
  · rw [if_pos hmem]
    obtain ⟨front, back, rfl, hfront⟩ := List.eq_append_cons_of_mem hmem
    have hsplit : quoted attr (front ++ 59 :: back) =
        (attr ++ 61 :: 34 :: front) ++ 59 :: (back ++ [34]) := by
      simp only [quoted, List.append_assoc, List.cons_append]
    have hfrontQuote : 34 ∉ front := fun h ↦ hvalue (List.mem_append_left _ h)
    have hbackQuote : 34 ∉ back := fun h ↦ hvalue (List.mem_append_right _ (.tail _ h))
    have hfirst : (attr ++ 61 :: 34 :: front).count 34 = 1 := by
      rw [List.count_append, List.count_eq_zero_of_not_mem hquote,
        List.count_cons_of_ne (by decide), List.count_cons_self,
        List.count_eq_zero_of_not_mem hfrontQuote]
    have hlast : (back ++ [34]).count 34 = 1 := by
      rw [List.count_append, List.count_eq_zero_of_not_mem hbackQuote, List.count_singleton_self]
    have hinert : ∀ piece ∈ (quoted attr (front ++ 59 :: back)).splitOn 59,
        piece.count 34 ≤ 1 := by
      intro piece hpiece
      rw [hsplit, List.splitOn_append_cons_self, List.mem_append] at hpiece
      rcases hpiece with hpiece | hpiece
      · exact ((sublist_of_mem_splitOn hpiece).count_le 34).trans hfirst.le
      · exact ((sublist_of_mem_splitOn hpiece).count_le 34).trans hlast.le
    exact (List.foldl_ext readPiece (fun head _ ↦ head) head fun head piece hpiece ↦
      readPiece_of_count_le (hinert piece hpiece) head).trans (List.foldl_fixed _)
  · have hone : 59 ∉ quoted attr value := by
      simp only [quoted, List.mem_append, List.mem_cons, List.not_mem_nil, hsemicolon, hmem,
        not_or, not_false_eq_true, and_true, true_and]
      decide
    rw [if_neg hmem, List.splitOn_eq_singleton hone]
    exact readPiece_quoted heq value head

/-! ## The lines of the headers

The headers end at the first empty line. Lines without carriage returns, joined by line breaks, have
no such place before their end. -/

/-- Lines that have no carriage return and are not empty. -/
def AreLines (lines : List Bytes) : Prop := ∀ line ∈ lines, line ≠ [] ∧ (13 : UInt8) ∉ line

private theorem readHeaders_nil (fuel : ℕ) (head : PartHead) : readHeaders fuel [] head = head := by
  cases fuel with
  | zero => rfl
  | succ fuel => rfl

theorem readHeaders_intercalate {lines : List Bytes} (h : AreLines lines) {fuel : ℕ}
    (hfuel : (crlf.intercalate lines).length ≤ fuel) (head : PartHead) :
    readHeaders fuel (crlf.intercalate lines) head =
      lines.foldl (fun head line ↦ readHeader line head) head := by
  induction lines generalizing fuel head with
  | nil => exact readHeaders_nil fuel head
  | cons line lines ih =>
    obtain ⟨hne, hcr⟩ := h line List.mem_cons_self
    have hpos := List.length_pos_of_ne_nil hne
    cases lines with
    | nil =>
      rw [List.intercalate_singleton] at hfuel ⊢
      obtain ⟨fuel, rfl⟩ := Nat.exists_eq_add_one_of_ne_zero (hpos.trans_le hfuel).ne'
      have hfound : findPattern crlf line = none := findPattern_eq_none hcr
      rw [readHeaders, hfound, Option.getD_none, List.take_length, if_neg hne,
        List.drop_eq_nil_of_le (Nat.le_add_right _ 2), readHeaders_nil]
      rfl
    | cons next lines =>
      have hcrlf : crlf.length = 2 := rfl
      rw [List.intercalate_cons_cons, List.append_assoc] at hfuel ⊢
      rw [List.length_append, List.length_append, hcrlf] at hfuel
      obtain ⟨fuel, rfl⟩ := Nat.exists_eq_add_one_of_ne_zero (n := fuel) (by omega)
      have hfound : findPattern crlf (line ++ (crlf ++ crlf.intercalate (next :: lines))) =
          some line.length := findPattern_behind hcr (List.prefix_append crlf _)
      have hdrop : (crlf ++ crlf.intercalate (next :: lines)).drop 2 =
          crlf.intercalate (next :: lines) := rfl
      rw [readHeaders, hfound, Option.getD_some, List.take_left, if_neg hne,
        List.drop_length_add_append, hdrop, ih (fun l hl ↦ h l (.tail _ hl)) (by omega)]
      rfl

/-- Two line breaks do not begin at one that is followed by something else. -/
theorem findPattern_crlf_append {b : UInt8} (hb : b ≠ 13) (s : Bytes) :
    findPattern (crlf ++ crlf) (crlf ++ b :: s) =
      (findPattern (crlf ++ crlf) (b :: s)).map (· + 2) := by
  have hfirst : ¬crlf ++ crlf <+: 13 :: 10 :: b :: s := by
    intro hp
    have hp' : [13, 10] <+: b :: s := (List.prefix_append_right_inj crlf).mp hp
    exact hb (List.cons_prefix_cons.mp hp').1.symm
  have hsecond : ¬crlf ++ crlf <+: 10 :: b :: s := fun hp ↦
    absurd (List.cons_prefix_cons.mp hp).1 (by decide)
  rw [show crlf ++ b :: s = 13 :: 10 :: b :: s from rfl, findPattern_cons_of_not hfirst,
    findPattern_cons_of_not hsecond, Option.map_map]
  rfl

/-- No line break follows another one before the end. -/
theorem headersEnd_intercalate {lines : List Bytes} (h : AreLines lines) :
    HeadersEnd (crlf.intercalate lines) := by
  rw [HeadersEnd]
  induction lines with
  | nil => rfl
  | cons line lines ih =>
    obtain ⟨hne, hcr⟩ := h line List.mem_cons_self
    cases lines with
    | nil =>
      rw [List.intercalate_singleton]
      exact findPattern_behind hcr (List.prefix_refl _)
    | cons next lines =>
      have hlines : AreLines (next :: lines) := fun l hl ↦ h l (.tail _ hl)
      have ih := ih hlines
      obtain ⟨hnext, hnextCr⟩ := hlines next List.mem_cons_self
      obtain ⟨b, next, rfl⟩ := List.exists_cons_of_ne_nil hnext
      have hb : b ≠ 13 := fun hb ↦ hnextCr (hb ▸ List.mem_cons_self)
      rw [List.intercalate_cons_cons_left, List.cons_append] at ih
      have hstep := findPattern_crlf_append hb (crlf.intercalate (next :: lines) ++ (crlf ++ crlf))
      rw [ih, Option.map_some] at hstep
      rw [List.intercalate_cons_cons, List.intercalate_cons_cons_left, List.append_assoc,
        List.append_assoc, List.cons_append]
      refine (findPattern_append_of_not_mem hcr _).trans ((congrArg _ hstep).trans ?_)
      have hcrlf : crlf.length = 2 := rfl
      rw [Option.map_some, List.length_append, List.length_append, hcrlf]
      congr 1
      omega

end Wasapi.Http
