import Wasapi.Fastcgi.ParamsCuts

/-!
# PARAMS records with a truncated pair

Any content begins with whole pairs, and behind the last of them it is truncated in a length, in a
name or in a value. `decode_length` answers to a truncated length with zero, which its caller cannot
tell from a length. So a pair that is truncated in its lengths is taken for the empty pair when the
name length reads as zero, and then an empty variable without a name is stored.
-/

namespace Wasapi.Fastcgi

/-- The longest sequence of complete encodings at the front of a content. -/
structure LongestPairs (content : Bytes) (ps : List EncodedPair) : Prop where
  initial : ps.flatMap EncodedPair.encode <+: content
  longest : ∀ ps' : List EncodedPair, ps'.flatMap EncodedPair.encode <+: content →
    (ps'.flatMap EncodedPair.encode).length ≤ (ps.flatMap EncodedPair.encode).length

/-- A PARAMS record with this content stores these pairs, in order, and nothing else. -/
def StoresExactly (limits : Limits) (content : Bytes) (ps : List EncodedPair) (r : RequestCore)
    (out : Bytes) : Prop :=
  (paramsRecord limits content r out).1.env = assignPairs r.env (ps.map EncodedPair.pair)

/-- A length of four octets that is truncated. -/
def CutsLength (p : Bytes) : Prop := ∃ b rest, p = b :: rest ∧ b &&& 0x80 ≠ 0 ∧ rest.length < 3

/-- Lengths that are truncated, with no name length but zero. -/
def LeavesNoName (p : Bytes) : Prop :=
  CutsLength p ∨ ∃ (f : LengthForm) (q : Bytes), p = f.encode 0 ++ q ∧ (q = [] ∨ CutsLength q)

/-! ## Lengths

A length is truncated when its first octet announces four and fewer are there. `decode_length` then
returns zero and takes all that is left. -/

private theorem decodeLength_of_cutsLength {p : Bytes} (h : CutsLength p) :
    decodeLength p = (0, []) := by
  obtain ⟨b, rest, rfl, hhigh, hlt⟩ := h
  rw [decodeLength.eq_def]
  simp only
  rw [if_neg hhigh]
  rcases rest with _ | ⟨b₁, _ | ⟨b₂, _ | ⟨b₃, rest⟩⟩⟩
  · rfl
  · rfl
  · rfl
  · simp only [List.length_cons] at hlt
    omega

/-- A length is complete or truncated. -/
theorem exists_length {p : Bytes} (hp : p ≠ []) :
    (∃ (f : LengthForm) (n : ℕ) (q : Bytes), f.Fits n ∧ p = f.encode n ++ q) ∨ CutsLength p := by
  obtain ⟨b, rest, rfl⟩ := List.exists_cons_of_ne_nil hp
  by_cases hlow : b &&& 0x80 = 0
  · refine .inl ⟨.short, b.toNat, rest, (and_high_eq_zero_iff b).mp hlow, ?_⟩
    rw [LengthForm.encode, UInt8.ofNat_toNat]
    rfl
  rcases rest with _ | ⟨b₁, _ | ⟨b₂, _ | ⟨b₃, rest⟩⟩⟩
  · exact .inr ⟨b, [], rfl, hlow, by simp⟩
  · exact .inr ⟨b, [b₁], rfl, hlow, by simp⟩
  · exact .inr ⟨b, [b₁, b₂], rfl, hlow, by simp⟩
  · rw [and_high_eq_zero_iff, not_lt] at hlow
    obtain ⟨n, hn, heq⟩ := LengthForm.exists_encode_long hlow b₁ b₂ b₃
    refine .inl ⟨.long, n, rest, hn, ?_⟩
    rw [heq]
    rfl

theorem LengthForm.encode_ne_nil (f : LengthForm) (n : ℕ) : f.encode n ≠ [] := by
  cases f <;> simp [encode, beBytes]

private theorem not_cutsLength_encode {f : LengthForm} {n : ℕ} (hf : f.Fits n) (q : Bytes) :
    ¬CutsLength (f.encode n ++ q) := by
  rintro ⟨b, rest, heq, hhigh, hlt⟩
  cases f with
  | short =>
    simp only [LengthForm.Fits] at hf
    rw [LengthForm.encode, List.singleton_append, List.cons.injEq] at heq
    refine hhigh ((and_high_eq_zero_iff b).mpr ?_)
    rw [← heq.1, UInt8.toNat_ofNat']
    omega
  | long =>
    have hlength := congrArg List.length heq
    rw [LengthForm.encode, List.length_append, length_beBytes, List.length_cons] at hlength
    omega

private theorem leavesNoName_encode_iff {f : LengthForm} {n : ℕ} (hf : f.Fits n) (q : Bytes) :
    LeavesNoName (f.encode n ++ q) ↔ n = 0 ∧ (q = [] ∨ CutsLength q) := by
  constructor
  · rintro (hcut | ⟨f', q', heq, hq'⟩)
    · exact absurd hcut (not_cutsLength_encode hf q)
    · have hzero : f'.Fits 0 := by cases f' <;> decide
      have hread := decodeLength_encode hf q
      rw [heq, decodeLength_encode hzero q'] at hread
      obtain ⟨rfl, rfl⟩ := Prod.mk.inj hread
      exact ⟨rfl, hq'⟩
  · rintro ⟨rfl, hq⟩
    exact .inr ⟨f, q, rfl, hq⟩

/-! ## Pairs

A pair can be truncated in one of its lengths, in the name or in the value. The loop then ends,
except that lengths which read as zero make a pair that is not there. -/

/-- **What one turn of the loop can read**: a complete pair, a pair without a name that is not
there, or nothing. -/
theorem exists_pair {p : Bytes} (hp : p ≠ []) :
    (∃ (e : EncodedPair) (t : Bytes), p = e.encode ++ t) ∨
    (LeavesNoName p ∧ nextPair p = some (([], []), [])) ∨
    (¬LeavesNoName p ∧ nextPair p = none) := by
  obtain ⟨f, n, q, hf, rfl⟩ | hcut := exists_length hp
  swap
  · refine .inr (.inl ⟨.inl hcut, ?_⟩)
    simp only [nextPair, decodeLength_of_cutsLength hcut]
    rfl
  rw [leavesNoName_encode_iff hf]
  -- the value length is missing or truncated and reads as zero
  have hnone (hq : q = [] ∨ CutsLength q) : decodeLength q = (0, []) := by
    obtain rfl | hcut := hq
    · rfl
    · exact decodeLength_of_cutsLength hcut
  by_cases hq : q = [] ∨ CutsLength q
  · refine .inr ?_
    simp only [nextPair, decodeLength_encode hf, hnone hq]
    cases n with
    | zero => exact .inl ⟨⟨rfl, hq⟩, rfl⟩
    | succ n => exact .inr ⟨fun h ↦ absurd h.1 (Nat.succ_ne_zero n), if_pos (Nat.succ_pos _)⟩
  rw [not_or] at hq
  obtain ⟨g, m, t, hg, rfl⟩ | hcut := exists_length hq.1
  swap
  · exact absurd hcut hq.2
  by_cases hroom : t.length < n + m
  · refine .inr (.inr ⟨fun h ↦ not_or.mpr hq h.2, ?_⟩)
    simp only [nextPair, decodeLength_encode hf, decodeLength_encode hg, if_pos hroom]
  · have hn : (t.take n).length = n := List.length_take_of_le (by omega)
    have hm : ((t.drop n).take m).length = m := by
      rw [List.length_take, List.length_drop]
      omega
    refine .inl ⟨⟨t.take n, (t.drop n).take m, f, g, hn.symm ▸ hf, hm.symm ▸ hg⟩,
      (t.drop n).drop m, ?_⟩
    simp only [EncodedPair.encode, hn, hm, List.append_assoc, List.take_append_drop]

private theorem not_leavesNoName_encode (e : EncodedPair) (t : Bytes) :
    ¬LeavesNoName (e.encode ++ t) := by
  rw [EncodedPair.encode, List.append_assoc, List.append_assoc, leavesNoName_encode_iff e.name_fits]
  rintro ⟨-, hnil | hcut⟩
  · exact LengthForm.encode_ne_nil _ _ (List.append_eq_nil_iff.mp hnil).1
  · exact not_cutsLength_encode e.value_fits _ hcut

/-! ## Whole pairs

The whole pairs at the front are determined by the content, up to the form of their lengths. The
loop reads them, and at most one more pair behind them, which then has neither name nor value. -/

/-- No pair is complete at the front. -/
def NoPair (p : Bytes) : Prop := ∀ (e : EncodedPair) (t : Bytes), p ≠ e.encode ++ t

private theorem noPair_of_nextPair {p : Bytes} (h : nextPair p = none) : NoPair p := by
  rintro e t rfl
  rw [nextPair_encode] at h
  cases h

private theorem noPair_of_leavesNoName {p : Bytes} (h : LeavesNoName p) : NoPair p := by
  rintro e t rfl
  exact not_leavesNoName_encode e t h

/-- What the loop reads behind the whole pairs. -/
def Stray (rest : Bytes) (qs : List (Bytes × Bytes)) : Prop :=
  (LeavesNoName rest ∧ qs = [([], [])]) ∨ (¬LeavesNoName rest ∧ qs = [])

private theorem noPair_nil :
    NoPair [] := fun e _ h ↦ e.encode_ne_nil (List.append_eq_nil_iff.mp h.symm).1

private theorem stray_nil : Stray [] [] := by
  refine .inr ⟨?_, rfl⟩
  rintro (⟨b, rest, h, -⟩ | ⟨f, q, h, -⟩)
  · cases h
  · exact f.encode_ne_nil 0 (List.append_eq_nil_iff.mp h.symm).1

private theorem pairsOf_nil (fuel : ℕ) : pairsOf fuel [] = [] := by
  cases fuel <;> rfl

/-- **Any content is whole pairs and a rest without one**, and read as the whole pairs and at most
one more. -/
theorem exists_wholePairs {fuel : ℕ} {content : Bytes} (h : content.length ≤ fuel) :
    ∃ (ps : List EncodedPair) (rest : Bytes) (qs : List (Bytes × Bytes)),
      content = ps.flatMap EncodedPair.encode ++ rest ∧ NoPair rest ∧ Stray rest qs ∧
      pairsOf fuel content = ps.map EncodedPair.pair ++ qs := by
  induction fuel generalizing content with
  | zero =>
    obtain rfl := List.eq_nil_of_length_eq_zero (Nat.le_zero.mp h)
    exact ⟨[], [], [], rfl, noPair_nil, stray_nil, rfl⟩
  | succ fuel ih =>
    rw [pairsOf]
    split
    · next hnil =>
      rw [List.isEmpty_iff] at hnil
      exact ⟨[], [], [], hnil, noPair_nil, stray_nil, rfl⟩
    next hne =>
    rw [List.isEmpty_iff] at hne
    obtain ⟨e, t, rfl⟩ | ⟨hstray, hnext⟩ | ⟨hnot, hnext⟩ := exists_pair hne
    · have hpos : 0 < e.encode.length := List.length_pos_iff.mpr e.encode_ne_nil
      rw [List.length_append] at h
      obtain ⟨ps, rest, qs, rfl, hrest, hqs, hread⟩ := ih (show t.length ≤ fuel by omega)
      refine ⟨e :: ps, rest, qs, ?_, hrest, hqs, ?_⟩
      · rw [List.flatMap_cons, List.append_assoc]
      · rw [nextPair_encode]
        exact congrArg (e.pair :: ·) hread
    · refine ⟨[], content, [([], [])], rfl, noPair_of_leavesNoName hstray, .inl ⟨hstray, rfl⟩, ?_⟩
      rw [hnext]
      exact congrArg (([], []) :: ·) (pairsOf_nil fuel)
    · refine ⟨[], content, [], rfl, noPair_of_nextPair hnext, .inr ⟨hnot, rfl⟩, ?_⟩
      rw [hnext]
      rfl

/-- Whole pairs at the front of others are the first of them. -/
theorem exists_append {ps ps' : List EncodedPair} {rest : Bytes} (hrest : NoPair rest)
    (h : ps'.flatMap EncodedPair.encode <+: ps.flatMap EncodedPair.encode ++ rest) :
    ∃ qs : List EncodedPair,
      ps.flatMap EncodedPair.encode
        = ps'.flatMap EncodedPair.encode ++ qs.flatMap EncodedPair.encode ∧
      ps.map EncodedPair.pair = ps'.map EncodedPair.pair ++ qs.map EncodedPair.pair := by
  induction ps' generalizing ps with
  | nil => exact ⟨ps, rfl, rfl⟩
  | cons p' ps' ih =>
    obtain ⟨t, ht⟩ := h
    rw [List.flatMap_cons, List.append_assoc] at ht
    cases ps with
    | nil => exact absurd ht.symm (hrest p' _)
    | cons p ps =>
      rw [List.flatMap_cons, List.append_assoc] at ht
      have hread := nextPair_encode p' (ps'.flatMap EncodedPair.encode ++ t)
      rw [ht, nextPair_encode, Option.some.injEq, Prod.mk.injEq] at hread
      obtain ⟨hpair, htail⟩ := hread
      rw [← htail, List.append_cancel_right_eq] at ht
      have hinitial : ps'.flatMap EncodedPair.encode <+: ps.flatMap EncodedPair.encode ++ rest :=
        ⟨t, htail.symm⟩
      obtain ⟨qs, hbytes, hpairs⟩ := ih hinitial
      refine ⟨qs, ?_, ?_⟩
      · rw [List.flatMap_cons, List.flatMap_cons, hbytes, ht, List.append_assoc]
      · rw [List.map_cons, List.map_cons, hpairs, List.cons_append]
        exact congrArg (· :: _) hpair

private theorem longestPairs_of_noPair (ps : List EncodedPair) {rest : Bytes}
    (hrest : NoPair rest) : LongestPairs (ps.flatMap EncodedPair.encode ++ rest) ps := by
  refine ⟨List.prefix_append _ _, fun ps' h ↦ ?_⟩
  obtain ⟨qs, hbytes, -⟩ := exists_append hrest h
  rw [hbytes, List.length_append]
  exact Nat.le_add_right _ _

/-- Every content has a longest sequence. -/
theorem exists_longestPairs (content : Bytes) : ∃ ps, LongestPairs content ps := by
  obtain ⟨ps, rest, -, rfl, hrest, -⟩ := exists_wholePairs (le_refl content.length)
  exact ⟨ps, longestPairs_of_noPair ps hrest⟩

/-- There is only one longest sequence, up to the pairs it stands for. -/
theorem LongestPairs.eq_of_noPair {ps ps' : List EncodedPair} {rest : Bytes}
    (h : LongestPairs (ps.flatMap EncodedPair.encode ++ rest) ps') (hrest : NoPair rest) :
    ps.flatMap EncodedPair.encode = ps'.flatMap EncodedPair.encode ∧
      ps.map EncodedPair.pair = ps'.map EncodedPair.pair := by
  obtain ⟨qs, hbytes, hpairs⟩ := exists_append hrest h.initial
  have hle := h.longest ps (List.prefix_append _ _)
  have hnil : qs = [] := by
    cases qs with
    | nil => rfl
    | cons q qs =>
      have hpos : 0 < q.encode.length := List.length_pos_iff.mpr q.encode_ne_nil
      rw [hbytes, List.flatMap_cons, List.length_append, List.length_append] at hle
      omega
  rw [hnil, List.flatMap_nil, List.append_nil] at hbytes
  rw [hnil, List.map_nil, List.append_nil] at hpairs
  exact ⟨hbytes, hpairs⟩

/-! ## Storing

An empty variable without a name changes the environment unless it is there already. That is the
whole difference between the pairs that are read and the pairs that are complete. -/

section

variable {limits : Limits} {r : RequestCore} {out : Bytes} {content rest : Bytes}
  {ps : List EncodedPair}

variable (limits out) in
/-- The environment holds the pairs that are read. -/
theorem env_paramsRecord_eq (hfailed : r.flags.failed = false) {qs : List (Bytes × Bytes)}
    (hread : pairsOf content.length content = qs)
    (hsize : r.paramsBytes + pairsSize qs ≤ limits.maxParamsBytes) :
    (paramsRecord limits content r out).1.env = assignPairs r.env qs := by
  rw [paramsRecord]
  split
  · next hnil =>
    rw [List.isEmpty_iff] at hnil
    rw [← hread, hnil]
    rfl
  · rw [hfailed, if_neg Bool.false_ne_true, paramsLoop_eq, hread,
      storePairs_of_le limits _ r out hsize]
    rfl

/-- **Truncated pairs are left out**, except that lengths without a name are read as an empty pair.
Then the pairs stored are those of the longest sequence of complete encodings only if the variable
without a name is there and empty anyway. -/
theorem storesExactly_iff (hps : LongestPairs content ps)
    (hrest : content = ps.flatMap EncodedPair.encode ++ rest) (hfailed : r.flags.failed = false)
    (hsize : r.paramsBytes + pairsSize (ps.map EncodedPair.pair) ≤ limits.maxParamsBytes) :
    StoresExactly limits content ps r out ↔
      ¬LeavesNoName rest ∨
        (assignPairs r.env (ps.map EncodedPair.pair)).find [] = some (.string []) := by
  obtain ⟨ps', rest', qs, hcontent, hno, hqs, hread⟩ := exists_wholePairs (le_refl content.length)
  rw [hcontent] at hps
  obtain ⟨hbytes, hpairs⟩ := hps.eq_of_noPair hno
  obtain rfl : rest' = rest := by
    rw [hrest, hbytes] at hcontent
    exact (List.append_cancel_left hcontent).symm
  rw [hpairs] at hread
  rw [StoresExactly]
  obtain ⟨hstray, rfl⟩ | ⟨hnot, rfl⟩ := hqs
  · have henv := env_paramsRecord_eq limits out hfailed hread (by
      rw [pairsSize_append]
      exact hsize)
    rw [henv, assignPairs_append, or_iff_right (not_not.mpr hstray)]
    exact DynamicVariable.assign_eq_self_iff _ _ _
  · rw [List.append_nil] at hread
    have henv := env_paramsRecord_eq limits out hfailed hread hsize
    exact iff_of_true henv (.inl hnot)

end

/-- Two variables, and a name that is truncated. -/
theorem storesExactly_iff_truncatedName :
    StoresExactly {} (hostAndPath.flatMap EncodedPair.encode ++ [5, 1, 72]) hostAndPath { id := 7 }
      [] := by
  have hno : NoPair [5, 1, 72] := noPair_of_nextPair (by decide)
  have hnot : ¬LeavesNoName [5, 1, 72] := fun h ↦
    absurd ((leavesNoName_encode_iff (f := .short) (n := 5) (by decide) [1, 72]).mp h).1 (by decide)
  exact (storesExactly_iff (longestPairs_of_noPair hostAndPath hno) rfl rfl (by decide)).mpr
    (.inl hnot)

/-- One octet of a name length of four is stored as a variable without a name. -/
theorem not_storesExactly_truncatedLength :
    LongestPairs [0x80] [] ∧ ¬StoresExactly {} [0x80] [] { id := 7 } [] := by
  have hcut : CutsLength [0x80] := ⟨0x80, [], rfl, by decide, by decide⟩
  refine ⟨longestPairs_of_noPair [] (noPair_of_leavesNoName (.inl hcut)), fun h ↦ ?_⟩
  have hfound := congrArg (fun env ↦ (env.find []).isSome) h
  revert hfound
  decide

end Wasapi.Fastcgi
