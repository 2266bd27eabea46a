import Wasapi.Json.Cursor

/-!
# The parser ends inside the text

Every function of the parser is run here against the one of the same name on what is left of the
text: it gives the same result and leaves the same. On the way the cursor moves forward only and not
past the end. The functions that call each other take a bound; three for each byte that is left is
enough, since an element is always behind a bracket or a comma.
-/

namespace Wasapi.Json.JsonCursor

/-- The cursor has moved on in its text, and not past the end. -/
structure Advances (c c' : JsonCursor) : Prop where
  s_eq : c'.s = c.s
  le : c.i ≤ c'.i
  inside : c'.i ≤ c'.s.length

namespace Advances

variable {c c' c'' : JsonCursor}

theorem refl (h : c.i ≤ c.s.length) : Advances c c := ⟨rfl, le_rfl, h⟩

theorem trans (h : Advances c c') (h' : Advances c' c'') : Advances c c'' :=
  ⟨h'.s_eq.trans h.s_eq, h.le.trans h'.le, h'.inside⟩

theorem skip {k : ℕ} (h : c.i + k ≤ c.s.length) : Advances c (c.skip k) :=
  ⟨rfl, Nat.le_add_right _ _, h⟩

theorem left_le (h : Advances c c') : c'.left ≤ c.left := by
  rw [left, left, h.s_eq]
  exact Nat.sub_le_sub_left h.le _

theorem left_lt (h : Advances c c') (hlt : c.i < c'.i) : c'.left < c.left := by
  have hinside := h.inside
  rw [h.s_eq] at hinside
  rw [left, left, h.s_eq]
  omega

end Advances

/-- A run at the cursor against one on what is left of the text: the same result, and the same is
left. -/
structure Follows {α : Type*} (c : JsonCursor) (x : α × JsonCursor) (y : α × Bytes) : Prop where
  advances : Advances c x.2
  eq : y = (x.1, x.2.rest)

private theorem Follows.of_advances {α : Type*} {c c' : JsonCursor} {x : α × JsonCursor}
    {y : α × Bytes} (h : Advances c c') (hfollows : Follows c' x y) : Follows c x y :=
  ⟨h.trans hfollows.advances, hfollows.eq⟩

/-! ## Bytes

The cursor looks at a byte by its position, and the parser on lists at the head of what is left.
These are the same as long as the cursor is inside the text. -/

private theorem rest_of_lt {c : JsonCursor} (h : c.i < c.s.length) : c.rest = c.get ::
    (c.skip 1).rest := by
  rw [rest, List.drop_eq_getElem_cons h, get, List.getD_eq_getElem _ _ h]
  rfl

private theorem rest_of_le {c : JsonCursor} (h : c.s.length ≤ c.i) :
    c.rest = [] := List.drop_eq_nil_of_le h

private theorem length_rest (c : JsonCursor) : c.rest.length = c.left := List.length_drop

private theorem skipWs_spec {c : JsonCursor} (hc : c.i ≤ c.s.length) :
    Advances c (skipWs c) ∧ Json.skipWs c.rest = (skipWs c).rest := by
  fun_induction skipWs c with
  | case1 c h ih =>
    obtain ⟨hadvances, hrest⟩ := ih h.1
    refine ⟨(Advances.skip h.1).trans hadvances, ?_⟩
    rw [rest_of_lt h.1, Json.skipWs, List.dropWhile_cons_of_pos h.2]
    exact hrest
  | case2 c h =>
    refine ⟨.refl hc, ?_⟩
    by_cases hlt : c.i < c.s.length
    · rw [rest_of_lt hlt, Json.skipWs, List.dropWhile_cons_of_neg fun hspace ↦ h ⟨hlt, hspace⟩]
    · rw [rest_of_le (not_lt.mp hlt)]
      rfl

private theorem matchChar_spec (ch : UInt8) {c : JsonCursor} (hc : c.i ≤ c.s.length) :
    Follows c (matchChar ch c) (Json.matchChar ch c.rest) ∧
      ((matchChar ch c).1 = true → c.i < (matchChar ch c).2.i) := by
  obtain ⟨hadvances, hrest⟩ := skipWs_spec hc
  rw [matchChar, Json.matchChar, hrest]
  by_cases hlt : (skipWs c).i < (skipWs c).s.length
  · rw [rest_of_lt hlt]
    simp only [hlt, true_and]
    split
    · exact ⟨⟨hadvances.trans (.skip hlt), rfl⟩, fun _ ↦ Nat.lt_succ_of_le hadvances.le⟩
    · exact ⟨⟨hadvances, by rw [rest_of_lt hlt]⟩, fun h ↦ (nomatch h)⟩
  · rw [rest_of_le (not_lt.mp hlt), if_neg fun h ↦ hlt h.1]
    exact ⟨⟨hadvances, by rw [rest_of_le (not_lt.mp hlt)]⟩, fun h ↦ (nomatch h)⟩

/-! ## Strings

A turn of either loop takes the same bytes. The bound of the loop at the cursor is the number of
bytes that are left, so it does not end before the text does. -/

private theorem hexLoop_spec {k : ℕ} (v : ℕ) {c : JsonCursor} (hc : c.i + k ≤ c.s.length) :
    Follows c (hexLoop k v c) (Json.hexLoop k v c.rest) := by
  induction k generalizing v c with
  | zero => exact ⟨.refl hc, rfl⟩
  | succ k ih =>
    have hlt : c.i < c.s.length := by omega
    rw [rest_of_lt hlt, hexLoop, Json.hexLoop]
    cases hexValue c.get with
    | none => exact ⟨.skip hlt, rfl⟩
    | some d =>
      have hnext : (c.skip 1).i + k ≤ (c.skip 1).s.length := by
        rw [i_skip, s_skip]
        omega
      exact (ih (v * 16 + d) hnext).of_advances (.skip hlt)

/-- Four bytes are left. -/
theorem not_length_rest_lt {c : JsonCursor} (h : ¬c.s.length < c.i + 4) : ¬c.rest.length < 4 := by
  rw [length_rest, left]
  omega

/-- The four digits of an escape are read alike. -/
theorem escape_spec {c c' : JsonCursor} {v : Option ℕ} (h : ¬c.s.length < c.i + 4)
    (hhex : hexLoop 4 0 c = (v, c')) :
    Advances c c' ∧ Json.hexLoop 4 0 c.rest = (v, c'.rest) := by
  obtain ⟨hadvances, hread⟩ := hexLoop_spec 0 (not_lt.mp h)
  rw [hhex] at hadvances hread
  exact ⟨hadvances, hread⟩

private theorem stringLoop_spec {fuel : ℕ} {out : Bytes} {c : JsonCursor} (hc : c.i ≤ c.s.length)
    (hfuel : c.left ≤ fuel) :
    Follows c (stringLoop out c) (Json.stringLoop fuel out c.rest) := by
  have hsucc {c : JsonCursor} {fuel : ℕ} (hlt : c.i < c.s.length) (hfuel : c.left ≤ fuel) :
      ∃ k, fuel = k + 1 ∧ (c.skip 1).left ≤ k := by
    have hleft := left_skip_lt hlt
    exact ⟨fuel - 1, by omega, by omega⟩
  fun_induction stringLoop out c generalizing fuel with
  | case1 out c hlt ch c₁ =>
    next hquote =>
    obtain ⟨fuel, rfl, -⟩ := hsucc hlt hfuel
    rw [rest_of_lt hlt, Json.stringLoop.eq_def]
    simp only
    rw [if_pos hquote]
    exact ⟨.skip hlt, rfl⟩
  | case2 out c hlt ch c₁ hquote hbackslash =>
    next hend =>
    obtain ⟨fuel, rfl, -⟩ := hsucc hlt hfuel
    rw [rest_of_lt hlt, rest_of_le hend, Json.stringLoop.eq_def]
    simp only
    rw [if_neg hquote, if_pos hbackslash]
    exact ⟨.skip hlt, by rw [rest_of_le hend]⟩
  | case3 out c hlt ch c₁ hquote hbackslash hend esc c₂ b hesc =>
    next ih =>
    obtain ⟨fuel, rfl, hleft⟩ := hsucc hlt hfuel
    have hlt₁ : c₁.i < c₁.s.length := not_le.mp hend
    rw [rest_of_lt hlt, rest_of_lt hlt₁, Json.stringLoop.eq_def]
    simp only [show simpleEscape c₁.get = some b from hesc]
    rw [if_neg hquote, if_pos hbackslash]
    exact (ih hlt₁ ((left_skip_lt hlt₁).le.trans hleft)).of_advances
      ((Advances.skip hlt).trans (.skip hlt₁))
  | case4 out c hlt ch c₁ hquote hbackslash hend esc c₂ hesc hu =>
    next hshort =>
    obtain ⟨fuel, rfl, -⟩ := hsucc hlt hfuel
    have hlt₁ : c₁.i < c₁.s.length := not_le.mp hend
    have hlength : c₂.rest.length < 4 := by
      rw [length_rest, left]
      omega
    rw [rest_of_lt hlt, rest_of_lt hlt₁, Json.stringLoop.eq_def]
    simp only [show simpleEscape c₁.get = none from hesc]
    rw [if_neg hquote, if_pos hbackslash, if_pos hu, if_pos hlength]
    exact ⟨(Advances.skip hlt).trans (.skip hlt₁), rfl⟩
  | case5 out c hlt ch c₁ hquote hbackslash hend esc c₂ hesc hu hlong c₃ =>
    next hhex =>
    obtain ⟨fuel, rfl, -⟩ := hsucc hlt hfuel
    have hlt₁ : c₁.i < c₁.s.length := not_le.mp hend
    obtain ⟨hadvances, hread⟩ := escape_spec hlong hhex
    rw [rest_of_lt hlt, rest_of_lt hlt₁, Json.stringLoop.eq_def]
    simp only [show simpleEscape c₁.get = none from hesc]
    rw [if_neg hquote, if_pos hbackslash, if_pos hu, if_neg (not_length_rest_lt hlong), hread]
    exact ⟨((Advances.skip hlt).trans (.skip hlt₁)).trans hadvances, rfl⟩
  | case6 out c hlt ch c₁ hquote hbackslash hend esc c₂ hesc hu hlong v c₃ hhex =>
    next ih =>
    obtain ⟨fuel, rfl, hleft⟩ := hsucc hlt hfuel
    have hlt₁ : c₁.i < c₁.s.length := not_le.mp hend
    obtain ⟨hadvances, hread⟩ := escape_spec hlong hhex
    rw [rest_of_lt hlt, rest_of_lt hlt₁, Json.stringLoop.eq_def]
    simp only [show simpleEscape c₁.get = none from hesc]
    rw [if_neg hquote, if_pos hbackslash, if_pos hu, if_neg (not_length_rest_lt hlong), hread]
    exact (ih hadvances.inside ((hadvances.left_le.trans (left_skip_lt hlt₁).le).trans
      hleft)).of_advances (((Advances.skip hlt).trans (.skip hlt₁)).trans hadvances)
  | case7 out c hlt ch c₁ hquote hbackslash hend esc c₂ hesc =>
    next hu =>
    obtain ⟨fuel, rfl, -⟩ := hsucc hlt hfuel
    have hlt₁ : c₁.i < c₁.s.length := not_le.mp hend
    rw [rest_of_lt hlt, rest_of_lt hlt₁, Json.stringLoop.eq_def]
    simp only [show simpleEscape c₁.get = none from hesc]
    rw [if_neg hquote, if_pos hbackslash, if_neg hu]
    exact ⟨(Advances.skip hlt).trans (.skip hlt₁), rfl⟩
  | case8 out c hlt ch c₁ hquote hbackslash =>
    next ih =>
    obtain ⟨fuel, rfl, hleft⟩ := hsucc hlt hfuel
    rw [rest_of_lt hlt, Json.stringLoop.eq_def]
    simp only
    rw [if_neg hquote, if_neg hbackslash]
    exact (ih hlt hleft).of_advances (.skip hlt)
  | case9 out c hend =>
    refine ⟨.refl hc, ?_⟩
    simp only [rest_of_le (not_lt.mp hend)]
    cases fuel <;> rfl

private theorem parseString_spec {c : JsonCursor} (hc : c.i ≤ c.s.length) :
    Follows c (parseString c) (Json.parseString c.rest) ∧
      ((parseString c).1.isSome = true → c.i < (parseString c).2.i) := by
  obtain ⟨hadvances, hrest⟩ := skipWs_spec hc
  rw [parseString, Json.parseString, hrest]
  by_cases hlt : (skipWs c).i < (skipWs c).s.length
  swap
  · rw [rest_of_le (not_lt.mp hlt), if_pos (.inl (not_lt.mp hlt))]
    exact ⟨⟨hadvances, by rw [rest_of_le (not_lt.mp hlt)]⟩, fun h ↦ (nomatch h)⟩
  rw [rest_of_lt hlt]
  by_cases hquote : (skipWs c).get = 34
  · have hloop : Follows ((skipWs c).skip 1) (stringLoop [] ((skipWs c).skip 1))
        (Json.stringLoop ((skipWs c).skip 1).rest.length [] ((skipWs c).skip 1).rest) :=
      stringLoop_spec hlt (length_rest _).ge
    rw [if_neg (not_or.mpr ⟨not_le.mpr hlt, not_not.mpr hquote⟩)]
    simp only
    rw [if_pos hquote]
    exact ⟨(hloop.of_advances (.skip hlt)).of_advances hadvances,
      fun _ ↦ (Nat.lt_succ_of_le hadvances.le).trans_le hloop.advances.le⟩
  · rw [if_pos (.inr hquote)]
    simp only
    rw [if_neg hquote]
    exact ⟨⟨hadvances, by rw [rest_of_lt hlt]⟩, fun h ↦ (nomatch h)⟩

/-! ## Numbers -/

private theorem numberLoop_spec (dot : Bool) {c : JsonCursor} (hc : c.i ≤ c.s.length) :
    Advances c (numberLoop dot c) ∧ Json.numberLoop dot c.rest = (numberLoop dot c).rest := by
  fun_induction numberLoop dot c with
  | case1 dot c hlt ch hdigit =>
    next ih =>
    obtain ⟨hadvances, hrest⟩ := ih hlt
    rw [rest_of_lt hlt, Json.numberLoop, if_pos hdigit]
    exact ⟨(Advances.skip hlt).trans hadvances, hrest⟩
  | case2 dot c hlt ch hdigit hpoint =>
    next ih =>
    obtain ⟨hadvances, hrest⟩ := ih hlt
    rw [rest_of_lt hlt, Json.numberLoop, if_neg hdigit, if_pos hpoint]
    exact ⟨(Advances.skip hlt).trans hadvances, hrest⟩
  | case3 dot c hlt ch hdigit hpoint =>
    refine ⟨.refl hc, ?_⟩
    rw [rest_of_lt hlt, Json.numberLoop, if_neg hdigit, if_neg hpoint]
  | case4 dot c hend =>
    refine ⟨.refl hc, ?_⟩
    rw [rest_of_le (not_lt.mp hend)]
    rfl

/-- A sign is passed. -/
theorem sign_spec {c : JsonCursor} (hc : c.i ≤ c.s.length) :
    Advances c (if c.i < c.s.length ∧ (c.get = 45 ∨ c.get = 43) then c.skip 1 else c) ∧
      (if c.rest.head? = some 45 || c.rest.head? = some 43 then c.rest.tail else c.rest)
        = (if c.i < c.s.length ∧ (c.get = 45 ∨ c.get = 43) then c.skip 1 else c).rest := by
  by_cases hlt : c.i < c.s.length
  · simp only [hlt, true_and, rest_of_lt hlt, List.head?_cons, Option.some.injEq, List.tail_cons,
      Bool.or_eq_true, decide_eq_true_eq]
    split
    · exact ⟨.skip hlt, rfl⟩
    · exact ⟨.refl hc, (rest_of_lt hlt).symm⟩
  · rw [if_neg fun h ↦ hlt h.1, rest_of_le (not_lt.mp hlt)]
    exact ⟨.refl hc, rfl⟩

private theorem parseNumber_spec {c : JsonCursor} (hc : c.i ≤ c.s.length) :
    Follows c (parseNumber c) (Json.parseNumber c.rest) ∧
      ((parseNumber c).1.isSome = true → c.i < (parseNumber c).2.i) := by
  obtain ⟨hspace, hrest⟩ := skipWs_spec hc
  obtain ⟨hsign, hunsigned⟩ := sign_spec hspace.inside
  obtain ⟨hdigits, hread⟩ := numberLoop_spec false hsign.inside
  rw [parseNumber, Json.parseNumber, hrest]
  simp only [hunsigned, hread]
  generalize numberLoop false _ = c' at hdigits ⊢
  have hmoved := hsign.trans hdigits
  have hinside := hmoved.inside
  have hle := hmoved.le
  rw [hmoved.s_eq] at hinside
  have hlength : (skipWs c).rest.length - c'.rest.length = c'.i - (skipWs c).i := by
    rw [length_rest, length_rest, left, left, hmoved.s_eq]
    omega
  have hsame : c'.rest.length = (skipWs c).rest.length ↔ (skipWs c).i = c'.i := by
    rw [length_rest, length_rest, left, left, hmoved.s_eq]
    omega
  simp only [hlength, hsame]
  split
  · exact ⟨⟨hspace.trans hmoved, rfl⟩, fun h ↦ absurd h Bool.false_ne_true⟩
  · next hne =>
    rw [hmoved.s_eq]
    exact ⟨⟨hspace.trans hmoved, rfl⟩, fun _ ↦ hspace.le.trans_lt (hle.lt_of_ne hne)⟩

/-! ## Literals -/

private theorem rest_skip (c : JsonCursor) (k : ℕ) : (c.skip k).rest = c.rest.drop k := by
  rw [rest, rest, s_skip, i_skip, List.drop_drop]

/-- `compare` after a look at the first byte. -/
theorem compare_iff {c : JsonCursor} {b : UInt8} {word : Bytes} {k : ℕ}
    (hword : word.head? = some b) (hk : word.length = k) :
    (c.get = b ∧ (c.s.drop c.i).take k = word) ↔ word.isPrefixOf c.rest = true := by
  obtain ⟨tail, rfl⟩ := List.head?_eq_some_iff.mp hword
  rw [List.isPrefixOf_iff_prefix, List.prefix_iff_eq_take, hk, eq_comm (a := b :: tail)]
  refine and_iff_right_of_imp fun h ↦ ?_
  by_cases hlt : c.i < c.s.length
  · have hrest : c.s.drop c.i = c.get :: (c.skip 1).rest := rest_of_lt hlt
    rw [← hk, hrest, List.length_cons, List.take_succ_cons, List.cons.injEq] at h
    exact h.1
  · rw [List.drop_eq_nil_of_le (not_lt.mp hlt), List.take_nil] at h
    cases h

/-! ## Values

By induction on the bound, for all the calls at once: a call that ends has ended in step with the
one on what is left, and a call that succeeds has moved on. -/

/-- A call ends, and in step with the one on what is left of the text; if it succeeds it has taken
at least one byte. -/
def Completes {α : Type*} (c : JsonCursor) (x? : Option (Option α × JsonCursor))
    (y : Option α × Bytes) : Prop :=
  ∃ x, x? = some x ∧ Follows c x y ∧ (x.1.isSome = true → c.i < x.2.i)

namespace Completes

variable {α : Type*} {c c' : JsonCursor} {x? : Option (Option α × JsonCursor)}
  {y : Option α × Bytes}

private theorem of_advances (h : Advances c c') (hcompletes : Completes c' x? y) :
    Completes c x? y := by
  obtain ⟨x, hx, hfollows, hmoved⟩ := hcompletes
  exact ⟨x, hx, hfollows.of_advances h, fun hsome ↦ h.le.trans_lt (hmoved hsome)⟩

theorem failed (h : Advances c c') : Completes (α := α) c (some (none, c')) (none, c'.rest) :=
  ⟨_, rfl, ⟨h, rfl⟩, fun hsome ↦ (nomatch hsome)⟩

theorem done {a : α} (h : Advances c c') (hlt : c.i < c'.i) :
    Completes c (some (some a, c')) (some a, c'.rest) :=
  ⟨_, rfl, ⟨h, rfl⟩, fun _ ↦ hlt⟩

end Completes

private theorem matchNext_spec (ch : UInt8) {c : JsonCursor} (hc : c.i ≤ c.s.length) :
    Follows c (matchChar ch (skipWs c)) (Json.matchChar ch (Json.skipWs c.rest)) ∧
      ((matchChar ch (skipWs c)).1 = true → c.i < (matchChar ch (skipWs c)).2.i) := by
  obtain ⟨hspace, hrest⟩ := skipWs_spec hc
  obtain ⟨hfollows, hmoved⟩ := matchChar_spec ch hspace.inside
  rw [hrest]
  exact ⟨hfollows.of_advances hspace, fun h ↦ hspace.le.trans_lt (hmoved h)⟩

section

variable {α : Type*} {c : JsonCursor} {loop : JsonCursor → Option (Option α × JsonCursor)}
  {loop' : Bytes → Option α × Bytes}

private theorem completes_word {word : Bytes} {k : ℕ} (v : α) (hk : word.length = k) (hpos : 0 < k)
    (h : word.isPrefixOf c.rest = true) :
    Completes c (some (some v, c.skip k)) (some v, c.rest.drop k) := by
  have hle := (List.isPrefixOf_iff_prefix.mp h).length_le
  rw [hk, length_rest, left] at hle
  rw [← rest_skip]
  exact .done (.skip (by omega)) (Nat.lt_add_of_pos_right hpos)

/-- An opening bracket, and the closing one or the loop. -/
theorem completes_bracketed {opening closing : UInt8} (empty : α) (hc : c.i ≤ c.s.length)
    (hloop : ∀ c' : JsonCursor, c'.i ≤ c'.s.length → c'.left < c.left →
      Completes c' (loop c') (loop' c'.rest)) :
    Completes c
      (match matchChar opening c with
        | (false, c) => some (none, c)
        | (true, c) =>
          match matchChar closing (skipWs c) with
          | (true, c) => some (some empty, c)
          | (false, c) => loop c)
      (match Json.matchChar opening c.rest with
        | (false, s) => (none, s)
        | (true, s) =>
          match Json.matchChar closing (Json.skipWs s) with
          | (true, s) => (some empty, s)
          | (false, s) => loop' s) := by
  obtain ⟨⟨hopen, hread⟩, hmoved⟩ := matchChar_spec opening hc
  rw [hread]
  generalize matchChar opening c = m at hopen hmoved
  obtain ⟨opened, c₁⟩ := m
  cases opened with
  | false => exact .failed hopen
  | true =>
    have hlt : c.i < c₁.i := hmoved rfl
    obtain ⟨⟨hclose, hread⟩, -⟩ := matchNext_spec closing hopen.inside
    simp only [hread]
    generalize matchChar closing (skipWs c₁) = m at hclose
    obtain ⟨closed, c₂⟩ := m
    cases closed with
    | true => exact .done (hopen.trans hclose) (hlt.trans_le hclose.le)
    | false =>
      have hleft : c₂.left < c.left := hclose.left_le.trans_lt (hopen.left_lt hlt)
      exact (hloop c₂ hclose.inside hleft).of_advances (hopen.trans hclose)

/-- Behind an element, the closing bracket or a comma and the next turn. -/
theorem completes_continued {closing : UInt8} (whole : α) (hc : c.i ≤ c.s.length)
    (hloop : ∀ c' : JsonCursor, c'.i ≤ c'.s.length → c'.left < c.left →
      Completes c' (loop c') (loop' c'.rest)) :
    Completes c
      (match matchChar closing (skipWs c) with
        | (true, c) => some (some whole, c)
        | (false, c) =>
          match matchChar 44 c with
          | (false, c) => some (none, c)
          | (true, c) => loop c)
      (match Json.matchChar closing (Json.skipWs c.rest) with
        | (true, s) => (some whole, s)
        | (false, s) =>
          match Json.matchChar 44 s with
          | (false, s) => (none, s)
          | (true, s) => loop' s) := by
  obtain ⟨⟨hclose, hread⟩, hmoved⟩ := matchNext_spec closing hc
  rw [hread]
  generalize matchChar closing (skipWs c) = m at hclose hmoved
  obtain ⟨closed, c₁⟩ := m
  cases closed with
  | true => exact .done hclose (hmoved rfl)
  | false =>
    obtain ⟨⟨hcomma, hread⟩, hmoved⟩ := matchChar_spec 44 hclose.inside
    simp only [hread]
    generalize matchChar 44 c₁ = m at hcomma hmoved
    obtain ⟨comma, c₂⟩ := m
    cases comma with
    | false => exact .failed (hclose.trans hcomma)
    | true =>
      have hleft : c₂.left < c.left := (hcomma.left_lt (hmoved rfl)).trans_le hclose.left_le
      exact (hloop c₂ hcomma.inside hleft).of_advances (hclose.trans hcomma)

end

/-- What holds of the calls that the bound is enough for. -/
structure Ends (fuel : ℕ) : Prop where
  value : ∀ c : JsonCursor, c.i ≤ c.s.length → 3 * c.left + 1 ≤ fuel →
    Completes c (parseValue fuel c) (Json.parseValue fuel c.rest)
  array : ∀ c : JsonCursor, c.i ≤ c.s.length → 3 * c.left ≤ fuel → 0 < fuel →
    Completes c (parseArray fuel c) (Json.parseArray fuel c.rest)
  items : ∀ (a : List DynamicVariable) (c : JsonCursor), c.i ≤ c.s.length →
    3 * c.left + 2 ≤ fuel → Completes c (itemsLoop fuel a c) (Json.itemsLoop fuel a c.rest)
  object : ∀ c : JsonCursor, c.i ≤ c.s.length → 3 * c.left ≤ fuel → 0 < fuel →
    Completes c (parseObject fuel c) (Json.parseObject fuel c.rest)
  fields : ∀ (o : List (Bytes × DynamicVariable)) (c : JsonCursor), c.i ≤ c.s.length →
    3 * c.left + 2 ≤ fuel → Completes c (fieldsLoop fuel o c) (Json.fieldsLoop fuel o c.rest)

namespace Ends

variable {fuel : ℕ}

theorem parseArray (h : Ends fuel) {c : JsonCursor} (hc : c.i ≤ c.s.length)
    (hfuel : 3 * c.left ≤ fuel + 1) :
    Completes c (parseArray (fuel + 1) c) (Json.parseArray (fuel + 1) c.rest) := by
  rw [JsonCursor.parseArray, Json.parseArray]
  exact completes_bracketed (.array []) hc fun c' hc' hleft ↦ h.items [] c' hc' (by omega)

theorem parseObject (h : Ends fuel) {c : JsonCursor} (hc : c.i ≤ c.s.length)
    (hfuel : 3 * c.left ≤ fuel + 1) :
    Completes c (parseObject (fuel + 1) c) (Json.parseObject (fuel + 1) c.rest) := by
  rw [JsonCursor.parseObject, Json.parseObject]
  exact completes_bracketed (.object []) hc fun c' hc' hleft ↦ h.fields [] c' hc' (by omega)

theorem itemsLoop (h : Ends fuel) (a : List DynamicVariable) {c : JsonCursor}
    (hc : c.i ≤ c.s.length) (hfuel : 3 * c.left + 2 ≤ fuel + 1) :
    Completes c (itemsLoop (fuel + 1) a c) (Json.itemsLoop (fuel + 1) a c.rest) := by
  obtain ⟨⟨elem, c₁⟩, hx, ⟨helem, hread⟩, -⟩ := h.value c hc (by omega)
  rw [JsonCursor.itemsLoop, Json.itemsLoop, hx, hread]
  cases elem with
  | none => exact .failed helem
  | some elem =>
    refine (completes_continued (DynamicVariable.array (a ++ [elem])) helem.inside
      fun c' hc' hlt ↦ ?_).of_advances helem
    have hleft : c'.left < c.left := hlt.trans_le helem.left_le
    exact h.items (a ++ [elem]) c' hc' (by omega)

theorem fieldsLoop (h : Ends fuel) (o : List (Bytes × DynamicVariable)) {c : JsonCursor}
    (hc : c.i ≤ c.s.length) (hfuel : 3 * c.left + 2 ≤ fuel + 1) :
    Completes c (fieldsLoop (fuel + 1) o c) (Json.fieldsLoop (fuel + 1) o c.rest) := by
  obtain ⟨⟨hkey, hread⟩, -⟩ := parseString_spec hc
  rw [JsonCursor.fieldsLoop, Json.fieldsLoop, hread]
  generalize parseString c = m at hkey
  obtain ⟨key, c₁⟩ := m
  cases key with
  | none => exact .failed hkey
  | some key =>
    obtain ⟨⟨hcolon, hread⟩, -⟩ := matchChar_spec 58 hkey.inside
    simp only [hread]
    generalize matchChar 58 c₁ = m at hcolon
    obtain ⟨colon, c₂⟩ := m
    cases colon with
    | false => exact .failed (hkey.trans hcolon)
    | true =>
      have hleft : c₂.left ≤ c.left := hcolon.left_le.trans hkey.left_le
      obtain ⟨⟨val, c₃⟩, hx, ⟨hval, hread⟩, -⟩ := h.value c₂ hcolon.inside (by omega)
      simp only [hx, hread]
      cases val with
      | none => exact .failed ((hkey.trans hcolon).trans hval)
      | some val =>
        refine (completes_continued (DynamicVariable.object (emplace key val o)) hval.inside
          fun c' hc' hlt ↦ ?_).of_advances ((hkey.trans hcolon).trans hval)
        have hleft' : c'.left < c₂.left := hlt.trans_le hval.left_le
        exact h.fields (emplace key val o) c' hc' (by omega)

theorem parseValue (h : Ends fuel) {c : JsonCursor} (hc : c.i ≤ c.s.length)
    (hfuel : 3 * c.left + 1 ≤ fuel + 1) :
    Completes c (parseValue (fuel + 1) c) (Json.parseValue (fuel + 1) c.rest) := by
  obtain ⟨hspace, hrest⟩ := skipWs_spec hc
  have hleft := hspace.left_le
  rw [JsonCursor.parseValue, Json.parseValue, hrest]
  refine .of_advances hspace ?_
  have hc' := hspace.inside
  generalize skipWs c = c at hleft hc'
  simp only
  by_cases hlt : c.i < c.s.length
  swap
  · have hfailed := Completes.failed (α := DynamicVariable) (Advances.refl hc')
    rw [rest_of_le (not_lt.mp hlt)] at hfailed ⊢
    rw [if_pos (not_lt.mp hlt)]
    exact hfailed
  have hpos := left_pos hlt
  have htrue : (c.get = 116 ∧ (c.s.drop c.i).take 4 = ascii "true") ↔
      (ascii "true").isPrefixOf c.rest = true := compare_iff rfl rfl
  have hfalse : (c.get = 102 ∧ (c.s.drop c.i).take 5 = ascii "false") ↔
      (ascii "false").isPrefixOf c.rest = true := compare_iff rfl rfl
  have hnull : (c.get = 110 ∧ (c.s.drop c.i).take 4 = ascii "null") ↔
      (ascii "null").isPrefixOf c.rest = true := compare_iff rfl rfl
  rw [if_neg (not_le.mpr hlt), rest_of_lt hlt]
  simp only
  rw [← rest_of_lt hlt]
  simp only [htrue, hfalse, hnull]
  split
  · obtain ⟨⟨htext, hread⟩, hmoved⟩ := parseString_spec hc'
    rw [hread]
    generalize JsonCursor.parseString c = x at htext hmoved ⊢
    obtain ⟨text, c'⟩ := x
    cases text with
    | none => exact .failed htext
    | some text => exact .done htext (hmoved rfl)
  split
  · exact h.object c hc' (by omega) (by omega)
  split
  · exact h.array c hc' (by omega) (by omega)
  split
  · next hword => exact completes_word _ rfl (by decide) hword
  split
  · next hword => exact completes_word _ rfl (by decide) hword
  split
  · next hword => exact completes_word _ rfl (by decide) hword
  · obtain ⟨⟨hnumber, hread⟩, hmoved⟩ := parseNumber_spec hc'
    rw [hread]
    generalize JsonCursor.parseNumber c = x at hnumber hmoved ⊢
    obtain ⟨num, c'⟩ := x
    cases num with
    | none => exact .failed hnumber
    | some num => exact .done hnumber (hmoved rfl)

end Ends

theorem ends (fuel : ℕ) : Ends fuel := by
  induction fuel with
  | zero =>
    refine ⟨?_, ?_, ?_, ?_, ?_⟩
    · intro c hc hfuel
      omega
    · intro c hc hfuel hpos
      omega
    · intro a c hc hfuel
      omega
    · intro c hc hfuel hpos
      omega
    · intro o c hc hfuel
      omega
  | succ fuel ih =>
    refine ⟨?_, ?_, ?_, ?_, ?_⟩
    · intro c hc hfuel
      exact ih.parseValue hc hfuel
    · intro c hc hfuel hpos
      exact ih.parseArray hc hfuel
    · intro a c hc hfuel
      exact ih.itemsLoop a hc hfuel
    · intro c hc hfuel hpos
      exact ih.parseObject hc hfuel
    · intro o c hc hfuel
      exact ih.fieldsLoop o hc hfuel

/-! ## The bound does not matter

A larger bound changes nothing once a call has ended within it. Since every level of values takes a
byte, the length of the text is a bound for all calls. -/

/-- A call that has ended ends in the same way with a larger bound. -/
structure Settled (fuel : ℕ) : Prop where
  value : ∀ c, parseValue fuel c = none ∨ parseValue (fuel + 1) c = parseValue fuel c
  array : ∀ c, parseArray fuel c = none ∨ parseArray (fuel + 1) c = parseArray fuel c
  items : ∀ a c, itemsLoop fuel a c = none ∨ itemsLoop (fuel + 1) a c = itemsLoop fuel a c
  object : ∀ c, parseObject fuel c = none ∨ parseObject (fuel + 1) c = parseObject fuel c
  fields : ∀ o c, fieldsLoop fuel o c = none ∨ fieldsLoop (fuel + 1) o c = fieldsLoop fuel o c

namespace Settled

variable {fuel : ℕ}

theorem parseValue (h : Settled fuel) (c : JsonCursor) :
    parseValue (fuel + 1) c = none ∨ parseValue (fuel + 2) c = parseValue (fuel + 1) c := by
  rw [JsonCursor.parseValue, JsonCursor.parseValue]
  simp only
  split
  · exact .inr rfl
  split
  · exact .inr rfl
  split
  · exact h.object _
  split
  · exact h.array _
  · exact .inr rfl

theorem parseArray (h : Settled fuel) (c : JsonCursor) :
    parseArray (fuel + 1) c = none ∨ parseArray (fuel + 2) c = parseArray (fuel + 1) c := by
  rw [JsonCursor.parseArray, JsonCursor.parseArray]
  split
  · exact .inr rfl
  split
  · exact .inr rfl
  · exact h.items _ _

theorem itemsLoop (h : Settled fuel) (a : List DynamicVariable) (c : JsonCursor) :
    itemsLoop (fuel + 1) a c = none ∨ itemsLoop (fuel + 2) a c = itemsLoop (fuel + 1) a c := by
  rw [JsonCursor.itemsLoop, JsonCursor.itemsLoop]
  obtain hnone | heq := h.value c
  · rw [hnone]
    exact .inl rfl
  rw [heq]
  split
  · exact .inl rfl
  · exact .inr rfl
  split
  · exact .inr rfl
  split
  · exact .inr rfl
  · exact h.items _ _

theorem parseObject (h : Settled fuel) (c : JsonCursor) :
    parseObject (fuel + 1) c = none ∨ parseObject (fuel + 2) c = parseObject (fuel + 1) c := by
  rw [JsonCursor.parseObject, JsonCursor.parseObject]
  split
  · exact .inr rfl
  split
  · exact .inr rfl
  · exact h.fields _ _

theorem fieldsLoop (h : Settled fuel) (o : List (Bytes × DynamicVariable)) (c : JsonCursor) :
    fieldsLoop (fuel + 1) o c = none ∨ fieldsLoop (fuel + 2) o c = fieldsLoop (fuel + 1) o c := by
  rw [JsonCursor.fieldsLoop, JsonCursor.fieldsLoop]
  split
  · exact .inr rfl
  split
  · exact .inr rfl
  next c' _ =>
  obtain hnone | heq := h.value c'
  · rw [hnone]
    exact .inl rfl
  rw [heq]
  split
  · exact .inl rfl
  · exact .inr rfl
  split
  · exact .inr rfl
  split
  · exact .inr rfl
  · exact h.fields _ _

end Settled

theorem settled (fuel : ℕ) : Settled fuel := by
  induction fuel with
  | zero =>
    exact ⟨fun _ ↦ .inl rfl, fun _ ↦ .inl rfl, fun _ _ ↦ .inl rfl, fun _ ↦ .inl rfl,
      fun _ _ ↦ .inl rfl⟩
  | succ fuel ih =>
    exact ⟨ih.parseValue, ih.parseArray, ih.itemsLoop, ih.parseObject, ih.fieldsLoop⟩

private theorem eq_some_of_settled {α : Type*} {f : ℕ → Option α}
    (h : ∀ fuel, f fuel = none ∨ f (fuel + 1) = f fuel) {n : ℕ} {x : α} (hn : f n = some x)
    {fuel : ℕ} (hfuel : n ≤ fuel) : f fuel = some x := by
  induction fuel, hfuel using Nat.le_induction with
  | base => exact hn
  | succ fuel _ ih =>
    obtain hnone | heq := h fuel
    · rw [hnone] at ih
      cases ih
    · rw [heq, ih]

/-- A call from `c` ends: it has one outcome, with every bound from some number on, and leaves the
cursor inside the text, where it was or further on; if it succeeds it has taken at least one byte.
-/
def EndsInside {α : Type*} (c : JsonCursor) (call : ℕ → Option (Option α × JsonCursor)) : Prop :=
  ∃ (n : ℕ) (v : Option α) (c' : JsonCursor), (∀ fuel, n ≤ fuel → call fuel = some (v, c')) ∧
    Advances c c' ∧ (v.isSome = true → c.i < c'.i)

private theorem Completes.endsInside {α : Type*} {c : JsonCursor}
    {call : ℕ → Option (Option α × JsonCursor)} {n : ℕ} {y : Option α × Bytes}
    (h : Completes c (call n) y)
    (hsettled : ∀ fuel, call fuel = none ∨ call (fuel + 1) = call fuel) : EndsInside c call := by
  obtain ⟨⟨v, c'⟩, hx, hfollows, hmoved⟩ := h
  exact ⟨n, v, c', fun fuel hfuel ↦ eq_some_of_settled hsettled hx hfuel, hfollows.advances, hmoved⟩

/-! ## The parser

The function of the source has no bound. What it does is what the function with a bound does for
every bound that is large enough, and there is one. -/

/-- The functions over bytes leave the cursor inside the text, where it was or further on. -/
structure BytesAdvance (c : JsonCursor) : Prop where
  skipWs : Advances c (skipWs c)
  matchChar : ∀ ch, Advances c (matchChar ch c).2
  stringLoop : ∀ out, Advances c (stringLoop out c).2
  parseString : Advances c (parseString c).2
  numberLoop : ∀ dot, Advances c (numberLoop dot c)
  parseNumber : Advances c (parseNumber c).2

/-- The functions that call each other end. -/
structure CallsEnd (c : JsonCursor) : Prop where
  parseValue : EndsInside c fun fuel ↦ parseValue fuel c
  parseArray : EndsInside c fun fuel ↦ parseArray fuel c
  itemsLoop : ∀ a, EndsInside c fun fuel ↦ itemsLoop fuel a c
  parseObject : EndsInside c fun fuel ↦ parseObject fuel c
  fieldsLoop : ∀ o, EndsInside c fun fuel ↦ fieldsLoop fuel o c

variable {c : JsonCursor}

private theorem bytesAdvance (hc : c.i ≤ c.s.length) : BytesAdvance c where
  skipWs := (skipWs_spec hc).1
  matchChar ch := (matchChar_spec ch hc).1.advances
  stringLoop _ := (stringLoop_spec hc le_rfl).advances
  parseString := (parseString_spec hc).1.advances
  numberLoop dot := (numberLoop_spec dot hc).1
  parseNumber := (parseNumber_spec hc).1.advances

private theorem callsEnd (hc : c.i ≤ c.s.length) : CallsEnd c where
  parseValue := ((ends _).value c hc le_rfl).endsInside fun fuel ↦ (settled fuel).value c
  parseArray := ((ends (3 * c.left + 1)).array c hc (Nat.le_succ _) (Nat.succ_pos _)).endsInside
    fun fuel ↦ (settled fuel).array c
  itemsLoop a := ((ends _).items a c hc le_rfl).endsInside fun fuel ↦ (settled fuel).items a c
  parseObject := ((ends (3 * c.left + 1)).object c hc (Nat.le_succ _) (Nat.succ_pos _)).endsInside
    fun fuel ↦ (settled fuel).object c
  fieldsLoop o := ((ends _).fields o c hc le_rfl).endsInside fun fuel ↦ (settled fuel).fields o c

/-- **`parse_json` at its cursor refines the parser on lists.** -/
theorem parseJson_eq {text : Bytes} {fuel : ℕ} (hfuel : 3 * text.length + 1 ≤ fuel) :
    parseJson fuel text = some (Json.parseJson text) := by
  obtain ⟨⟨v, c⟩, hx, ⟨hadvances, hread⟩, -⟩ :=
    (ends (3 * text.length + 1)).value { s := text } (Nat.zero_le _) le_rfl
  have hx' := eq_some_of_settled (fun fuel ↦ (settled fuel).value { s := text }) hx hfuel
  have hs : c.s = text := hadvances.s_eq
  have hposition {c' : JsonCursor} (h : Advances c c') :
      text.length - c'.rest.length = c'.i ∧ c'.i ≤ text.length := by
    have hinside := h.inside
    rw [length_rest, left]
    rw [h.s_eq, hs] at hinside ⊢
    omega
  have hread' : Json.parseValue (3 * text.length + 1) text = (v, c.rest) := hread
  rw [parseJson, Json.parseJson, hx', hread']
  cases v with
  | none =>
    simp only
    rw [(hposition (.refl hadvances.inside)).1]
  | some v =>
    have hinside : c.i ≤ c.s.length := hadvances.inside
    obtain ⟨hspace, hrest⟩ := skipWs_spec hinside
    obtain ⟨hpos, hle⟩ := hposition hspace
    have hend : (skipWs c).rest.isEmpty = true ↔ (skipWs c).i = text.length := by
      rw [List.isEmpty_iff, ← List.length_eq_zero_iff]
      rw [length_rest, left, hspace.s_eq, hs] at hpos ⊢
      omega
    simp only [hrest, hpos, hend]
    by_cases heq : (skipWs c).i = text.length
    · rw [if_pos heq, if_neg (not_not.mpr heq)]
    · rw [if_neg heq, if_pos heq]

/-- **The parser ends inside the text**, from every position of every text, and `parse_json` reports
an error at a position of the text. -/
theorem parser_ends :
    (∀ c : JsonCursor, c.i ≤ c.s.length → BytesAdvance c ∧ CallsEnd c) ∧
    ∀ text : Bytes, ∃ (n : ℕ) (result : Except ℕ DynamicVariable),
      (∀ fuel, n ≤ fuel → parseJson fuel text = some result) ∧
      ∀ pos, result = .error pos → pos ≤ text.length := by
  refine ⟨fun c hc ↦ ⟨bytesAdvance hc, callsEnd hc⟩, fun text ↦ ?_⟩
  refine ⟨_, _, fun fuel hfuel ↦ parseJson_eq hfuel, fun pos h ↦ ?_⟩
  rw [Json.parseJson] at h
  split at h
  · rw [← Except.error.inj h]
    exact Nat.sub_le _ _
  · simp only at h
    split at h
    · cases h
    · rw [← Except.error.inj h]
      exact Nat.sub_le _ _

/-- An array that is not closed, from its second byte. -/
theorem parser_ends_openArray :
    BytesAdvance { s := ascii "[1", i := 1 } ∧ CallsEnd { s := ascii "[1", i := 1 } :=
  parser_ends.1 { s := ascii "[1", i := 1 } (by decide)

end Wasapi.Json.JsonCursor
