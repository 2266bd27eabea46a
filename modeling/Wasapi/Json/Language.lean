import Wasapi.Json.LooseTokens

/-!
# The parser accepts its language

`parse_json` accepts the texts of the loose grammar and no others, and returns the value a text
stands for.

Completeness follows the derivation: whatever stands behind a value, the parser consumes just its
text. Soundness follows the calls: whenever one of them succeeds, what it has consumed has a
derivation.
-/

namespace Wasapi.Json

variable {t s tail rest : Bytes} {v : DynamicVariable}

/-! ## Completeness

A derivation is followed from the root. Each constructor is one way through `parse_value`, and the
text behind the value stays as it is. -/

variable {fuel : ℕ} {ws : Bytes}

private theorem itemsLoop_close (h : parseValue fuel s = (some v, ws ++ 93 :: tail))
    (hws : Blank ws) (a : List DynamicVariable) :
    itemsLoop (fuel + 1) a s = (some (.array (a ++ [v])), tail) := by
  rw [itemsLoop, h]
  simp only
  rw [matchChar_close hws (by decide)]

private theorem itemsLoop_comma (h : parseValue fuel s = (some v, ws ++ 44 :: rest))
    (hws : Blank ws) (a : List DynamicVariable) :
    itemsLoop (fuel + 1) a s = itemsLoop fuel (a ++ [v]) rest := by
  rw [itemsLoop, h]
  simp only
  rw [skipWs_blank hws, matchChar_comma (by decide)]
  simp only
  rw [matchChar_self (by decide)]

private theorem fieldsLoop_close {before beforeColon : Bytes} (hbefore : Blank before)
    (hcolon : Blank beforeColon) (key : List LooseChar)
    (h : parseValue fuel s = (some v, ws ++ 125 :: tail)) (hws : Blank ws)
    (o : List (Bytes × DynamicVariable)) :
    fieldsLoop (fuel + 1) o (before ++ (quoted key ++ (beforeColon ++ 58 :: s))) =
      (some (.object (emplace (key.flatMap LooseChar.bytes) v o)), tail) := by
  rw [fieldsLoop, parseString_quoted hbefore]
  simp only
  rw [matchChar_blank hcolon, matchChar_self (by decide)]
  simp only
  rw [h]
  simp only
  rw [matchChar_close hws (by decide)]

private theorem fieldsLoop_comma {before beforeColon : Bytes} (hbefore : Blank before)
    (hcolon : Blank beforeColon) (key : List LooseChar)
    (h : parseValue fuel s = (some v, ws ++ 44 :: rest)) (hws : Blank ws)
    (o : List (Bytes × DynamicVariable)) :
    fieldsLoop (fuel + 1) o (before ++ (quoted key ++ (beforeColon ++ 58 :: s))) =
      fieldsLoop fuel (emplace (key.flatMap LooseChar.bytes) v o) rest := by
  rw [fieldsLoop, parseString_quoted hbefore]
  simp only
  rw [matchChar_blank hcolon, matchChar_self (by decide)]
  simp only
  rw [h]
  simp only
  rw [skipWs_blank hws, matchChar_comma (by decide)]
  simp only
  rw [matchChar_self (by decide)]

/-- The items do not look like the end of the array. -/
theorem LooseItems.skipWs_text {a : List DynamicVariable} (h : LooseItems t a) (tail : Bytes) :
    ∃ b s, skipWs (t ++ tail) = b :: s ∧ b ≠ 93 := by
  have hstart {ws t : Bytes} (hws : Blank ws) {v : DynamicVariable} (h : LooseValue t v)
      (rest : Bytes) : ∃ b s, skipWs (ws ++ (t ++ rest)) = b :: s ∧ b ≠ 93 := by
    obtain ⟨b, s, rfl, hspace, hclose⟩ := h.text_cons
    rw [skipWs_blank hws, List.cons_append, skipWs_cons hspace]
    exact ⟨b, _, rfl, hclose⟩
  cases h with
  | last hws h hws' =>
    rw [List.append_assoc, List.append_assoc]
    exact hstart hws h _
  | cons hws h hws' hmore =>
    rw [List.append_assoc, List.append_assoc, List.append_assoc]
    exact hstart hws h _

private theorem LooseMembers.skipWs_text {o o' : List (Bytes × DynamicVariable)}
    (h : LooseMembers t o o') (tail : Bytes) : ∃ s, skipWs (t ++ tail) = 34 :: s := by
  have hstart {ws : Bytes} (hws : Blank ws) (key : List LooseChar) (rest : Bytes) :
      ∃ s, skipWs (ws ++ (quoted key ++ rest)) = 34 :: s := by
    rw [skipWs_blank hws, quoted, List.cons_append, skipWs_cons (by decide)]
    exact ⟨_, rfl⟩
  cases h with
  | last key hbefore hcolon hcolon' h hafter =>
    rw [List.append_assoc, List.append_assoc, List.append_assoc]
    exact hstart hbefore key _
  | cons key hbefore hcolon hcolon' h hafter hmore =>
    rw [List.append_assoc, List.append_assoc, List.append_assoc]
    exact hstart hbefore key _

private theorem parseValue_looseNumber (n : LooseNumber) {num : ℚ} (h : toDouble n.value = some num)
    (htail : StopsNumber tail) (fuel : ℕ) :
    parseValue (fuel + 1) (n.text ++ tail) = (some (.number num), tail) := by
  have hread := parseNumber_text n htail
  obtain ⟨b, s, hcons, hb⟩ := n.text_cons
  obtain ⟨hspace, hquote, hbracket, -, hbrace, ht, hf, hn⟩ := starts_looseNumber b hb
  have htrue : (ascii "true").isPrefixOf (b :: (s ++ tail)) = false := isPrefixOf_of_ne ht _ _
  have hfalse : (ascii "false").isPrefixOf (b :: (s ++ tail)) = false := isPrefixOf_of_ne hf _ _
  have hnull : (ascii "null").isPrefixOf (b :: (s ++ tail)) = false := isPrefixOf_of_ne hn _ _
  rw [hcons, List.cons_append] at hread ⊢
  rw [parseValue, skipWs_cons hspace]
  simp only [if_neg hquote, if_neg hbrace, if_neg hbracket, htrue, hfalse, hnull,
    Bool.false_eq_true, if_false, hread, h]

mutual

/-- **A value is read**, whatever stands behind it. -/
theorem LooseValue.parse : ∀ {t : Bytes} {v : DynamicVariable}, LooseValue t v →
    ∀ {tail : Bytes}, StopsNumber tail → ∀ (fuel : ℕ), 3 * t.length + 1 ≤ fuel →
    parseValue fuel (t ++ tail) = (some v, tail)
  | _, _, .null, _, _, fuel + 1, _ => rfl
  | _, _, .bool b, _, _, fuel + 1, _ => by cases b <;> rfl
  | _, _, .number n h, _, htail, fuel + 1, _ => parseValue_looseNumber n h htail fuel
  | _, _, .string chars, tail, _, fuel + 1, _ => by
    have hread := @parseString_quoted [] (fun _ hb ↦ (nomatch hb)) chars tail
    rw [List.nil_append, quoted, List.cons_append] at hread
    rw [quoted, List.cons_append, parseValue, skipWs_cons (by decide)]
    simp only [if_true, hread]
  | _, _, @LooseValue.emptyArray ws hws, tail, _, fuel, hfuel => by
    obtain ⟨fuel, rfl⟩ : ∃ f, fuel = f + 2 := ⟨fuel - 2, by simp at hfuel; omega⟩
    rw [List.cons_append, List.append_assoc, List.singleton_append, parseValue_bracket,
      matchChar_close hws (by decide)]
  | _, _, @LooseValue.array t a h, tail, _, fuel, hfuel => by
    simp only [List.length_cons, List.length_append, List.length_nil] at hfuel
    obtain ⟨fuel, rfl⟩ : ∃ f, fuel = f + 2 + 2 := ⟨fuel - 4, by omega⟩
    have hread := h.parse [] tail (fuel + 2) (by omega)
    obtain ⟨b, s, hskip, hne⟩ := h.skipWs_text (93 :: tail)
    rw [List.cons_append, List.append_assoc, List.singleton_append, parseValue_bracket,
      matchChar_of_skipWs hskip hne]
    simp only
    rw [itemsLoop_skipWs]
    exact hread
  | _, _, @LooseValue.emptyObject ws hws, tail, _, fuel, hfuel => by
    obtain ⟨fuel, rfl⟩ : ∃ f, fuel = f + 2 := ⟨fuel - 2, by simp at hfuel; omega⟩
    rw [List.cons_append, List.append_assoc, List.singleton_append, parseValue_brace,
      matchChar_close hws (by decide)]
  | _, _, @LooseValue.object t o h, tail, _, fuel, hfuel => by
    simp only [List.length_cons, List.length_append, List.length_nil] at hfuel
    obtain ⟨fuel, rfl⟩ : ∃ f, fuel = f + 1 + 2 := ⟨fuel - 3, by omega⟩
    have hread := h.parse tail (fuel + 1) (by omega)
    obtain ⟨s, hskip⟩ := h.skipWs_text (125 :: tail)
    rw [List.cons_append, List.append_assoc, List.singleton_append, parseValue_brace,
      matchChar_of_skipWs hskip (by decide)]
    simp only
    rw [fieldsLoop_skipWs]
    exact hread

/-- The items of an array are read. -/
theorem LooseItems.parse : ∀ {t : Bytes} {a' : List DynamicVariable}, LooseItems t a' →
    ∀ (a : List DynamicVariable) (tail : Bytes) (fuel : ℕ), 3 * t.length + 2 ≤ fuel →
    itemsLoop fuel a (t ++ 93 :: tail) = (some (.array (a ++ a')), tail)
  | _, _, @LooseItems.last ws t ws' v hws h hws', a, tail, fuel, hfuel => by
    simp only [List.length_append] at hfuel
    obtain ⟨fuel, rfl⟩ : ∃ f, fuel = f + 1 + 1 := ⟨fuel - 2, by omega⟩
    have hread := h.parse
      (stopsNumber_of_blank hws' (stopsNumber_cons (b := 93) (by decide) tail)) (fuel + 1)
      (by omega)
    rw [← parseValue_blank hws] at hread
    rw [List.append_assoc, List.append_assoc]
    exact itemsLoop_close hread hws' a
  | _, _, @LooseItems.cons ws t ws' more v a' hws h hws' hmore, a, tail, fuel, hfuel => by
    simp only [List.length_append, List.length_cons] at hfuel
    obtain ⟨fuel, rfl⟩ : ∃ f, fuel = f + 1 + 1 := ⟨fuel - 2, by omega⟩
    have hread := h.parse (stopsNumber_of_blank hws'
      (stopsNumber_cons (b := 44) (by decide) (more ++ 93 :: tail))) (fuel + 1) (by omega)
    have hrest := hmore.parse (a ++ [v]) tail (fuel + 1) (by omega)
    rw [← parseValue_blank hws] at hread
    rw [List.append_assoc, List.singleton_append] at hrest
    simp only [List.append_assoc, List.cons_append]
    rw [itemsLoop_comma hread hws', hrest]

/-- The members of an object are read. -/
theorem LooseMembers.parse : ∀ {t : Bytes} {o o' : List (Bytes × DynamicVariable)},
    LooseMembers t o o' → ∀ (tail : Bytes) (fuel : ℕ), 3 * t.length + 2 ≤ fuel →
    fieldsLoop fuel o (t ++ 125 :: tail) = (some (.object o'), tail)
  | _, o, _, @LooseMembers.last before beforeColon afterColon t after v _ key hbefore hcolon
      hcolon' h hafter, tail, fuel, hfuel => by
    simp only [List.length_append, List.length_cons] at hfuel
    obtain ⟨fuel, rfl⟩ : ∃ f, fuel = f + 1 + 1 := ⟨fuel - 2, by omega⟩
    have hread := h.parse
      (stopsNumber_of_blank hafter (stopsNumber_cons (b := 125) (by decide) tail)) (fuel + 1)
      (by omega)
    rw [← parseValue_blank hcolon'] at hread
    simp only [List.append_assoc, List.cons_append]
    exact fieldsLoop_close hbefore hcolon key hread hafter o
  | _, o, o', @LooseMembers.cons before beforeColon afterColon t after more v _ _ key hbefore
      hcolon hcolon' h hafter hmore, tail, fuel, hfuel => by
    simp only [List.length_append, List.length_cons] at hfuel
    obtain ⟨fuel, rfl⟩ : ∃ f, fuel = f + 1 + 1 := ⟨fuel - 2, by omega⟩
    have hread := h.parse (stopsNumber_of_blank hafter
      (stopsNumber_cons (b := 44) (by decide) (more ++ 125 :: tail))) (fuel + 1) (by omega)
    have hrest := hmore.parse tail (fuel + 1) (by omega)
    rw [← parseValue_blank hcolon'] at hread
    simp only [List.append_assoc, List.cons_append]
    rw [fieldsLoop_comma hbefore hcolon key hread hafter, hrest]

end

/-! ## Soundness

The other way round, by induction on the bound: a call that succeeds has consumed a text, and its
parts have derivations because the calls that read them have succeeded. -/

private theorem blank_nil : Blank [] := fun _ hb ↦ (nomatch hb)

theorem Blank.append {ws ws' : Bytes} (h : Blank ws) (h' : Blank ws') : Blank (ws ++ ws') :=
  fun b hb ↦ (List.mem_append.mp hb).elim (h b) (h' b)

private theorem exists_of_matchChar {ch : UInt8} (h : matchChar ch s = (true, rest)) :
    ∃ ws, Blank ws ∧ s = ws ++ ch :: rest := by
  obtain ⟨ws, hws, hs⟩ := exists_skipWs s
  rw [matchChar] at h
  cases hskip : skipWs s with
  | nil =>
    rw [hskip] at h
    cases h
  | cons b s' =>
    rw [hskip] at h hs
    dsimp only at h
    split at h
    · next hb =>
      obtain rfl := (Prod.mk.inj h).2
      exact ⟨ws, hws, hb ▸ hs⟩
    · cases h

/-- A character that is not there leaves the cursor behind the white space. -/
theorem eq_skipWs_of_matchChar {ch : UInt8} (h : matchChar ch s = (false, rest)) :
    rest = skipWs s := by
  rw [matchChar] at h
  cases hskip : skipWs s with
  | nil =>
    rw [hskip] at h
    exact (Prod.mk.inj h).2.symm
  | cons b s' =>
    rw [hskip] at h
    dsimp only at h
    split at h
    · cases h
    · exact (Prod.mk.inj h).2.symm

/-- A comma, where the closing bracket has been looked for first. -/
theorem exists_of_comma {close : UInt8} {s' : Bytes}
    (hclose : matchChar close (skipWs s) = (false, s')) (hcomma : matchChar 44 s' = (true, rest)) :
    ∃ ws, Blank ws ∧ s = ws ++ 44 :: rest := by
  rw [matchChar_skipWs] at hclose
  rw [eq_skipWs_of_matchChar hclose, matchChar_skipWs] at hcomma
  exact exists_of_matchChar hcomma

private theorem LooseItems.blank_append {a : List DynamicVariable} (h : LooseItems t a)
    (hws : Blank ws) :
    LooseItems (ws ++ t) a := by
  cases h with
  | last hws' h hafter =>
    rw [← List.append_assoc, ← List.append_assoc]
    exact .last (hws.append hws') h hafter
  | cons hws' h hafter hmore =>
    rw [← List.append_assoc, ← List.append_assoc, ← List.append_assoc]
    exact .cons (hws.append hws') h hafter hmore

private theorem LooseMembers.blank_append {o o' : List (Bytes × DynamicVariable)}
    (h : LooseMembers t o o') (hws : Blank ws) : LooseMembers (ws ++ t) o o' := by
  cases h with
  | last key hbefore hcolon hcolon' h hafter =>
    rw [← List.append_assoc, ← List.append_assoc, ← List.append_assoc]
    exact .last key (hws.append hbefore) hcolon hcolon' h hafter
  | cons key hbefore hcolon hcolon' h hafter hmore =>
    rw [← List.append_assoc, ← List.append_assoc, ← List.append_assoc]
    exact .cons key (hws.append hbefore) hcolon hcolon' h hafter hmore

/-- What a call has consumed is white space and a value. -/
def Consumes (s : Bytes) (v : DynamicVariable) (rest : Bytes) : Prop :=
  ∃ ws t, Blank ws ∧ LooseValue t v ∧ s = ws ++ (t ++ rest)

/-- What the calls consume has derivations. -/
structure Sound (fuel : ℕ) : Prop where
  value : ∀ {s v rest}, parseValue fuel s = (some v, rest) → Consumes s v rest
  array : ∀ {s v rest}, parseArray fuel s = (some v, rest) → Consumes s v rest
  items : ∀ {a s v rest}, itemsLoop fuel a s = (some v, rest) →
    ∃ t a', LooseItems t a' ∧ s = t ++ 93 :: rest ∧ v = .array (a ++ a')
  object : ∀ {s v rest}, parseObject fuel s = (some v, rest) → Consumes s v rest
  fields : ∀ {o s v rest}, fieldsLoop fuel o s = (some v, rest) →
    ∃ t o', LooseMembers t o o' ∧ s = t ++ 125 :: rest ∧ v = .object o'

theorem Sound.parseArray (h : Sound fuel) (hread : parseArray (fuel + 1) s = (some v, rest)) :
    Consumes s v rest := by
  rw [Json.parseArray] at hread
  split at hread
  · cases hread
  next s₁ hopen =>
  obtain ⟨ws, hws, rfl⟩ := exists_of_matchChar hopen
  split at hread
  · next s₂ hclose =>
    rw [matchChar_skipWs] at hclose
    obtain ⟨ws', hws', rfl⟩ := exists_of_matchChar hclose
    cases hread
    exact ⟨ws, _, hws, .emptyArray hws', by simp⟩
  · next s₂ hclose =>
    rw [matchChar_skipWs] at hclose
    obtain rfl := eq_skipWs_of_matchChar hclose
    obtain ⟨t, a, hitems, hs, rfl⟩ := h.items hread
    obtain ⟨ws', hws', hs'⟩ := exists_skipWs s₁
    refine ⟨ws, _, hws, .array (hitems.blank_append hws'), ?_⟩
    rw [hs', hs]
    simp

theorem Sound.parseObject (h : Sound fuel) (hread : parseObject (fuel + 1) s = (some v, rest)) :
    Consumes s v rest := by
  rw [Json.parseObject] at hread
  split at hread
  · cases hread
  next s₁ hopen =>
  obtain ⟨ws, hws, rfl⟩ := exists_of_matchChar hopen
  split at hread
  · next s₂ hclose =>
    rw [matchChar_skipWs] at hclose
    obtain ⟨ws', hws', rfl⟩ := exists_of_matchChar hclose
    cases hread
    exact ⟨ws, _, hws, .emptyObject hws', by simp⟩
  · next s₂ hclose =>
    rw [matchChar_skipWs] at hclose
    obtain rfl := eq_skipWs_of_matchChar hclose
    obtain ⟨t, o, hmembers, hs, rfl⟩ := h.fields hread
    obtain ⟨ws', hws', hs'⟩ := exists_skipWs s₁
    refine ⟨ws, _, hws, .object (hmembers.blank_append hws'), ?_⟩
    rw [hs', hs]
    simp

theorem Sound.itemsLoop (h : Sound fuel) {a : List DynamicVariable}
    (hread : itemsLoop (fuel + 1) a s = (some v, rest)) :
    ∃ t a', LooseItems t a' ∧ s = t ++ 93 :: rest ∧ v = .array (a ++ a') := by
  rw [Json.itemsLoop] at hread
  split at hread
  · cases hread
  next elem s₁ helem =>
  obtain ⟨ws, t, hws, hvalue, rfl⟩ := h.value helem
  split at hread
  · next s₂ hclose =>
    rw [matchChar_skipWs] at hclose
    obtain ⟨ws', hws', rfl⟩ := exists_of_matchChar hclose
    cases hread
    exact ⟨_, [elem], .last hws hvalue hws', by simp, rfl⟩
  · next s₂ hclose =>
    split at hread
    · cases hread
    next s₃ hcomma =>
    obtain ⟨ws', hws', rfl⟩ := exists_of_comma hclose hcomma
    obtain ⟨more, a', hitems, rfl, rfl⟩ := h.items hread
    exact ⟨_, elem :: a', .cons hws hvalue hws' hitems, by simp, by simp⟩

theorem Sound.fieldsLoop (h : Sound fuel) {o : List (Bytes × DynamicVariable)}
    (hread : fieldsLoop (fuel + 1) o s = (some v, rest)) :
    ∃ t o', LooseMembers t o o' ∧ s = t ++ 125 :: rest ∧ v = .object o' := by
  rw [Json.fieldsLoop] at hread
  split at hread
  · cases hread
  next key s₁ hkey =>
  obtain ⟨before, chars, hbefore, rfl, rfl⟩ := exists_quoted_of_parseString hkey
  split at hread
  · cases hread
  next s₂ hcolon =>
  obtain ⟨beforeColon, hbeforeColon, rfl⟩ := exists_of_matchChar hcolon
  split at hread
  · cases hread
  next val s₃ hval =>
  obtain ⟨afterColon, t, hafterColon, hvalue, rfl⟩ := h.value hval
  split at hread
  · next s₄ hclose =>
    rw [matchChar_skipWs] at hclose
    obtain ⟨after, hafter, rfl⟩ := exists_of_matchChar hclose
    cases hread
    exact ⟨_, _, .last chars hbefore hbeforeColon hafterColon hvalue hafter, by simp, rfl⟩
  · next s₄ hclose =>
    split at hread
    · cases hread
    next s₅ hcomma =>
    obtain ⟨after, hafter, rfl⟩ := exists_of_comma hclose hcomma
    obtain ⟨more, o', hmembers, rfl, rfl⟩ := h.fields hread
    exact ⟨_, o', .cons chars hbefore hbeforeColon hafterColon hvalue hafter hmembers, by simp,
      rfl⟩

theorem Sound.parseValue (h : Sound fuel) (hread : parseValue (fuel + 1) s = (some v, rest)) :
    Consumes s v rest := by
  obtain ⟨ws, hws, hs⟩ := exists_skipWs s
  have hbehind (hconsumes : Consumes (skipWs s) v rest) : Consumes s v rest := by
    obtain ⟨ws', t, hws', hvalue, hs'⟩ := hconsumes
    refine ⟨ws ++ ws', t, hws.append hws', hvalue, ?_⟩
    rw [List.append_assoc, ← hs', ← hs]
  refine hbehind ?_
  rw [Json.parseValue] at hread
  cases hskip : skipWs s with
  | nil =>
    rw [hskip] at hread
    cases hread
  | cons ch s' =>
  rw [hskip] at hread
  dsimp only at hread
  have hword {word : Bytes} (hw : word.isPrefixOf (ch :: s') = true) {v : DynamicVariable}
      (hv : LooseValue word v) : Consumes (ch :: s') v ((ch :: s').drop word.length) :=
    ⟨[], word, blank_nil, hv,
      (List.prefix_iff_eq_append.mp (List.isPrefixOf_iff_prefix.mp hw)).symm⟩
  split at hread
  · split at hread
    · cases hread
    next str s₁ hstr =>
    obtain ⟨ws', chars, hws', hs', rfl⟩ := exists_quoted_of_parseString hstr
    cases hread
    exact ⟨ws', _, hws', .string chars, hs'⟩
  split at hread
  · exact h.object hread
  split at hread
  · exact h.array hread
  split at hread
  · next hw =>
    cases hread
    exact hword hw (.bool true)
  split at hread
  · next hw =>
    cases hread
    exact hword hw (.bool false)
  split at hread
  · next hw =>
    cases hread
    exact hword hw .null
  split at hread
  · cases hread
  next num s₁ hnum =>
  obtain ⟨ws', n, hws', hs', hdouble⟩ := exists_number_of_parseNumber hnum
  cases hread
  exact ⟨ws', _, hws', .number n hdouble, hs'⟩

private theorem sound (fuel : ℕ) : Sound fuel := by
  induction fuel with
  | zero =>
    refine ⟨?_, ?_, ?_, ?_, ?_⟩
    · intro s v rest hread
      cases hread
    · intro s v rest hread
      cases hread
    · intro a s v rest hread
      cases hread
    · intro s v rest hread
      cases hread
    · intro o s v rest hread
      cases hread
  | succ fuel ih =>
    exact ⟨ih.parseValue, ih.parseArray, ih.itemsLoop, ih.parseObject, ih.fieldsLoop⟩

/-! ## Texts

A text is accepted if all of it is white space, a value and white space. -/

/-- **The language of the parser.** A text is accepted exactly if it is one of the loose grammar,
and then the value is that of the text. -/
theorem parseJson_eq_ok_iff (text : Bytes) (v : DynamicVariable) :
    parseJson text = .ok v ↔ LooseText text v := by
  constructor
  · intro h
    rw [parseJson] at h
    split at h
    · cases h
    next v' s hread =>
    obtain ⟨before, t, hbefore, hvalue, htext⟩ := (sound _).value hread
    obtain ⟨after, hafter, hs⟩ := exists_skipWs s
    dsimp only at h
    split at h
    · next hempty =>
      rw [List.isEmpty_iff.mp hempty, List.append_nil] at hs
      cases h
      exact ⟨before, t, after, hbefore, hvalue, hafter, by rw [htext, hs, List.append_assoc]⟩
    · cases h
  · rintro ⟨before, t, after, hbefore, hvalue, hafter, rfl⟩
    have hstops : StopsNumber after := by
      have hstops := stopsNumber_of_blank hafter stopsNumber_nil
      rwa [List.append_nil] at hstops
    have hskip : skipWs after = [] := by
      have hskip := skipWs_blank hafter []
      rwa [List.append_nil] at hskip
    have hread := hvalue.parse hstops (3 * (before ++ t ++ after).length + 1)
      (by rw [List.length_append, List.length_append]; omega)
    rw [← parseValue_blank hbefore, ← List.append_assoc] at hread
    rw [parseJson, hread]
    simp only [hskip, List.isEmpty_nil, if_true]

end Wasapi.Json
