import Wasapi.Fastcgi.Wire

/-!
# Name/value pairs

The content of a PARAMS record is a sequence of pairs, each a name length, a value length, the name
and the value; a length takes one octet below 128 and four octets below 2³¹. Reading a buffer is
done in two layers: `nextPair` is what one turn of the source's loop reads at `p`, and `paramsLoop`
is the loop with its limit.

`paramsLoop` interleaves reading and storing. `paramsLoop_eq` separates them: the pairs a record
holds (`pairsOf`) do not depend on the request, and `storePairs` stores them one by one until the
limit is passed.
-/

namespace Wasapi.Fastcgi

/-! ## Lengths

`decode_length` moves its pointer and cannot say that it failed: at the end of the buffer, or with
four octets announced and fewer there, it returns zero and moves to the end. Here the number and
what is left are returned together. -/

/-- `decode_length`: the length at the front of `[p, end)` and where `p` is left. -/
def decodeLength (p : Bytes) : ℕ × Bytes :=
  match p with
  | [] => (0, [])
  | b :: rest =>
    if b &&& 0x80 = 0 then (b.toNat, rest)
    else
      match rest with
      | b₁ :: b₂ :: b₃ :: rest =>
        (((b &&& 0x7F).toNat <<< 24) ||| (b₁.toNat <<< 16) ||| (b₂.toNat <<< 8) ||| b₃.toNat, rest)
      -- a four-octet length that is cut off reads as zero and swallows what is there
      | _ => (0, [])

/-- The two ways to write a length. -/
inductive LengthForm where
  | short
  | long
  deriving DecidableEq

namespace LengthForm

/-- The lengths a form can express. -/
def Fits : LengthForm → ℕ → Prop
  | short, n => n < 2 ^ 7
  | long, n => n < 2 ^ 31

instance (f : LengthForm) (n : ℕ) : Decidable (f.Fits n) := by
  cases f <;> exact inferInstanceAs (Decidable (_ < _))

def encode : LengthForm → ℕ → Bytes
  | short, n => [UInt8.ofNat n]
  | long, n => beBytes 4 (2 ^ 31 + n)

/-- The form that takes fewer octets. -/
def shortest (n : ℕ) : LengthForm := if n < 2 ^ 7 then short else long

theorem fits_shortest {n : ℕ} (h : n < 2 ^ 31) : (shortest n).Fits n := by
  rw [shortest]
  split
  · next hshort => exact hshort
  · exact h

/-- Four octets with the highest bit set are a length. -/
theorem exists_encode_long {b : UInt8} (hhigh : 128 ≤ b.toNat) (b₁ b₂ b₃ : UInt8) :
    ∃ n < 2 ^ 31, long.encode n = [b, b₁, b₂, b₃] := by
  have hlt : beValue [b, b₁, b₂, b₃] < 256 ^ 4 := beValue_lt [b, b₁, b₂, b₃]
  have hle : 2 ^ 31 ≤ beValue [b, b₁, b₂, b₃] := by
    simp only [beValue, List.foldl_cons, List.foldl_nil]
    omega
  refine ⟨beValue [b, b₁, b₂, b₃] - 2 ^ 31, by omega, ?_⟩
  rw [encode, Nat.add_sub_cancel' hle]
  exact beBytes_beValue [b, b₁, b₂, b₃]

end LengthForm

theorem decodeLength_encode {f : LengthForm} {n : ℕ} (h : f.Fits n) (e : Bytes) :
    decodeLength (f.encode n ++ e) = (n, e) := by
  cases f with
  | short =>
    simp only [LengthForm.Fits] at h
    have hn : (UInt8.ofNat n).toNat = n := by
      rw [UInt8.toNat_ofNat']
      exact Nat.mod_eq_of_lt (by omega)
    rw [LengthForm.encode, List.singleton_append, decodeLength.eq_def]
    simp only
    rw [if_pos ((and_high_eq_zero_iff _).mpr (by omega)), hn]
  | long =>
    simp only [LengthForm.Fits] at h
    obtain ⟨a, b, c, d, hl⟩ : ∃ a b c d, beBytes 4 (2 ^ 31 + n) = [a, b, c, d] := by
      have hlen := length_beBytes 4 (2 ^ 31 + n)
      match hbs : beBytes 4 (2 ^ 31 + n), hlen with
      | [a, b, c, d], _ => exact ⟨a, b, c, d, rfl⟩
    have hval : beValue [a, b, c, d] = 2 ^ 31 + n := by
      rw [← hl, beValue_beBytes (by norm_num; omega)]
    simp only [beValue, List.foldl_cons, List.foldl_nil, Nat.zero_mul, Nat.zero_add] at hval
    have ha : a.toNat < 256 := a.toNat_lt
    have hb : b.toNat < 256 := b.toNat_lt
    have hc : c.toNat < 256 := c.toNat_lt
    have hd : d.toNat < 256 := d.toNat_lt
    have h128 : 128 ≤ a.toNat := by omega
    have hhigh : ¬(a &&& 0x80 = 0) := by
      rw [and_high_eq_zero_iff]
      omega
    -- the top bit of the first octet is worth 2³¹
    have hsum : ((a.toNat % 128 * 256 + b.toNat) * 256 + c.toNat) * 256 + d.toNat = n := by
      obtain ⟨k, hk⟩ : ∃ k, a.toNat = 128 + k := ⟨a.toNat - 128, by omega⟩
      rw [hk] at hval ha ⊢
      rw [Nat.add_mod_left, Nat.mod_eq_of_lt (by omega)]
      linarith
    rw [LengthForm.encode, hl, decodeLength.eq_def]
    simp only [List.cons_append, List.nil_append]
    rw [if_neg hhigh, toNat_and_low, shift_or_octets, hsum]

/-- A length in front of something takes no less than its shortest form, and is written in that form
if it takes no more. -/
theorem encode_of_decodeLength {p q : Bytes} {n : ℕ} (h : decodeLength p = (n, q)) (hq : q ≠ []) :
    n < 2 ^ 31 ∧ ((LengthForm.shortest n).encode n).length + q.length ≤ p.length ∧
      (((LengthForm.shortest n).encode n).length + q.length = p.length →
        p = (LengthForm.shortest n).encode n ++ q) := by
  have hread := h
  rw [decodeLength.eq_def] at h
  split at h
  · obtain ⟨-, rfl⟩ := Prod.mk.inj h
    exact absurd rfl hq
  next b rest =>
  split at h
  · next hlow =>
    obtain ⟨rfl, rfl⟩ := Prod.mk.inj h
    have hb : b.toNat < 2 ^ 7 := (and_high_eq_zero_iff b).mp hlow
    rw [LengthForm.shortest, if_pos hb, LengthForm.encode, UInt8.ofNat_toNat]
    refine ⟨by omega, ?_, fun _ ↦ rfl⟩
    simp only [List.length_cons, List.length_nil]
    omega
  next hhigh =>
  split at h
  swap
  · obtain ⟨-, rfl⟩ := Prod.mk.inj h
    exact absurd rfl hq
  next b₁ b₂ b₃ rest =>
  obtain ⟨-, rfl⟩ := Prod.mk.inj h
  rw [and_high_eq_zero_iff, not_lt] at hhigh
  obtain ⟨m, hm, heq⟩ := LengthForm.exists_encode_long hhigh b₁ b₂ b₃
  have hlong : decodeLength (LengthForm.long.encode m ++ rest) = (m, rest) :=
    decodeLength_encode (f := .long) hm rest
  rw [heq] at hlong
  obtain rfl : n = m := congrArg Prod.fst (hread.symm.trans hlong)
  have hshort : (LengthForm.short.encode n).length = 1 := rfl
  rw [LengthForm.shortest]
  simp only [List.length_cons]
  split
  · exact ⟨hm, by omega, fun hfull ↦ by omega⟩
  · rw [heq]
    exact ⟨hm, (Nat.add_comm _ _).le, fun _ ↦ rfl⟩

theorem length_decodeLength_le (p : Bytes) : (decodeLength p).2.length ≤ p.length := by
  rw [decodeLength.eq_def]
  split
  · exact le_rfl
  · split
    · simp
    · split
      · simp only [List.length_cons]; omega
      · simp

/-- A length takes at least one octet of a buffer that is not empty. -/
theorem length_decodeLength_lt {p : Bytes} (h : p ≠ []) :
    (decodeLength p).2.length < p.length := by
  rw [decodeLength.eq_def]
  split
  · exact absurd rfl h
  · split
    · simp
    · split
      · simp only [List.length_cons]; omega
      · simp

/-! ## Pairs

Both lengths stand in front of both texts. A client may write a small length in four octets, so a
pair has up to four encodings, and a pair as it is written carries the forms that were chosen. -/

/-- What one turn of the loop reads at `p`: a pair and the rest, or nothing when name and value do
not fit into what is left. -/
def nextPair (p : Bytes) : Option ((Bytes × Bytes) × Bytes) :=
  let nameLen := (decodeLength p).1
  let p₁ := (decodeLength p).2
  let valueLen := (decodeLength p₁).1
  let p₂ := (decodeLength p₁).2
  if p₂.length < nameLen + valueLen then none
  else
    some ((p₂.take nameLen, (p₂.drop nameLen).take valueLen), (p₂.drop nameLen).drop valueLen)

/-- All pairs read from `p`, up to the first turn that reads nothing; `fuel` bounds their number. -/
def pairsOf : ℕ → Bytes → List (Bytes × Bytes)
  | 0, _ => []
  | fuel + 1, p =>
    if p.isEmpty then []
    else
      match nextPair p with
      | none => []
      | some (pair, p) => pair :: pairsOf fuel p

/-- A pair as a client writes it, with a legal form for each length. -/
structure EncodedPair where
  name : Bytes
  value : Bytes
  nameForm : LengthForm
  valueForm : LengthForm
  name_fits : nameForm.Fits name.length
  value_fits : valueForm.Fits value.length

namespace EncodedPair

def encode (p : EncodedPair) : Bytes :=
  p.nameForm.encode p.name.length ++ p.valueForm.encode p.value.length ++ (p.name ++ p.value)

/-- What a pair counts towards `params_bytes`. -/
def size (p : EncodedPair) : ℕ := p.name.length + p.value.length

theorem encode_ne_nil (p : EncodedPair) : p.encode ≠ [] := by
  rw [encode]
  cases p.nameForm <;> simp [LengthForm.encode, beBytes]

end EncodedPair

theorem nextPair_encode (p : EncodedPair) (e : Bytes) :
    nextPair (p.encode ++ e) = some ((p.name, p.value), e) := by
  have h₁ : decodeLength (p.encode ++ e)
      = (p.name.length, p.valueForm.encode p.value.length ++ (p.name ++ (p.value ++ e))) := by
    rw [EncodedPair.encode, List.append_assoc, List.append_assoc, List.append_assoc,
      decodeLength_encode p.name_fits]
  have h₂ := decodeLength_encode p.value_fits (p.name ++ (p.value ++ e))
  have hlen : ¬(p.name ++ (p.value ++ e)).length < p.name.length + p.value.length := by
    simp only [List.length_append]
    omega
  simp only [nextPair, h₁, h₂]
  rw [if_neg hlen, List.take_left, List.drop_left, List.take_left, List.drop_left]

theorem length_nextPair_lt {p : Bytes} {pair : Bytes × Bytes} {r : Bytes} (hp : p ≠ [])
    (h : nextPair p = some (pair, r)) : r.length < p.length := by
  rw [nextPair] at h
  split at h
  · cases h
  · rw [Option.some.injEq, Prod.mk.injEq] at h
    obtain ⟨-, rfl⟩ := h
    have h₁ := length_decodeLength_lt hp
    have h₂ := length_decodeLength_le (decodeLength p).2
    simp only [List.length_drop]
    omega

/-- A content made of whole encoded pairs is read as those pairs. -/
theorem pairsOf_encode (ps : List EncodedPair) {fuel : ℕ}
    (hfuel : (ps.flatMap EncodedPair.encode).length ≤ fuel) :
    pairsOf fuel (ps.flatMap EncodedPair.encode) = ps.map fun p ↦ (p.name, p.value) := by
  induction ps generalizing fuel with
  | nil => cases fuel <;> rfl
  | cons p ps ih =>
    have hpos : 0 < p.encode.length := List.length_pos_iff.mpr p.encode_ne_nil
    rw [List.flatMap_cons, List.length_append] at hfuel
    obtain ⟨fuel, rfl⟩ : ∃ k, fuel = k + 1 := ⟨fuel - 1, by omega⟩
    rw [List.flatMap_cons, pairsOf, if_neg (by
      rw [List.isEmpty_iff]
      simp [p.encode_ne_nil]), nextPair_encode]
    simp only
    rw [ih (by omega), List.map_cons]

/-! ## Storing pairs

The loop compares the new sum with the limit before it stores, and fails the request at the first
pair that would pass it. Reading and storing are separated here, so that what follows can speak of
the pairs of a record without a request. -/

/-- `fail_request`: answer with `status` unless the request has been answered. -/
def failRequest (r : RequestCore) (out : Bytes) (status : ProtocolStatus) : RequestCore × Bytes :=
  if r.flags.responded then (r, out)
  else
    ({ r with flags := { r.flags with responded := true, failed := true } },
      appendEndRequest out r.id 0 status)

/-- The loop over the pairs of a PARAMS record, from `p`. -/
def paramsLoop (limits : Limits) : ℕ → Bytes → RequestCore → Bytes → RequestCore × Bytes
  | 0, _, r, out => (r, out)
  | fuel + 1, p, r, out =>
    if p.isEmpty then (r, out)
    else
      match nextPair p with
      | none => (r, out)
      | some ((name, value), p) =>
        if limits.maxParamsBytes < sizeT (r.paramsBytes + name.length + value.length) then
          failRequest r out .overloaded
        else
          paramsLoop limits fuel p
            { r with
              env := r.env.assign name (.string value)
              paramsBytes := sizeT (r.paramsBytes + name.length + value.length) }
            out

/-- Storing pairs one by one until the limit is passed. -/
def storePairs (limits : Limits) :
    List (Bytes × Bytes) → RequestCore → Bytes → RequestCore × Bytes
  | [], r, out => (r, out)
  | (name, value) :: ps, r, out =>
    if limits.maxParamsBytes < sizeT (r.paramsBytes + name.length + value.length) then
      failRequest r out .overloaded
    else
      storePairs limits ps
        { r with
          env := r.env.assign name (.string value)
          paramsBytes := sizeT (r.paramsBytes + name.length + value.length) }
        out

theorem paramsLoop_eq (limits : Limits) (fuel : ℕ) (p : Bytes) (r : RequestCore) (out : Bytes) :
    paramsLoop limits fuel p r out = storePairs limits (pairsOf fuel p) r out := by
  induction fuel generalizing p r with
  | zero => rfl
  | succ fuel ih =>
    rw [paramsLoop, pairsOf]
    split
    · rfl
    · cases nextPair p with
      | none => rfl
      | some q =>
        obtain ⟨⟨name, value⟩, p⟩ := q
        simp only [storePairs, ih]

/-- `env` overwritten by the pairs, in order. -/
def assignPairs (env : DynamicVariable) (ps : List (Bytes × Bytes)) : DynamicVariable :=
  ps.foldl (fun env p ↦ env.assign p.1 (.string p.2)) env

@[simp] theorem assignPairs_nil (env : DynamicVariable) : assignPairs env [] = env := rfl

theorem assignPairs_append (env : DynamicVariable) (ps ps' : List (Bytes × Bytes)) :
    assignPairs env (ps ++ ps') = assignPairs (assignPairs env ps) ps' := List.foldl_append

end Wasapi.Fastcgi
