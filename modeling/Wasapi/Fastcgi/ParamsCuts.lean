import Wasapi.Fastcgi.Dispatch
import Wasapi.Fastcgi.RoundTrip

/-!
# PARAMS records that end inside a pair

The loop over the pairs of a PARAMS record starts anew with every record and carries nothing over.
So the pairs come through if every record holds whole pairs. Conversely no cut inside a pair goes
unnoticed, as long as nothing can take the place of the pair that is lost: when names are distinct,
not empty and new to the environment, and the lengths in their shortest form, every octet is needed
for the pairs themselves.
-/

namespace Wasapi.Fastcgi

/-- What PARAMS records with these contents, and the empty one behind them, make of a request. -/
def readParams (limits : Limits) (contents : List Bytes) (r : RequestCore) (out : Bytes) :
    RequestCore × Bytes :=
  (contents ++ [[]]).foldl (fun p content ↦ paramsRecord limits content p.1 p.2) (r, out)

/-- Every record holds whole pairs. -/
def WholePairs (pairs : List EncodedPair) (contents : List Bytes) : Prop :=
  ∃ groups : List (List EncodedPair), groups.flatten = pairs ∧
    contents = groups.map fun ps ↦ ps.flatMap EncodedPair.encode

/-- The two environments have the same variables. -/
def SameEntries (env env' : DynamicVariable) : Prop := ∀ key, env.find key = env'.find key

namespace EncodedPair

def pair (p : EncodedPair) : Bytes × Bytes := (p.name, p.value)

/-- The lengths are in their shortest form. -/
def Shortest (p : EncodedPair) : Prop :=
  p.nameForm = .shortest p.name.length ∧ p.valueForm = .shortest p.value.length

private theorem eq_of_pair_eq {p p' : EncodedPair} (hp : p.Shortest) (hp' : p'.Shortest)
    (h : p.pair = p'.pair) : p = p' := by
  obtain ⟨hname, hvalue⟩ := Prod.mk.inj h
  have hnameForm : p.nameForm = p'.nameForm := by rw [hp.1, hp'.1, hname]
  have hvalueForm : p.valueForm = p'.valueForm := by rw [hp.2, hp'.2, hvalue]
  cases p
  cases p'
  rw [EncodedPair.mk.injEq]
  exact ⟨hname, hvalue, hnameForm, hvalueForm⟩

end EncodedPair

/-! ## The records of a stream

The stream of pairs is cut into the contents of records, which are then handled one after the other
on one entry of the map. The run of `process_buffer` comes down to a fold over the contents. -/

/-- A PARAMS record with any part of the stream. -/
structure ParamsPiece extends Trailer where
  content : Bytes
  content_lt : content.length < 2 ^ 16

def ParamsPiece.record (id : UInt16) (p : ParamsPiece) : Record :=
  p.toTrailer.record FCGI_PARAMS id p.content p.content_lt

private theorem inputComplete_paramsRecord (limits : Limits) (content : Bytes) (r : RequestCore)
    (out : Bytes) :
    (paramsRecord limits content r out).1.flags.inputComplete = r.flags.inputComplete := by
  rw [paramsRecord]
  split
  · rfl
  split
  · rfl
  · rw [paramsLoop_eq, flags_storePairs]
    split <;> rfl

/-- What `process_buffer` makes of a request whose input is still open. -/
theorem runRecords_readParams {σ : Type*} {limits : Limits} {cb : Callbacks σ} {requests : Requests}
    {ext : σ} {id : UInt16} (r : Request) {core : RequestCore} {out : Bytes}
    (hinput : core.flags.inputComplete = false) (pieces : List ParamsPiece) (last : Trailer) :
    runRecords limits cb ⟨requests.insert id (r.withCore core), out, ext⟩
        (pieces.map (ParamsPiece.record id) ++ [last.record FCGI_PARAMS id [] (by norm_num)])
      = (⟨requests.insert id
            (r.withCore (readParams limits (pieces.map ParamsPiece.content) core out).1),
          (readParams limits (pieces.map ParamsPiece.content) core out).2, ext⟩, []) := by
  have hrecord (t : Trailer) {content : Bytes} (hlt : content.length < 2 ^ 16) {core : RequestCore}
      {out : Bytes} (hinput : core.flags.inputComplete = false) (recs : List Record) :
      runRecords limits cb ⟨requests.insert id (r.withCore core), out, ext⟩
          (t.record FCGI_PARAMS id content hlt :: recs)
        = runRecords limits cb
            ⟨requests.insert id (r.withCore (paramsRecord limits content core out).1),
              (paramsRecord limits content core out).2, ext⟩ recs := by
    have hid : (t.record FCGI_PARAMS id content hlt).requestId = id := rfl
    have hbody : recordBody limits (t.record FCGI_PARAMS id content hlt)
        = some (paramsRecord limits content) := rfl
    have hcore : paramsRecord limits content core out
        = ((paramsRecord limits content core out).1,
            (paramsRecord limits content core out).2) := rfl
    have hready : isReady (paramsRecord limits content core out).1.flags = false := by
      rw [isReady, inputComplete_paramsRecord, hinput, Bool.and_false]
    exact runRecords_insert hid hbody hcore hready recs
  induction pieces generalizing core out with
  | nil => exact hrecord last _ hinput []
  | cons p pieces ih =>
    rw [List.map_cons, List.cons_append, ParamsPiece.record,
      hrecord p.toTrailer p.content_lt hinput,
      ih ((inputComplete_paramsRecord limits p.content core out).trans hinput)]
    rfl

/-! ## Whole pairs

One direction is a matter of reading: a record of whole pairs is read as those pairs, so the records
together are read as all of them. -/

section

variable {limits : Limits} {r : RequestCore} {out : Bytes}

private theorem foldl_paramsRecord (groups : List (List EncodedPair))
    (hne : ∀ ps ∈ groups, ps.flatMap EncodedPair.encode ≠ []) (hfailed : r.flags.failed = false)
    (hsize : r.paramsBytes + pairsSize (groups.flatten.map EncodedPair.pair)
      ≤ limits.maxParamsBytes) :
    (groups.map fun ps ↦ ps.flatMap EncodedPair.encode).foldl
        (fun p content ↦ paramsRecord limits content p.1 p.2) (r, out)
      = (storing r (groups.flatten.map EncodedPair.pair), out) := by
  induction groups generalizing r with
  | nil => rfl
  | cons ps groups ih =>
    have hps : ps ≠ [] := by
      rintro rfl
      exact hne [] List.mem_cons_self rfl
    rw [List.flatten_cons, List.map_append] at hsize ⊢
    rw [pairsSize_append] at hsize
    have hrecord : paramsRecord limits (ps.flatMap EncodedPair.encode) r out
        = (storing r (ps.map EncodedPair.pair), out) :=
      paramsRecord_encode limits hps r out hfailed ((Nat.le_add_right _ _).trans (by
        rw [add_assoc]
        exact hsize))
    rw [List.map_cons, List.foldl_cons, hrecord]
    have hrest := ih (r := storing r (ps.map EncodedPair.pair))
      (fun ps' hps' ↦ hne ps' (List.mem_cons_of_mem _ hps')) hfailed
      (by simp only [storing]; omega)
    rw [storing_storing] at hrest
    exact hrest

/-- **Records of whole pairs** are read as those pairs. -/
theorem readParams_of_wholePairs {pairs : List EncodedPair} {contents : List Bytes}
    (h : WholePairs pairs contents) (hne : ∀ content ∈ contents, content ≠ [])
    (hfailed : r.flags.failed = false)
    (hsize : r.paramsBytes + pairsSize (pairs.map EncodedPair.pair) ≤ limits.maxParamsBytes) :
    readParams limits contents r out =
      let r := storing r (pairs.map EncodedPair.pair)
      ({ r with flags := { r.flags with paramsComplete := true } }, out) := by
  obtain ⟨groups, rfl, rfl⟩ := h
  rw [readParams, List.foldl_append,
    foldl_paramsRecord groups (fun ps hps ↦ hne _ (List.mem_map_of_mem hps)) hfailed hsize]
  rfl

variable (out) in
/-- The same when there is one record, also if there is nothing in it. -/
theorem readParams_singleton (pairs : List EncodedPair) (hfailed : r.flags.failed = false)
    (hsize : r.paramsBytes + pairsSize (pairs.map EncodedPair.pair) ≤ limits.maxParamsBytes) :
    readParams limits [pairs.flatMap EncodedPair.encode] r out =
      let r := storing r (pairs.map EncodedPair.pair)
      ({ r with flags := { r.flags with paramsComplete := true } }, out) := by
  cases pairs with
  | nil => rfl
  | cons p pairs =>
    refine readParams_of_wholePairs ⟨[p :: pairs], ?_, rfl⟩ ?_ hfailed hsize
    · rw [List.flatten_singleton]
    · intro content hcontent
      rw [List.mem_singleton.mp hcontent, List.flatMap_cons]
      exact List.append_ne_nil_of_left_ne_nil p.encode_ne_nil _

end

/-! ## What a record has room for

For the other direction octets are counted. Every pair with a name takes at least its weight in
octets, so a record has room for pairs of so much weight and no more, and for that much only if it
is filled with whole pairs. -/

/-- The octets a pair takes at least. Pairs with an empty name are found anywhere. -/
def weight (q : Bytes × Bytes) : ℕ :=
  if q.1 = [] then 0
  else
    ((LengthForm.shortest q.1.length).encode q.1.length).length
      + ((LengthForm.shortest q.2.length).encode q.2.length).length + (q.1.length + q.2.length)

def weights (qs : List (Bytes × Bytes)) : ℕ := (qs.map weight).sum

private theorem weights_append (qs qs' : List (Bytes × Bytes)) :
    weights (qs ++ qs') = weights qs + weights qs' := by
  rw [weights, List.map_append, List.sum_append, weights, weights]

private theorem EncodedPair.weight_pair {p : EncodedPair} (hp : p.Shortest) (hname : p.name ≠ []) :
    weight p.pair = p.encode.length := by
  have hname' : p.pair.1 ≠ [] := hname
  rw [weight, if_neg hname', EncodedPair.encode, hp.1, hp.2]
  simp only [EncodedPair.pair, List.length_append]

/-- A pair with a name takes its weight, and is in shortest form if it takes no more. -/
theorem encode_of_nextPair {p t : Bytes} {q : Bytes × Bytes} (h : nextPair p = some (q, t))
    (hname : q.1 ≠ []) :
    ∃ e : EncodedPair, e.Shortest ∧ e.pair = q ∧ e.encode.length + t.length ≤ p.length ∧
      (e.encode.length + t.length = p.length → p = e.encode ++ t) := by
  obtain ⟨nameLen, p₁, h₁⟩ : ∃ n p₁, decodeLength p = (n, p₁) := ⟨_, _, rfl⟩
  obtain ⟨valueLen, p₂, h₂⟩ : ∃ n p₂, decodeLength p₁ = (n, p₂) := ⟨_, _, rfl⟩
  simp only [nextPair, h₁, h₂] at h
  split at h
  · cases h
  next hroom =>
  obtain ⟨rfl, rfl⟩ := Prod.mk.inj (Option.some.inj h)
  have hp₂ : p₂ ≠ [] := by
    rintro rfl
    exact hname List.take_nil
  have hp₁ : p₁ ≠ [] := by
    rintro rfl
    obtain ⟨-, rfl⟩ := Prod.mk.inj h₂
    exact hp₂ rfl
  obtain ⟨hnameLt, hnameLe, hnameEq⟩ := encode_of_decodeLength h₁ hp₁
  obtain ⟨hvalueLt, hvalueLe, hvalueEq⟩ := encode_of_decodeLength h₂ hp₂
  have hnameLen : (p₂.take nameLen).length = nameLen := by
    rw [List.length_take]
    omega
  have hvalueLen : ((p₂.drop nameLen).take valueLen).length = valueLen := by
    rw [List.length_take, List.length_drop]
    omega
  have hsplit : p₂ = p₂.take nameLen ++ (p₂.drop nameLen).take valueLen
      ++ (p₂.drop nameLen).drop valueLen := by
    rw [List.append_assoc, List.take_append_drop, List.take_append_drop]
  have hlength := congrArg List.length hsplit
  rw [List.length_append, List.length_append, hnameLen, hvalueLen] at hlength
  refine ⟨⟨p₂.take nameLen, (p₂.drop nameLen).take valueLen, .shortest nameLen, .shortest valueLen,
    ?_, ?_⟩, ⟨?_, ?_⟩, rfl, ?_, ?_⟩
  · rw [hnameLen]
    exact LengthForm.fits_shortest hnameLt
  · rw [hvalueLen]
    exact LengthForm.fits_shortest hvalueLt
  · exact congrArg LengthForm.shortest hnameLen.symm
  · exact congrArg LengthForm.shortest hvalueLen.symm
  · simp only [EncodedPair.encode, hnameLen, hvalueLen, List.length_append]
    omega
  · intro heq
    simp only [EncodedPair.encode, hnameLen, hvalueLen, List.length_append] at heq ⊢
    rw [hnameEq (by omega), hvalueEq (by omega)]
    simp only [List.append_assoc]
    rw [List.append_assoc] at hsplit
    rw [← hsplit]

/-- **What is read from a record has room in it**, and if it needs all the room the record holds
whole pairs. -/
theorem weights_le_of_initial {fuel : ℕ} {content : Bytes} {qs : List (Bytes × Bytes)}
    (h : qs <+: pairsOf fuel content) :
    weights qs ≤ content.length ∧ (weights qs = content.length →
      ∃ ps : List EncodedPair, (∀ p ∈ ps, p.Shortest) ∧ ps.map EncodedPair.pair = qs ∧
        content = ps.flatMap EncodedPair.encode) := by
  induction qs generalizing fuel content with
  | nil =>
    refine ⟨Nat.zero_le _, fun heq ↦ ⟨[], fun p hp ↦ (nomatch hp), rfl, ?_⟩⟩
    exact List.eq_nil_of_length_eq_zero heq.symm
  | cons q qs ih =>
    cases fuel with
    | zero => exact absurd (List.prefix_nil.mp h) (List.cons_ne_nil q qs)
    | succ fuel =>
      rw [pairsOf] at h
      split at h
      · exact absurd (List.prefix_nil.mp h) (List.cons_ne_nil q qs)
      next hcontent =>
      rw [List.isEmpty_iff] at hcontent
      split at h
      · exact absurd (List.prefix_nil.mp h) (List.cons_ne_nil q qs)
      next pair t hnext =>
      obtain ⟨rfl, hqs⟩ := List.cons_prefix_cons.mp h
      obtain ⟨hle, hwhole⟩ := ih hqs
      have hlt := length_nextPair_lt hcontent hnext
      have hcons : weights (q :: qs) = weight q + weights qs := rfl
      rw [hcons]
      by_cases hname : q.1 = []
      · have hzero : weight q = 0 := if_pos hname
        rw [hzero]
        exact ⟨by omega, fun heq ↦ by omega⟩
      · obtain ⟨e, hshortest, rfl, hroom, hexact⟩ := encode_of_nextPair hnext hname
        rw [e.weight_pair hshortest hname]
        refine ⟨by omega, fun heq ↦ ?_⟩
        obtain ⟨ps, hps, rfl, rfl⟩ := hwhole (by omega)
        exact ⟨e :: ps, List.forall_mem_cons.mpr ⟨hshortest, hps⟩, rfl, hexact (by omega)⟩

/-! ## Whole records

If the records together give back pairs that need all the octets of the stream, none of the records
has room to spare. Then each of them holds whole pairs, and the cuts were between pairs. -/

private theorem weights_flatten_le {contents : List Bytes} {qss : List (List (Bytes × Bytes))}
    (h : List.Forall₂ (fun content qs ↦ qs <+: pairsOf content.length content) contents qss) :
    weights qss.flatten ≤ contents.flatten.length := by
  induction h with
  | nil => exact le_rfl
  | cons hqs _ ih =>
    rw [List.flatten_cons, List.flatten_cons, weights_append, List.length_append]
    exact Nat.add_le_add (weights_le_of_initial hqs).1 ih

/-- Records that have no room to spare hold whole pairs. -/
private theorem exists_groups {contents : List Bytes} {qss : List (List (Bytes × Bytes))}
    (h : List.Forall₂ (fun content qs ↦ qs <+: pairsOf content.length content) contents qss)
    (hfull : contents.flatten.length ≤ weights qss.flatten) :
    ∃ groups : List (List EncodedPair), (∀ p ∈ groups.flatten, p.Shortest) ∧
      contents = groups.map fun ps ↦ ps.flatMap EncodedPair.encode := by
  induction h with
  | nil => exact ⟨[], fun p hp ↦ (nomatch hp), rfl⟩
  | cons hqs hrest ih =>
    rw [List.flatten_cons, List.flatten_cons, weights_append, List.length_append] at hfull
    obtain ⟨hle, hwhole⟩ := weights_le_of_initial hqs
    have hle' := weights_flatten_le hrest
    obtain ⟨ps, hps, -, rfl⟩ := hwhole (by omega)
    obtain ⟨groups, hgroups, rfl⟩ := ih (by omega)
    refine ⟨ps :: groups, fun p hp ↦ ?_, rfl⟩
    rw [List.flatten_cons] at hp
    exact (List.mem_append.mp hp).elim (hps p) (hgroups p)

/-- Shortest forms can be read in one way only. -/
private theorem eq_of_encode_eq {ps ps' : List EncodedPair} (hps : ∀ p ∈ ps, p.Shortest)
    (hps' : ∀ p ∈ ps', p.Shortest)
    (h : ps.flatMap EncodedPair.encode = ps'.flatMap EncodedPair.encode) : ps = ps' := by
  have hpairs : ps.map EncodedPair.pair = ps'.map EncodedPair.pair := by
    have hread := pairsOf_encode ps le_rfl
    rw [h] at hread
    exact hread.symm.trans (pairsOf_encode ps' le_rfl)
  clear h
  induction ps generalizing ps' with
  | nil => exact (List.map_eq_nil_iff.mp hpairs.symm).symm
  | cons p ps ih =>
    cases ps' with
    | nil => cases hpairs
    | cons p' ps' =>
      obtain ⟨hpair, hpairs⟩ := List.cons.inj hpairs
      obtain ⟨hp, hps⟩ := List.forall_mem_cons.mp hps
      obtain ⟨hp', hps'⟩ := List.forall_mem_cons.mp hps'
      rw [EncodedPair.eq_of_pair_eq hp hp' hpair, ih hps hps' hpairs]

/-! ## Environments

Which variables an environment has after some assignments depends on the last assignment to each
name. With distinct names the order does not matter, and nothing can take the place of a variable
that is missing. -/

theorem find_assignPairs_eq_some {ps : List (Bytes × Bytes)} {env : DynamicVariable} {key : Bytes}
    {x : DynamicVariable} (h : (assignPairs env ps).find key = some x) :
    env.find key = some x ∨ ∃ value, (key, value) ∈ ps ∧ x = .string value := by
  induction ps generalizing env with
  | nil => exact .inl h
  | cons p ps ih =>
    have htail : (assignPairs (env.assign p.1 (.string p.2)) ps).find key = some x := h
    obtain hfound | ⟨value, hmem, rfl⟩ := ih htail
    · by_cases hkey : key = p.1
      · rw [hkey, DynamicVariable.find_assign_self, Option.some.injEq] at hfound
        exact .inr ⟨p.2, hkey ▸ List.mem_cons_self, hfound.symm⟩
      · rw [DynamicVariable.find_assign_of_ne _ _ hkey] at hfound
        exact .inl hfound
    · exact .inr ⟨value, List.mem_cons_of_mem p hmem, rfl⟩

private theorem find_assignPairs_of_not_mem {ps : List (Bytes × Bytes)} (env : DynamicVariable)
    {key : Bytes}
    (h : key ∉ ps.map Prod.fst) : (assignPairs env ps).find key = env.find key := by
  induction ps generalizing env with
  | nil => rfl
  | cons p ps ih =>
    rw [List.map_cons, List.mem_cons, not_or] at h
    exact (ih _ h.2).trans (DynamicVariable.find_assign_of_ne env _ h.1)

private theorem find_assignPairs_of_nodup {ps : List (Bytes × Bytes)} (env : DynamicVariable)
    (hnodup : (ps.map Prod.fst).Nodup) {q : Bytes × Bytes} (hq : q ∈ ps) :
    (assignPairs env ps).find q.1 = some (.string q.2) := by
  induction ps generalizing env with
  | nil => cases hq
  | cons p ps ih =>
    rw [List.map_cons, List.nodup_cons] at hnodup
    obtain rfl | hq := List.mem_cons.mp hq
    · exact (find_assignPairs_of_not_mem _ hnodup.1).trans
        (DynamicVariable.find_assign_self env q.1 _)
    · exact ih _ hnodup.2 hq

/-! ## Cuts

Within the limit every record stores what can be read from it, in order. When the names are distinct
and new to the environment, the records together store all the variables only if none of the pairs
is lost. -/

section

variable {limits : Limits} {r : RequestCore} {out : Bytes}

private theorem fittingPairs_initial (limits : Limits) (n : ℕ) (ps : List (Bytes × Bytes)) :
    fittingPairs limits n ps <+: ps := by
  induction ps generalizing n with
  | nil => exact List.prefix_refl []
  | cons p ps ih =>
    rw [fittingPairs]
    split
    · exact List.nil_prefix
    · exact List.cons_prefix_cons.mpr ⟨rfl, ih _⟩

variable (limits) in
/-- One record stores some of the pairs that can be read from it. -/
theorem env_paramsRecord (content : Bytes) (r : RequestCore) (out : Bytes) :
    ∃ qs, qs <+: pairsOf content.length content ∧
      (paramsRecord limits content r out).1.env = assignPairs r.env qs := by
  rw [paramsRecord]
  split
  · exact ⟨[], List.nil_prefix, rfl⟩
  split
  · exact ⟨[], List.nil_prefix, rfl⟩
  · rw [paramsLoop_eq, env_storePairs]
    exact ⟨_, fittingPairs_initial limits _ _, rfl⟩

variable (limits) in
private theorem env_readParams (contents : List Bytes) (r : RequestCore) (out : Bytes) :
    ∃ qss, List.Forall₂ (fun content qs ↦ qs <+: pairsOf content.length content) contents qss ∧
      (readParams limits contents r out).1.env = assignPairs r.env qss.flatten := by
  induction contents generalizing r out with
  | nil => exact ⟨[], .nil, rfl⟩
  | cons content contents ih =>
    obtain ⟨qs, hqs, henv⟩ := env_paramsRecord limits content r out
    obtain ⟨qss, hqss, hrest⟩ := ih (paramsRecord limits content r out).1
      (paramsRecord limits content r out).2
    refine ⟨qs :: qss, .cons hqs hqss, ?_⟩
    rw [List.flatten_cons, assignPairs_append, ← henv]
    exact hrest

/-- **Cuts between pairs are harmless, and others are not.** Records of whole pairs make the same of
a request as one record with all of them. When the names are distinct, not empty and new to the
environment, and the lengths in shortest form, no other records lead to the same environment. -/
theorem readParams_cut (hfailed : r.flags.failed = false) {pairs : List EncodedPair}
    {contents : List Bytes} (hne : ∀ content ∈ contents, content ≠ [])
    (hcut : contents.flatten = pairs.flatMap EncodedPair.encode)
    (hsize : r.paramsBytes + pairsSize (pairs.map EncodedPair.pair) ≤ limits.maxParamsBytes) :
    (WholePairs pairs contents →
      readParams limits contents r out = readParams limits [contents.flatten] r out) ∧
    ((pairs.map EncodedPair.name).Nodup →
      (∀ p ∈ pairs, p.name ≠ [] ∧ p.Shortest ∧ r.env.find p.name = none) →
      SameEntries (readParams limits contents r out).1.env
        (readParams limits [contents.flatten] r out).1.env →
      WholePairs pairs contents) := by
  have hwhole := readParams_singleton out pairs hfailed hsize
  rw [hcut]
  constructor
  · intro h
    rw [readParams_of_wholePairs h hne hfailed hsize, hwhole]
  intro hnames hpairs hsame
  obtain ⟨qss, hqss, henv⟩ := env_readParams limits contents r out
  have hfst : (pairs.map EncodedPair.pair).map Prod.fst = pairs.map EncodedPair.name := by
    rw [List.map_map]
    rfl
  -- every pair has been read from some record
  have hsubset : pairs.map EncodedPair.pair ⊆ qss.flatten := by
    intro q hq
    have hfound : (assignPairs r.env qss.flatten).find q.1 = some (.string q.2) := by
      rw [← henv, hsame q.1, hwhole]
      exact find_assignPairs_of_nodup r.env (hfst ▸ hnames) hq
    obtain ⟨p, hp, rfl⟩ := List.mem_map.mp hq
    obtain hold | ⟨value, hmem, heq⟩ := find_assignPairs_eq_some hfound
    · cases hold.symm.trans (hpairs p hp).2.2
    · rw [DynamicVariable.string.injEq] at heq
      rw [← heq] at hmem
      exact hmem
  -- so there was no room for anything else
  have hfull : contents.flatten.length ≤ weights qss.flatten := by
    have hnodup : (pairs.map EncodedPair.pair).Nodup := .of_map Prod.fst (hfst ▸ hnames)
    obtain ⟨qs, hperm, hsub⟩ := List.subperm_of_subset hnodup hsubset
    calc contents.flatten.length
        = (pairs.map fun p ↦ p.encode.length).sum := by rw [hcut, List.length_flatMap]
      _ = (pairs.map fun p ↦ weight p.pair).sum := by
          refine congrArg List.sum (List.map_congr_left fun p hp ↦ ?_)
          exact (p.weight_pair (hpairs p hp).2.1 (hpairs p hp).1).symm
      _ = weights (pairs.map EncodedPair.pair) := by rw [weights, List.map_map]; rfl
      _ = weights qs := (hperm.map weight).sum_eq.symm
      _ ≤ weights qss.flatten :=
          (hsub.map weight).sum_le_sum fun _ _ ↦ Nat.zero_le _
  obtain ⟨groups, hgroups, heq⟩ := exists_groups hqss hfull
  refine ⟨groups, eq_of_encode_eq hgroups (fun p hp ↦ (hpairs p hp).2.1) ?_, heq⟩
  rw [← hcut, heq, ← List.flatMap_id, List.flatMap_assoc]
  rfl

end

/-- Two variables. -/
def hostAndPath : List EncodedPair :=
  [⟨ascii "HOST", ascii "a", .short, .short, by decide, by decide⟩,
    ⟨ascii "PATH", ascii "/b", .short, .short, by decide, by decide⟩]

theorem readParams_cut_hostAndPath :
    readParams {} (hostAndPath.map EncodedPair.encode) { id := 7 } []
        = readParams {} [(hostAndPath.map EncodedPair.encode).flatten] { id := 7 } [] ∧
      WholePairs hostAndPath (hostAndPath.map EncodedPair.encode) := by
  have h := @readParams_cut {} { id := 7 } [] rfl hostAndPath
    (hostAndPath.map EncodedPair.encode) (by decide) (by decide) (by decide)
  have hwhole : WholePairs hostAndPath (hostAndPath.map EncodedPair.encode) :=
    ⟨hostAndPath.map fun p ↦ [p], rfl, rfl⟩
  have heq := h.1 hwhole
  refine ⟨heq, h.2 (by decide) ?_ fun key ↦ by rw [heq]⟩
  intro p hp
  rw [hostAndPath, List.mem_pair] at hp
  obtain rfl | rfl := hp
  · exact ⟨by decide, ⟨rfl, rfl⟩, rfl⟩
  · exact ⟨by decide, ⟨rfl, rfl⟩, rfl⟩

/-- The first record ends inside the first pair, and that pair is lost. -/
theorem not_readParams_cut_insidePair :
    [[4, 1, 72, 79], [83, 84, 97]].flatten = (hostAndPath.take 1).flatMap EncodedPair.encode ∧
      ¬SameEntries (readParams {} [[4, 1, 72, 79], [83, 84, 97]] { id := 7 } []).1.env
        (readParams {} [[4, 1, 72, 79, 83, 84, 97]] { id := 7 } []).1.env := by
  refine ⟨by decide, fun h ↦ ?_⟩
  have hfound := congrArg Option.isSome (h (ascii "HOST"))
  revert hfound
  decide +kernel

end Wasapi.Fastcgi
