import TierIndex.Store.Record

set_option autoImplicit false

/-! # The format of stored records

The file is a plain sequence of records, and the fields of a record stand for its bytes
(`Fields.bytes`). No record begins another one, so bytes split into records in one way at most
(`joined_inj`). Reading accepts exactly the bytes that split into valid records
(`decodeFrom_eq_ok_iff`), and where it fails it names the place up to which they do
(`decodeFrom_eq_error`).
-/

namespace TierIndex

/-- A mapped result is there exactly when the result is. -/
theorem map_eq_ok {ε α β : Type} {r : Except ε α} {f : α → β} {b : β} :
    r.map f = .ok b ↔ ∃ a, r = .ok a ∧ f a = b := by
  cases r <;> simp [Except.map]

theorem mapError_eq_ok {ε ε' α : Type} {r : Except ε α} {f : ε → ε'} {a : α} :
    r.mapError f = .ok a ↔ r = .ok a := by
  cases r with
  | error cause => exact ⟨(fun h => nomatch h), (fun h => nomatch h)⟩
  | ok b =>
      constructor
      · intro h
        exact congrArg Except.ok (Except.ok.inj h)
      · intro h
        exact congrArg Except.ok (Except.ok.inj h)

theorem mapError_eq_error {ε ε' α : Type} {r : Except ε α} {f : ε → ε'} {e : ε'} :
    r.mapError f = .error e ↔ ∃ cause, r = .error cause ∧ f cause = e := by
  cases r with
  | error cause =>
      constructor
      · intro h
        exact ⟨cause, rfl, Except.error.inj h⟩
      · rintro ⟨_, hcause, hf⟩
        cases hcause
        exact congrArg Except.error hf
  | ok b =>
      constructor
      · intro h
        cases h
      · rintro ⟨_, hcause, _⟩
        cases hcause

namespace Record

/-! ## Records by their fields -/

/-- The fields of a record. Each key is short enough for its length byte. -/
structure Fields where
  heat : UInt8
  tier : UInt8
  lo : Key
  hi : Key
  lo_le : lo.length ≤ Key.maxLength
  hi_le : hi.length ≤ Key.maxLength

namespace Fields

/-- The bytes of the record. -/
def bytes (r : Fields) : List UInt8 :=
  r.heat :: r.tier :: r.lo.length.toUInt8 :: (r.lo ++ r.hi.length.toUInt8 :: r.hi)

/-- The record has heat, a tier, and its ends in order. -/
structure Valid (o : KeyOrder) (r : Fields) : Prop where
  heat_ne : r.heat ≠ 0
  tier_eq : r.tier = 0 ∨ r.tier = 1
  in_order : o.Le r.lo r.hi

/-- The zone that the record stands for. Heat above the limit counts as the limit. -/
def zone (r : Fields) : Zone := ⟨⟨r.lo, r.hi⟩, min r.heat.toNat maxHeat, r.tier = 1⟩

end Fields

/-- The bytes of several records, one after the other. -/
abbrev joined (rs : List Fields) : List UInt8 := rs.flatMap Fields.bytes

variable {o : KeyOrder}

/-- The length of a key that fits is its length byte. -/
theorem toNat_length {k : Key} (h : k.length ≤ Key.maxLength) :
    k.length.toUInt8.toNat = k.length := by
  have hmax : k.length ≤ 255 := h
  show k.length % 2 ^ 8 = k.length
  omega

/-! ## The split into records is unique -/

/-- A key behind its length byte is known from the bytes. -/
theorem sized_inj {k k' : Key} (hk : k.length ≤ Key.maxLength) (hk' : k'.length ≤ Key.maxLength)
    {l l' : List UInt8} (h : k.length.toUInt8 :: (k ++ l) = k'.length.toUInt8 :: (k' ++ l')) :
    k = k' ∧ l = l' := by
  obtain ⟨hbyte, htail⟩ := List.cons.inj h
  have hlength : k.length = k'.length := by
    rw [← toNat_length hk, ← toNat_length hk', hbyte]
  exact List.append_inj htail hlength

/-- No record begins another one. -/
theorem bytes_inj {r r' : Fields} {l l' : List UInt8} (h : r.bytes ++ l = r'.bytes ++ l') :
    r = r' ∧ l = l' := by
  obtain ⟨heat, tier, lo, hi, hlo, hhi⟩ := r
  obtain ⟨heat', tier', lo', hi', hlo', hhi'⟩ := r'
  simp only [Fields.bytes, List.cons_append, List.append_assoc, List.cons.injEq] at h
  obtain ⟨rfl, rfl, hbyte, htail⟩ := h
  obtain ⟨rfl, hrest⟩ := sized_inj hlo hlo' (List.cons_eq_cons.mpr ⟨hbyte, htail⟩)
  obtain ⟨rfl, rfl⟩ := sized_inj hhi hhi' hrest
  exact ⟨rfl, rfl⟩

theorem bytes_ne_nil (r : Fields) (l : List UInt8) : r.bytes ++ l ≠ [] := by
  simp [Fields.bytes]

theorem joined_inj {rs rs' : List Fields} (h : joined rs = joined rs') : rs = rs' := by
  induction rs generalizing rs' with
  | nil =>
      cases rs' with
      | nil => rfl
      | cons r' rs' => exact absurd h.symm (bytes_ne_nil r' _)
  | cons r rs ih =>
      cases rs' with
      | nil => exact absurd h (bytes_ne_nil r _)
      | cons r' rs' =>
          obtain ⟨rfl, hrest⟩ := bytes_inj (show r.bytes ++ joined rs = r'.bytes ++ joined rs' from h)
          rw [ih hrest]

/-! ## One record -/

theorem byte_le (b : UInt8) : b.toNat ≤ Key.maxLength :=
  Nat.le_of_lt_succ b.toNat_lt

theorem tier_cases {tier : UInt8} (h : ¬ 1 < tier) : tier = 0 ∨ tier = 1 := by
  have hle : tier.toNat ≤ 1 := UInt8.le_iff_toNat_le.mp (UInt8.not_lt.mp h)
  rcases Nat.le_one_iff_eq_zero_or_eq_one.mp hle with h0 | h1
  · exact Or.inl (UInt8.toNat_inj.mp h0)
  · exact Or.inr (UInt8.toNat_inj.mp h1)

theorem takeKey_append (part : RecordPart) (offset : Nat) (k : Key) (rest : List UInt8) :
    takeKey part offset k.length (k ++ rest) = .ok (k, rest) := by
  unfold takeKey
  rw [if_pos (by rw [List.length_append]; omega), List.take_left, List.drop_left]

theorem takeSpan_append {s : Span} (hlo : s.lo.length ≤ Key.maxLength)
    (hhi : s.hi.length ≤ Key.maxLength) (offset : Nat) (rest : List UInt8) :
    takeSpan offset s.lo.length.toUInt8 (s.lo ++ s.hi.length.toUInt8 :: (s.hi ++ rest)) =
      .ok (s, rest) := by
  unfold takeSpan
  rw [toNat_length hlo, takeKey_append]
  dsimp only
  rw [toNat_length hhi, takeKey_append]

/-- **What is read as one record.** -/
theorem readOne_eq_ok_iff {offset : Nat} {bytes rest : List UInt8} {z : Zone} :
    readOne o offset bytes = .ok (z, rest) ↔
      ∃ r : Fields, r.Valid o ∧ bytes = r.bytes ++ rest ∧ z = r.zone := by
  constructor
  · intro h
    unfold readOne at h
    split at h
    · next heat tier loLength tail =>
        split at h
        · cases h
        · next htier =>
            split at h
            · cases h
            · next span rest' hspan =>
                obtain ⟨hiLength, htail, hlo, hhi⟩ := takeSpan_eq_ok hspan
                split at h
                · cases h
                · next hheat =>
                    split at h
                    · cases h
                    · next horder =>
                        cases h
                        have hlo' : span.lo.length ≤ Key.maxLength := by
                          rw [hlo]
                          exact byte_le loLength
                        have hhi' : span.hi.length ≤ Key.maxLength := by
                          rw [hhi]
                          exact byte_le hiLength
                        refine ⟨⟨heat, tier, span.lo, span.hi, hlo', hhi'⟩,
                          ⟨hheat, tier_cases htier, KeyOrder.not_lt.mp horder⟩, ?_, rfl⟩
                        simp [Fields.bytes, hlo, hhi, htail]
    · cases h
  · rintro ⟨r, hvalid, rfl, rfl⟩
    have hbytes : r.bytes ++ rest = r.heat :: r.tier :: r.lo.length.toUInt8 ::
        (r.lo ++ r.hi.length.toUInt8 :: (r.hi ++ rest)) := by
      simp [Fields.bytes]
    have hspan := takeSpan_append (s := ⟨r.lo, r.hi⟩) r.lo_le r.hi_le offset rest
    have htier : ¬ 1 < r.tier := by
      rcases hvalid.tier_eq with h | h <;> rw [h] <;> decide
    rw [hbytes, readOne, if_neg htier, hspan]
    dsimp only
    rw [if_neg hvalid.heat_ne, if_neg (KeyOrder.not_lt.mpr hvalid.in_order)]
    rfl

/-! ## All records -/

section

variable {offset : Nat} {bytes rest : List UInt8} {z : Zone} {zs : List Zone} {e : RecordFault}

theorem decodeFrom_nil : decodeFrom o offset [] = .ok [] := by
  rw [decodeFrom, if_pos rfl]

theorem decodeFrom_of_ok (h : readOne o offset bytes = .ok (z, rest)) :
    decodeFrom o offset bytes =
      (decodeFrom o (offset + (bytes.length - rest.length)) rest).map (z :: ·) := by
  have hne : bytes ≠ [] := by
    rintro rfl
    exact absurd (readOne_shorter h) (Nat.not_lt_zero _)
  rw [decodeFrom, if_neg hne]
  split
  · next he =>
      rw [h] at he
      cases he
  · next hz =>
      rw [h] at hz
      cases hz
      rfl

theorem decodeFrom_of_error (hne : bytes ≠ []) (h : readOne o offset bytes = .error e) :
    decodeFrom o offset bytes = .error e := by
  rw [decodeFrom, if_neg hne]
  split
  · next he =>
      rw [h] at he
      cases he
      rfl
  · next hz =>
      rw [h] at hz
      cases hz

/-- **What is read.** -/
theorem decodeFrom_eq_ok_iff :
    decodeFrom o offset bytes = .ok zs ↔
      ∃ rs : List Fields, (∀ r ∈ rs, r.Valid o) ∧ bytes = joined rs ∧ zs = rs.map Fields.zone := by
  constructor
  · intro h
    induction offset, bytes using decodeFrom.induct (o := o) generalizing zs with
    | case1 offset =>
        rw [decodeFrom_nil] at h
        cases h
        exact ⟨[], by simp, rfl, rfl⟩
    | case2 offset bytes hne e hread =>
        rw [decodeFrom_of_error hne hread] at h
        cases h
    | case3 offset bytes hne z rest hread ih =>
        rw [decodeFrom_of_ok hread] at h
        obtain ⟨ys, hys, rfl⟩ := map_eq_ok.mp h
        obtain ⟨r, hvalid, rfl, rfl⟩ := readOne_eq_ok_iff.mp hread
        obtain ⟨rs, hall, rfl, rfl⟩ := ih hys
        exact ⟨r :: rs, List.forall_mem_cons.mpr ⟨hvalid, hall⟩, rfl, rfl⟩
  · rintro ⟨rs, hall, rfl, rfl⟩
    induction rs generalizing offset with
    | nil => exact decodeFrom_nil
    | cons r rs ih =>
        obtain ⟨hvalid, hrest⟩ := List.forall_mem_cons.mp hall
        have hread : readOne o offset (joined (r :: rs)) = .ok (r.zone, joined rs) :=
          readOne_eq_ok_iff.mpr ⟨r, hvalid, rfl, rfl⟩
        rw [decodeFrom_of_ok hread, ih hrest]
        rfl

end

theorem decode_eq_ok_iff {bytes : List UInt8} {zs : List Zone} :
    decode o bytes = .ok zs ↔
      ∃ rs : List Fields, (∀ r ∈ rs, r.Valid o) ∧ bytes = joined rs ∧ zs = rs.map Fields.zone :=
  mapError_eq_ok.trans decodeFrom_eq_ok_iff

end Record

/-! ## Where reading fails -/

/-- The place where the failing record begins. -/
def RecordFault.offset : RecordFault → Nat
  | .truncated _ offset _ _ => offset
  | .badTier _ offset => offset
  | .zeroHeat offset => offset
  | .reversed offset => offset

/-- The text names the place `n`: the number stands behind the words for it, and does not go on. -/
def NamesPlace (text : String) (n : Nat) : Prop :=
  ∃ before after : String, text = before ++ "record at offset " ++ toString n ++ after ∧
    ∀ c ∈ after.toList.head?, c.isDigit = false

/-- What stands in a text by itself is not changed. -/
theorem toString_text (s : String) : toString s = s := rfl

/-- Every cause names its place in the text of the failure. -/
theorem RecordFault.names_offset (e : RecordFault) :
    NamesPlace (Fault.record e).message e.offset := by
  unfold NamesPlace Fault.message RecordFault.message RecordFault.offset
  -- texts are compared by their characters
  simp only [← String.toList_inj]
  cases e with
  | truncated part offset need left =>
      refine ⟨"Segment table corruption detected: truncated " ++ part.name ++ " in ",
        s!": need {need} bytes, {left} left", ?_, ?_⟩
      · simp [toString_text]
      · simp [toString_text]
  | badTier flag offset =>
      refine ⟨s!"Segment table corruption detected: invalid tier flag {flag} in ", "", ?_, ?_⟩
      · simp [toString_text]
      · simp
  | zeroHeat offset =>
      refine ⟨"Segment table corruption detected: ", " has zero heat", ?_, ?_⟩
      · simp [toString_text]
      · simp
  | reversed offset =>
      refine ⟨"Segment table corruption detected: ", " has start after end", ?_, ?_⟩
      · simp [toString_text]
      · simp

namespace Record

section

variable {o : KeyOrder} {offset : Nat} {bytes : List UInt8} {e : RecordFault}

theorem takeKey_offset {part : RecordPart} {n : Nat} (h : takeKey part offset n bytes = .error e) :
    e.offset = offset := by
  unfold takeKey at h
  split at h
  · cases h
  · cases h
    rfl

theorem takeSpan_offset {loLength : UInt8} (h : takeSpan offset loLength bytes = .error e) :
    e.offset = offset := by
  unfold takeSpan at h
  split at h
  · next hlo =>
      cases h
      exact takeKey_offset hlo
  · cases h
    rfl
  · split at h
    · next hhi =>
        cases h
        exact takeKey_offset hhi
    · cases h

theorem readOne_offset (h : readOne o offset bytes = .error e) : e.offset = offset := by
  unfold readOne at h
  split at h
  · split at h
    · cases h
      rfl
    · split at h
      · next hspan =>
          cases h
          exact takeSpan_offset hspan
      · split at h
        · cases h
          rfl
        · split at h
          · cases h
            rfl
          · cases h
  · cases h
    rfl

/-- **Where reading fails.** Up to the place that the cause names, the bytes are valid records, and
what follows is not empty and does not begin with one. -/
theorem decodeFrom_eq_error (h : decodeFrom o offset bytes = .error e) :
    ∃ rs rest, bytes = joined rs ++ rest ∧ (∀ r ∈ rs, r.Valid o) ∧
      e.offset = offset + (joined rs).length ∧ rest ≠ [] ∧
      ∀ r : Fields, r.Valid o → ¬ r.bytes <+: rest := by
  induction offset, bytes using decodeFrom.induct (o := o) with
  | case1 offset =>
      rw [decodeFrom_nil] at h
      cases h
  | case2 offset bytes hne e' hread =>
      rw [decodeFrom_of_error hne hread] at h
      cases h
      refine ⟨[], bytes, rfl, by simp, readOne_offset hread, hne, ?_⟩
      rintro r hvalid ⟨rest, rfl⟩
      -- a valid record would have been read
      have hok : readOne o offset (r.bytes ++ rest) = .ok (r.zone, rest) :=
        readOne_eq_ok_iff.mpr ⟨r, hvalid, rfl, rfl⟩
      rw [hok] at hread
      cases hread
  | case3 offset bytes hne z rest hread ih =>
      rw [decodeFrom_of_ok hread] at h
      have hrest : decodeFrom o (offset + (bytes.length - rest.length)) rest = .error e := by
        cases hcases : decodeFrom o (offset + (bytes.length - rest.length)) rest with
        | error e' =>
            rw [hcases] at h
            exact h
        | ok zs =>
            rw [hcases] at h
            cases h
      obtain ⟨r, hvalid, rfl, -⟩ := readOne_eq_ok_iff.mp hread
      obtain ⟨rs, rest', rfl, hall, hoffset, hne', hnone⟩ := ih hrest
      refine ⟨r :: rs, rest', by simp, List.forall_mem_cons.mpr ⟨hvalid, hall⟩, ?_, hne', hnone⟩
      rw [hoffset]
      simp
      omega

theorem decode_eq_error {e : Fault} (h : decode o bytes = .error e) :
    ∃ rs rest, bytes = joined rs ++ rest ∧ (∀ r ∈ rs, r.Valid o) ∧ rest ≠ [] ∧
      (∀ r : Fields, r.Valid o → ¬ r.bytes <+: rest) ∧
      ∃ cause, e = .record cause ∧ cause.offset = (joined rs).length := by
  obtain ⟨cause, hcause, rfl⟩ := mapError_eq_error.mp h
  obtain ⟨rs, rest, hbytes, hall, hoffset, hne, hnone⟩ := decodeFrom_eq_error hcause
  exact ⟨rs, rest, hbytes, hall, hne, hnone, cause, rfl, by omega⟩

end

end Record

end TierIndex
