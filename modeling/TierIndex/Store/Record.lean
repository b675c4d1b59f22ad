import TierIndex.Fault

set_option autoImplicit false

/-! # Records: zones as bytes

A stored zone is one record:

    heat, tier, length of lo, lo, length of hi, hi

with one byte each for the heat, the tier (`0` or `1`) and the two lengths. Records follow
each other without a count or a separator, so a reader finds the end of a record only by
reading it. Writing needs keys of at most `Key.maxLength` bytes; reading refuses bytes that
are cut short, a wrong tier byte, a zone without heat and a span with its ends reversed, and
says where the failing record begins.
-/

namespace TierIndex

namespace Record

/-! ## Writing -/

/-- Both keys of the zone are short enough to be written. -/
abbrev Fits (z : Zone) : Prop :=
  z.span.lo.length ≤ Key.maxLength ∧ z.span.hi.length ≤ Key.maxLength

/-- The byte for a heat: the heat itself, held within the heats there are. -/
def heatByte (h : Int) : UInt8 := (max 0 (min h maxHeat)).toNat.toUInt8

/-- The bytes of one record. -/
def ofZone (z : Zone) : List UInt8 :=
  [heatByte z.heat, if z.fast then 1 else 0] ++
    (z.span.lo.length.toUInt8 :: z.span.lo) ++ (z.span.hi.length.toUInt8 :: z.span.hi)

/-- The records of all zones, one after the other. Refused if a zone does not fit. -/
def encode (zs : List Zone) : Except Fault (List UInt8) :=
  match zs.find? fun z => ¬ Fits z with
  | some z => .error (.map (.keyTooLong (max z.span.lo.length z.span.hi.length)))
  | none => .ok (zs.flatMap ofZone)

/-- Append the records of the slots in use to a buffer and count them. Free slots are passed
over. The buffer is left alone if a zone does not fit. -/
def append (buffer : List UInt8) (slots : List (Option Zone)) : List UInt8 × Except Fault Nat :=
  let zs := slots.filterMap id
  match encode zs with
  | .error e => (buffer, .error e)
  | .ok bytes => (buffer ++ bytes, .ok zs.length)

/-! ## Reading -/

/-- The first `n` bytes as a key, and the rest. -/
def takeKey (part : RecordPart) (offset n : Nat) (bytes : List UInt8) :
    Except RecordFault (Key × List UInt8) :=
  if n ≤ bytes.length then .ok (bytes.take n, bytes.drop n)
  else .error (.truncated part offset n bytes.length)

/-- The span of a record, read from its two length bytes and keys, and the rest. -/
def takeSpan (offset : Nat) (loLength : UInt8) (bytes : List UInt8) :
    Except RecordFault (Span × List UInt8) :=
  match takeKey .loKey offset loLength.toNat bytes with
  | .error e => .error e
  | .ok (_, []) => .error (.truncated .hiLength offset 1 0)
  | .ok (lo, hiLength :: bytes) =>
      match takeKey .hiKey offset hiLength.toNat bytes with
      | .error e => .error e
      | .ok (hi, rest) => .ok (⟨lo, hi⟩, rest)

/-- The zone of the first record, and the rest. -/
def readOne (o : KeyOrder) (offset : Nat) : List UInt8 → Except RecordFault (Zone × List UInt8)
  | heat :: tier :: loLength :: bytes =>
      if 1 < tier then .error (.badTier tier offset)
      else
        match takeSpan offset loLength bytes with
        | .error e => .error e
        | .ok (span, rest) =>
            if heat = 0 then .error (.zeroHeat offset)
            else if o.Lt span.hi span.lo then .error (.reversed offset)
            else .ok (⟨span, min heat.toNat maxHeat, tier = 1⟩, rest)
  | short => .error (.truncated .header offset 3 short.length)

theorem takeKey_eq_ok {part : RecordPart} {offset n : Nat} {bytes rest : List UInt8} {k : Key}
    (h : takeKey part offset n bytes = .ok (k, rest)) :
    bytes = k ++ rest ∧ k.length = n := by
  unfold takeKey at h
  split at h
  · cases h
    exact ⟨(List.take_append_drop n bytes).symm, by simp; omega⟩
  · cases h

theorem takeSpan_eq_ok {offset : Nat} {loLength : UInt8} {bytes rest : List UInt8} {s : Span}
    (h : takeSpan offset loLength bytes = .ok (s, rest)) :
    ∃ hiLength : UInt8, bytes = s.lo ++ hiLength :: (s.hi ++ rest) ∧
      s.lo.length = loLength.toNat ∧ s.hi.length = hiLength.toNat := by
  unfold takeSpan at h
  split at h
  · cases h
  · cases h
  · next lo hiLength bytes' hlo =>
      obtain ⟨hbytes, hlen⟩ := takeKey_eq_ok hlo
      split at h
      · cases h
      · next hi rest' hhi =>
          obtain ⟨hbytes', hlen'⟩ := takeKey_eq_ok hhi
          cases h
          exact ⟨hiLength, by rw [hbytes, hbytes'], hlen, hlen'⟩

/-- Reading a record uses up at least its header. -/
theorem readOne_shorter {o : KeyOrder} {offset : Nat} {bytes rest : List UInt8} {z : Zone}
    (h : readOne o offset bytes = .ok (z, rest)) : rest.length < bytes.length := by
  unfold readOne at h
  split at h
  · split at h
    · cases h
    · split at h
      · cases h
      · next span rest' hspan =>
          obtain ⟨_, hbytes, _⟩ := takeSpan_eq_ok hspan
          split at h
          · cases h
          · split at h
            · cases h
            · cases h
              simp [hbytes]
              omega
  · cases h

/-- The zones of all records, the first of which begins at the given offset. -/
def decodeFrom (o : KeyOrder) (offset : Nat) (bytes : List UInt8) :
    Except RecordFault (List Zone) :=
  if bytes = [] then .ok []
  else
    match _h : readOne o offset bytes with
    | .error e => .error e
    | .ok (z, rest) =>
        (decodeFrom o (offset + (bytes.length - rest.length)) rest).map (z :: ·)
termination_by bytes.length
decreasing_by exact readOne_shorter ‹_›

/-- The zones of all records, in order. -/
def decode (o : KeyOrder) (bytes : List UInt8) : Except Fault (List Zone) :=
  (decodeFrom o 0 bytes).mapError .record

end Record

end TierIndex
