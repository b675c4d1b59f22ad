import TierIndex.Proofs.Grammar

set_option autoImplicit false

/-! # Reading stays within the bytes

Reading looks at the number of bytes that are left before it takes any. Here the reader is written
down once more, with reads that fail where there is no byte: it gives `none` as soon as one does.
None ever does (`decode?_eq`), and together with what is read, and with where reading fails, this is
all there is to say of the format (`decode_exact`).
-/

namespace TierIndex

namespace Record

/-! ## Reads that can fail -/

/-- The next byte, and the rest. Fails where there is none. -/
def getByte? : List UInt8 → Option (UInt8 × List UInt8)
  | [] => none
  | b :: bytes => some (b, bytes)

/-- The next `n` bytes, and the rest. Fails where there are fewer. -/
def getBytes? (n : Nat) (bytes : List UInt8) : Option (List UInt8 × List UInt8) :=
  if n ≤ bytes.length then some (bytes.take n, bytes.drop n) else none

/-- The record is cut short unless `need` more bytes are left. -/
def ensure (part : RecordPart) (offset need : Nat) (bytes : List UInt8) :
    Except RecordFault Unit :=
  if bytes.length < need then .error (.truncated part offset need bytes.length) else .ok ()

/-- A key behind its length byte. The length byte is taken without looking. -/
def readKey? (part : RecordPart) (offset : Nat) (bytes : List UInt8) :
    Option (Except RecordFault (Key × List UInt8)) := do
  let (n, bytes) ← getByte? bytes
  match ensure part offset n.toNat bytes with
  | .error e => return .error e
  | .ok () => (getBytes? n.toNat bytes).map .ok

/-- The span of a record, and the rest. -/
def readSpan? (offset : Nat) (bytes : List UInt8) :
    Option (Except RecordFault (Span × List UInt8)) := do
  match ← readKey? .loKey offset bytes with
  | .error e => return .error e
  | .ok (lo, bytes) =>
      match ensure .hiLength offset 1 bytes with
      | .error e => return .error e
      | .ok () =>
          match ← readKey? .hiKey offset bytes with
          | .error e => return .error e
          | .ok (hi, bytes) => return .ok (⟨lo, hi⟩, bytes)

/-- The zone of the first record, and the rest. Only the header is looked for before its bytes are
taken one by one. -/
def readOne? (o : KeyOrder) (offset : Nat) (bytes : List UInt8) :
    Option (Except RecordFault (Zone × List UInt8)) :=
  match ensure .header offset 3 bytes with
  | .error e => some (.error e)
  | .ok () => do
      let (heat, bytes) ← getByte? bytes
      let (tier, bytes) ← getByte? bytes
      if 1 < tier then return .error (.badTier tier offset)
      else
        match ← readSpan? offset bytes with
        | .error e => return .error e
        | .ok (span, rest) =>
            if heat = 0 then return .error (.zeroHeat offset)
            else if o.Lt span.hi span.lo then return .error (.reversed offset)
            else return .ok (⟨span, min heat.toNat maxHeat, tier = 1⟩, rest)

/-! ## None of them fails -/

/-- A key is read as it is by the plain reader, which has taken its length byte before. -/
theorem readKey?_eq (part : RecordPart) (offset : Nat) (n : UInt8) (bytes : List UInt8) :
    readKey? part offset (n :: bytes) = some (takeKey part offset n.toNat bytes) := by
  unfold readKey? takeKey ensure getBytes?
  by_cases h : n.toNat ≤ bytes.length
  · simp [getByte?, h, Nat.not_lt.mpr h]
  · simp [getByte?, h, Nat.lt_of_not_le h]

theorem readSpan?_eq (offset : Nat) (loLength : UInt8) (bytes : List UInt8) :
    readSpan? offset (loLength :: bytes) = some (takeSpan offset loLength bytes) := by
  unfold readSpan? takeSpan
  rw [readKey?_eq]
  cases takeKey .loKey offset loLength.toNat bytes with
  | error e => rfl
  | ok r =>
      obtain ⟨lo, bytes'⟩ := r
      cases bytes' with
      | nil => rfl
      | cons hiLength bytes' =>
          have hensure : ensure .hiLength offset 1 (hiLength :: bytes') = .ok () :=
            if_neg (by simp)
          simp only [Option.bind_eq_bind, Option.bind_some, hensure, readKey?_eq]
          cases takeKey .hiKey offset hiLength.toNat bytes' with
          | error e => rfl
          | ok r => rfl

theorem readOne?_eq (o : KeyOrder) (offset : Nat) (bytes : List UInt8) :
    readOne? o offset bytes = some (readOne o offset bytes) := by
  unfold readOne
  split
  · next heat tier loLength tail =>
      have hensure : ensure .header offset 3 (heat :: tier :: loLength :: tail) = .ok () :=
        if_neg (by simp)
      simp only [readOne?, hensure, getByte?, Option.bind_eq_bind, Option.bind_some, readSpan?_eq]
      by_cases htier : 1 < tier
      · rw [if_pos htier, if_pos htier]
        rfl
      · rw [if_neg htier, if_neg htier]
        cases takeSpan offset loLength tail with
        | error e => rfl
        | ok r =>
            dsimp only
            split
            · rfl
            · split <;> rfl
  · next hshort =>
      have hlength : bytes.length < 3 := by
        rcases bytes with _ | ⟨a, _ | ⟨b, _ | ⟨c, tail⟩⟩⟩
        · decide
        · exact Nat.le_of_ble_eq_true rfl
        · exact Nat.le_of_ble_eq_true rfl
        · exact absurd rfl (hshort a b c tail)
      have hensure : ensure .header offset 3 bytes =
          .error (.truncated .header offset 3 bytes.length) := if_pos hlength
      rw [readOne?, hensure]

/-- The zones of all records. -/
def decodeFrom? (o : KeyOrder) (offset : Nat) (bytes : List UInt8) :
    Option (Except RecordFault (List Zone)) :=
  if bytes = [] then some (.ok [])
  else
    match _h : readOne? o offset bytes with
    | none => none
    | some (.error e) => some (.error e)
    | some (.ok (z, rest)) =>
        (decodeFrom? o (offset + (bytes.length - rest.length)) rest).map (·.map (z :: ·))
termination_by bytes.length
decreasing_by
  rw [readOne?_eq] at _h
  exact readOne_shorter (Option.some.inj _h)

/-- The zones of all records, in order. -/
def decode? (o : KeyOrder) (bytes : List UInt8) : Option (Except Fault (List Zone)) :=
  (decodeFrom? o 0 bytes).map (·.mapError .record)

theorem decodeFrom?_eq (o : KeyOrder) (offset : Nat) (bytes : List UInt8) :
    decodeFrom? o offset bytes = some (decodeFrom o offset bytes) := by
  induction offset, bytes using decodeFrom.induct (o := o) with
  | case1 offset => rw [decodeFrom?, if_pos rfl, decodeFrom_nil]
  | case2 offset bytes hne e hread =>
      have hread? : readOne? o offset bytes = some (.error e) := by rw [readOne?_eq, hread]
      rw [decodeFrom?, if_neg hne, decodeFrom_of_error hne hread]
      split
      · next h =>
          rw [hread?] at h
          cases h
      · next h =>
          rw [hread?] at h
          cases h
          rfl
      · next h =>
          rw [hread?] at h
          cases h
  | case3 offset bytes hne z rest hread ih =>
      have hread? : readOne? o offset bytes = some (.ok (z, rest)) := by rw [readOne?_eq, hread]
      rw [decodeFrom?, if_neg hne, decodeFrom_of_ok hread]
      split
      · next h =>
          rw [hread?] at h
          cases h
      · next h =>
          rw [hread?] at h
          cases h
      · next h =>
          rw [hread?] at h
          cases h
          rw [ih]
          rfl

theorem decode?_eq (o : KeyOrder) (bytes : List UInt8) :
    decode? o bytes = some (decode o bytes) := by
  rw [decode?, decodeFrom?_eq]
  rfl

/-! ## The whole format -/

/-- **Reading accepts exactly the format.** Bytes are read exactly if they are valid records one
after the other, which they are in one way at most, and what is read are the zones of these records
in order. Otherwise the failure names the number of bytes of the valid records up to the first place
where none begins. No byte is read that is not there. -/
theorem decode_exact (o : KeyOrder) (bytes : List UInt8) :
    (∀ zs, decode o bytes = .ok zs ↔
      ∃ rs : List Fields, (∀ r ∈ rs, r.Valid o) ∧ bytes = joined rs ∧ zs = rs.map Fields.zone) ∧
    (∀ rs rs' : List Fields, bytes = joined rs → bytes = joined rs' → rs = rs') ∧
    (∀ e, decode o bytes = .error e →
      (∃ cause, e = .record cause) ∧
      ∃ rs rest, bytes = joined rs ++ rest ∧ (∀ r ∈ rs, r.Valid o) ∧ rest ≠ [] ∧
        (∀ r : Fields, r.Valid o → ¬ r.bytes <+: rest) ∧
        NamesPlace e.message (joined rs).length) ∧
    decode? o bytes = some (decode o bytes) := by
  refine ⟨fun zs => decode_eq_ok_iff, ?_, ?_, decode?_eq o bytes⟩
  · rintro rs rs' rfl h
    exact joined_inj h
  · intro e he
    obtain ⟨rs, rest, hbytes, hall, hne, hnone, cause, rfl, hoffset⟩ := decode_eq_error he
    have hnames := cause.names_offset
    rw [hoffset] at hnames
    exact ⟨⟨cause, rfl⟩, rs, rest, hbytes, hall, hne, hnone, hnames⟩

/-- A record without heat behind a valid one, which ends at the sixth byte. -/
theorem decode_exact_second_cold :
    decode .bytewise [100, 1, 1, 7, 1, 9, 0, 0, 0, 0] = .error (.record (.zeroHeat 6)) ∧
      ∃ rs rest, [100, 1, 1, 7, 1, 9, 0, 0, 0, 0] = joined rs ++ rest ∧
        (∀ r ∈ rs, r.Valid .bytewise) ∧ rest ≠ [] ∧
        (∀ r : Fields, r.Valid .bytewise → ¬ r.bytes <+: rest) ∧
        NamesPlace (Fault.record (.zeroHeat 6)).message (joined rs).length := by
  have hfirst : readOne .bytewise 0 [100, 1, 1, 7, 1, 9, 0, 0, 0, 0] =
      .ok (⟨⟨[7], [9]⟩, 100, true⟩, [0, 0, 0, 0]) := by rfl
  have hsecond : decodeFrom .bytewise 6 [0, 0, 0, 0] = .error (.zeroHeat 6) :=
    decodeFrom_of_error (by decide) rfl
  have hcold : decode .bytewise [100, 1, 1, 7, 1, 9, 0, 0, 0, 0] =
      .error (.record (.zeroHeat 6)) := by
    rw [decode, decodeFrom_of_ok hfirst]
    show Except.mapError _ (Except.map _ (decodeFrom .bytewise 6 [0, 0, 0, 0])) = _
    rw [hsecond]
    rfl
  exact ⟨hcold, ((decode_exact .bytewise [100, 1, 1, 7, 1, 9, 0, 0, 0, 0]).2.2.1 _ hcold).2⟩

end Record

end TierIndex
